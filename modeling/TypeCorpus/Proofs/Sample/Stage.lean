import Mathlib.Logic.Relation
import TypeCorpus.Proofs.Sample.Expansion

/-! Synthesis step by step, with a stack of its own. The names of the structures being expanded are
pushed when an expansion begins and popped when its fields are complete; what waits for a sample
stands beside them. Every run from an empty stack comes to the sample of its reference, however the
structures refer to each other: the stack never holds a name twice, and a reference is answered with
the stack as it was when it was asked for. -/

namespace TypeCorpus.Registry

open Relation

/-- What waits for a sample: a list of one, the fields of a structure for those of its base, or a
member of a structure for its value. -/
inductive Pending where
  | item
  | base (decl : StructDecl)
  | member (decl : StructDecl) (fields : Table String Sample) (m : Member) (rest : List Member)

/-- What is to be done next: find the sample of a reference, write the rest of a structure's
members, or hand a sample to what waits for it. -/
inductive Task where
  | sample (ref : String) (isRepeated : Bool)
  | fields (decl : StructDecl) (fields : Table String Sample) (rest : List Member)
  | done (s : Sample)

/-- Where synthesis stands. The innermost structure being expanded comes first, and so does what was
put off last. -/
structure Stage where
  task : Task
  pending : List Pending := []
  expanding : List String := []
  notices : List CycleNotice := []

/-- One step of synthesis; there is none after a sample that nothing waits for. -/
def step (r : Registry) : Stage → Option Stage
  | ⟨.sample ref true, pending, expanding, notices⟩ =>
    some ⟨.sample ref false, .item :: pending, expanding, notices⟩
  | ⟨.sample ref false, pending, expanding, notices⟩ =>
    match r.outcome expanding ref with
    | .settled s noted => some ⟨.done s, pending, expanding, notices ++ noted⟩
    | .expand decl =>
      match Member.given decl.baseType with
      | some base =>
        some ⟨.sample base false, .base decl :: pending, decl.name :: expanding, notices⟩
      | none => some ⟨.fields decl [] decl.members, pending, decl.name :: expanding, notices⟩
  | ⟨.fields decl fields (m :: rest), pending, expanding, notices⟩ =>
    match m.typeRef? with
    | some ref =>
      some ⟨.sample ref m.isRepeated, .member decl fields m rest :: pending, expanding, notices⟩
    | none =>
      some ⟨.fields decl (fields.insert m.name (.unknownType "")) rest, pending, expanding, notices⟩
  | ⟨.fields _ fields [], pending, expanding, notices⟩ =>
    some ⟨.done (.record fields), pending, expanding.tail, notices⟩
  | ⟨.done s, .item :: pending, expanding, notices⟩ =>
    some ⟨.done (.list [s]), pending, expanding, notices⟩
  | ⟨.done s, .base decl :: pending, expanding, notices⟩ =>
    some ⟨.fields decl (s.fields?.getD []) decl.members, pending, expanding, notices⟩
  | ⟨.done s, .member decl fields m rest :: pending, expanding, notices⟩ =>
    some ⟨.fields decl (fields.insert m.name (s.labelled m.name)) rest, pending, expanding, notices⟩
  | ⟨.done _, [], _, _⟩ => none

/-- Some steps lead from one stage to another. -/
def Leads (r : Registry) : Stage → Stage → Prop := ReflTransGen fun c c' => r.step c = some c'

variable {r : Registry} {c c' : Stage} {expanding : List String} {ref : String}

/-! ### Each reference is answered -/

theorem Leads.trans {c'' : Stage} (h : r.Leads c c') (h' : r.Leads c' c'') : r.Leads c c'' :=
  ReflTransGen.trans h h'

theorem Leads.next {c'' : Stage} (h : r.step c = some c') (h' : r.Leads c' c'') : r.Leads c c'' :=
  ReflTransGen.head h h'

/-- The steps answer one value of a reference with a traced sample, whatever waits for it. -/
def Answers (r : Registry) (expanding : List String) (ref : String)
    (x : Traced CycleNotice Sample) : Prop :=
  ∀ pending notices, r.Leads ⟨.sample ref false, pending, expanding, notices⟩
    ⟨.done x.value, pending, expanding, notices ++ x.events⟩

theorem Answers.repeatedIf {x : Traced CycleNotice Sample} (h : r.Answers expanding ref x)
    (isRepeated : Bool) (pending : List Pending) (notices : List CycleNotice) :
    r.Leads ⟨.sample ref isRepeated, pending, expanding, notices⟩
      ⟨.done (Sample.repeatedIf isRepeated x.value), pending, expanding, notices ++ x.events⟩ := by
  cases isRepeated with
  | false => exact h pending notices
  | true => exact .next rfl ((h (.item :: pending) notices).trans (.next rfl .refl))

variable {scalar : String → Traced CycleNotice Sample}

theorem leads_write (h : ∀ ref, r.Answers expanding ref (scalar ref)) (decl : StructDecl)
    (fields : Table String Sample) (m : Member) (rest : List Member) (pending : List Pending)
    (notices : List CycleNotice) :
    r.Leads ⟨.fields decl fields (m :: rest), pending, expanding, notices⟩
      ⟨.fields decl (Sample.write scalar fields m).value rest, pending, expanding,
        notices ++ (Sample.write scalar fields m).events⟩ := by
  simp only [Sample.write, Sample.ofMember, Traced.value_bind, Traced.events_bind,
    Traced.value_pure, Traced.events_pure, List.append_nil]
  cases hm : m.typeRef? with
  | some ref =>
    have hstep : r.step ⟨.fields decl fields (m :: rest), pending, expanding, notices⟩ =
        some ⟨.sample ref m.isRepeated, .member decl fields m rest :: pending, expanding,
          notices⟩ := by
      simp only [step, hm]
    rw [Traced.value_map, Traced.events_map]
    exact .next hstep (((h ref).repeatedIf m.isRepeated _ notices).trans (.next rfl .refl))
  | none =>
    refine .next ?_ .refl
    simp only [step, hm, Traced.value_pure, Traced.events_pure, List.append_nil]

theorem leads_writeAll (h : ∀ ref, r.Answers expanding ref (scalar ref)) (decl : StructDecl)
    (members : List Member) (fields : Table String Sample) (pending : List Pending)
    (notices : List CycleNotice) :
    r.Leads ⟨.fields decl fields members, pending, expanding, notices⟩
      ⟨.fields decl (Sample.writeAll scalar fields members).value [], pending, expanding,
        notices ++ (Sample.writeAll scalar fields members).events⟩ := by
  induction members generalizing fields notices with
  | nil =>
    simp only [Sample.writeAll, List.foldlM_nil, Traced.value_pure, Traced.events_pure,
      List.append_nil]
    exact .refl
  | cons m members ih =>
    rw [Sample.writeAll_cons, Traced.value_bind, Traced.events_bind, ← List.append_assoc]
    exact (leads_write h decl fields m members pending notices).trans (ih _ _)

/-- An expansion is answered with the record of the structure, and its name is popped. -/
theorem answers_expand {decl : StructDecl} (ho : r.outcome expanding ref = .expand decl)
    (h : ∀ ref, r.Answers (decl.name :: expanding) ref (scalar ref)) :
    r.Answers expanding ref (.record <$> Sample.ofStruct scalar decl) := by
  intro pending notices
  have hbase : r.Leads ⟨.sample ref false, pending, expanding, notices⟩
      ⟨.fields decl (Sample.ofBase scalar decl.baseType).value decl.members, pending,
        decl.name :: expanding, notices ++ (Sample.ofBase scalar decl.baseType).events⟩ := by
    rw [Sample.ofBase]
    cases hb : Member.given decl.baseType with
    | some base =>
      have hstep : r.step ⟨.sample ref false, pending, expanding, notices⟩ =
          some ⟨.sample base false, .base decl :: pending, decl.name :: expanding, notices⟩ := by
        simp only [step, ho, hb]
      rw [Traced.value_map, Traced.events_map]
      exact .next hstep ((h base (.base decl :: pending) notices).trans (.next rfl .refl))
    | none =>
      have hstep : r.step ⟨.sample ref false, pending, expanding, notices⟩ =
          some ⟨.fields decl [] decl.members, pending, decl.name :: expanding, notices⟩ := by
        simp only [step, ho, hb]
      rw [Traced.value_pure, Traced.events_pure, List.append_nil]
      exact .next hstep .refl
  rw [Sample.ofStruct_eq, Traced.value_map, Traced.events_map, Traced.value_bind,
    Traced.events_bind, ← List.append_assoc]
  exact hbase.trans ((leads_writeAll h decl _ _ pending _).trans (.next rfl .refl))

/-- Every reference is answered with its sample, and the stack is what it was. -/
theorem answers_scalarSample (r : Registry) (expanding : List String) (ref : String) :
    r.Answers expanding ref (r.scalarSample expanding ref) := by
  induction expanding, ref using expansion_induction (r := r) with
  | step expanding ref ih =>
    rw [scalarSample_eq_outcome]
    cases ho : r.outcome expanding ref with
    | settled s noted => exact fun pending notices => .next (by simp only [step, ho]) .refl
    | expand decl => exact answers_expand ho (ih decl ho)

/-! ### What every step keeps of the stack -/

/-- The structure that what waits belongs to. -/
def Pending.opened? : Pending → Option String
  | item => none
  | base decl => some decl.name
  | member decl _ _ _ => some decl.name

/-- The structure that a task belongs to. -/
def Task.opened? : Task → Option String
  | fields decl _ _ => some decl.name
  | _ => none

/-- The stack holds no name twice, and holds the names that the task and what waits belong to. -/
structure Stage.Sound (c : Stage) : Prop where
  nodup : c.expanding.Nodup
  expanding_eq : c.expanding = c.task.opened?.toList ++ c.pending.filterMap Pending.opened?

theorem Stage.Sound.step (hc : c.Sound) (h : r.step c = some c') : c'.Sound := by
  obtain ⟨task, pending, expanding, notices⟩ := c
  obtain ⟨hnodup, heq⟩ := hc
  cases task with
  | sample ref isRepeated =>
    cases isRepeated with
    | true => cases h; exact ⟨hnodup, heq⟩
    | false =>
      simp only [Registry.step] at h
      cases ho : r.outcome expanding ref with
      | settled s noted =>
        rw [ho] at h
        cases h; exact ⟨hnodup, heq⟩
      | expand decl =>
        have hpush : (decl.name :: expanding).Nodup :=
          List.nodup_cons.2 ⟨notMem_of_expand ho, hnodup⟩
        have hopen : decl.name :: expanding =
            decl.name :: pending.filterMap Pending.opened? := congrArg _ heq
        rw [ho] at h
        simp only at h
        split at h <;> cases h <;> exact ⟨hpush, hopen⟩
  | fields decl fields rest =>
    cases rest with
    | nil =>
      cases h
      exact ⟨hnodup.tail, congrArg List.tail heq⟩
    | cons m rest =>
      simp only [Registry.step] at h
      split at h <;> cases h <;> exact ⟨hnodup, heq⟩
  | done s =>
    cases pending with
    | nil => cases h
    | cons waiting pending =>
      cases waiting <;> cases h <;> exact ⟨hnodup, heq⟩

theorem Leads.sound (h : r.Leads c c') (hc : c.Sound) : c'.Sound := by
  induction h with
  | refl => exact hc
  | tail _ hstep ih => exact ih.step hstep

/-- Synthesis ends on every registry, with the sample of its reference and an empty stack. On the
way the stack never holds a name twice, and each reference that is asked for is answered with the
stack as it was then. No way down the sample meets more records than structures have names. -/
theorem synthesis_ends (r : Registry) (ref : String) (isRepeated : Bool) :
    let start : Stage := { task := .sample ref isRepeated }
    let x := r.sample ref isRepeated
    (r.Leads start { task := .done x.value, notices := x.events } ∧
      r.step { task := .done x.value, notices := x.events } = none) ∧
    (∀ c, r.Leads start c → c.expanding.Nodup) ∧
    (∀ c ref' isRepeated', r.Leads start c → c.task = .sample ref' isRepeated' →
      (∃ s notices, r.Leads c { c with task := .done s, notices := notices }) ∧
      ∀ c' s, r.Leads start c' → c'.task = .done s → c'.pending = c.pending →
        c'.expanding = c.expanding) ∧
    ∀ path : List Sample, (x.value :: path).IsChain Sample.Holds →
      (x.value :: path).countP Sample.isRecord ≤
        (r.structs.values.map StructDecl.name).toFinset.card := by
  intro start x
  have hstart : start.Sound := ⟨List.nodup_nil, rfl⟩
  have hanswer := (r.answers_scalarSample [] ref).repeatedIf isRepeated [] []
  refine ⟨⟨?_, rfl⟩, fun c hc => (hc.sound hstart).nodup, ?_, r.recordsWithin_sample ref isRepeated⟩
  · simpa only [x, sample, Traced.value_map, Traced.events_map, List.nil_append] using hanswer
  · rintro ⟨task, pending, expanding, notices⟩ ref' isRepeated' hc rfl
    refine ⟨⟨_, _, (r.answers_scalarSample expanding ref').repeatedIf isRepeated' pending notices⟩,
      ?_⟩
    rintro ⟨task', pending', expanding', notices'⟩ s hc' rfl rfl
    exact (hc'.sound hstart).expanding_eq.trans (hc.sound hstart).expanding_eq.symm

end TypeCorpus.Registry
