import TypeCorpus.Proofs.Sample.Reference
import TypeCorpus.Proofs.Sample.Stage

/-! What a registration leaves alone. It writes one table under its name and the table of short
names under its short name, and where short names stand for names that have them, nothing that is
read for a reference has another short name than the reference. So a turn of a walk is the same
before and after the registration unless the reference it stands at has that short name; a walk that
visits no such reference keeps its answer, a failure with the way that it reports included, and
synthesis that asks for none keeps the sample. -/

namespace TypeCorpus.Registry

open Relation

variable {r : Registry} {g : Registration} {ref q name : String} {isRepeated : Bool}

/-! ### References that are visited -/

/-- One turn of a walk leads to the next. -/
def Turns (r : Registry) : Walk → Walk → Prop := ReflTransGen fun w w' => r.turn w = .inl w'

/-- Resolution of a reference visits another: a walk that begins at the one comes to stand at the
other. -/
def Visits (r : Registry) (ref q : String) : Prop :=
  ∃ w : Walk, r.Turns { start := ref } w ∧ w.current = q

/-- Synthesis visits a reference: resolution of a reference whose sample is asked for does. -/
def SampleVisits (r : Registry) (ref : String) (isRepeated : Bool) (q : String) : Prop :=
  ∃ c ref' isRepeated', r.Leads { task := .sample ref isRepeated } c ∧
    c.task = .sample ref' isRepeated' ∧ r.Visits ref' q

/-- Induction on the typedefs that a walk has yet to meet. -/
theorem turn_induction {motive : Walk → Prop}
    (step : ∀ w, (∀ w', r.turn w = .inl w' → motive w') → motive w) (w : Walk) : motive w :=
  step w fun w' h =>
    have : (r.unmet w'.met).length < (r.unmet w.met).length := length_unmet_turn h
    turn_induction step w'
termination_by (r.unmet w.met).length

/-- A walk with an answer comes to stand at a reference that settles on it. -/
theorem exists_turns_of_walk {w : Walk}
    (h : r.walk w.start w.met w.chain w.current = .ok name) :
    ∃ w', r.Turns w w' ∧ r.settled w'.current = name := by
  induction w using turn_induction (r := r) with
  | step w ih =>
    rw [walk_eq_turn] at h
    cases hw : r.turn w with
    | inl w' =>
      rw [hw] at h
      obtain ⟨last, hturns, hlast⟩ := ih w' hw h
      exact ⟨last, .head hw hturns, hlast⟩
    | inr answer =>
      rw [hw] at h
      refine ⟨w, .refl, ?_⟩
      obtain rfl : answer = .ok name := h
      simp only [turn] at hw
      split at hw
      · exact Except.ok.inj (Sum.inr.inj hw)
      · split at hw <;> cases hw

theorem short_settled (hr : r.Coherent) (ref : String) :
    Name.short (r.settled ref) = Name.short ref := by
  rw [settled]
  cases h : r.fullName? (Name.short ref) with
  | none => rfl
  | some full => exact hr.short_of_bound h

/-- The name that a reference resolves to has the short name of a reference that was visited. -/
theorem exists_visits_short (hr : r.Coherent) (h : r.resolve? ref = .ok name) :
    ∃ q, r.Visits ref q ∧ Name.short q = Name.short name := by
  obtain ⟨w, hturns, rfl⟩ := exists_turns_of_walk (w := { start := ref }) h
  exact ⟨w.current, ⟨w, hturns, rfl⟩, (short_settled hr w.current).symm⟩

/-- Every reference that resolution visits is the first one or what a typedef stands for. -/
theorem eq_or_mem_of_visits (h : r.Visits ref q) : q = ref ∨ q ∈ r.typedefs.values := by
  obtain ⟨w, hturns, rfl⟩ := h
  rcases hturns.cases_tail with rfl | ⟨w', -, hturn⟩
  · exact .inl rfl
  · obtain ⟨name, hd, -⟩ := turn_eq_inl hturn
    exact .inr (mem_values_of_get? (get?_of_denoted? hd))

/-! ### References that are mentioned -/

/-- The references that the declarations of a registry hold. -/
def mentioned (r : Registry) : List String :=
  r.typedefs.values ++ r.structs.values.flatMap StructDecl.refs

/-- The references that a task still has to ask for. -/
def Task.refs : Task → List String
  | sample ref _ => [ref]
  | fields _ _ rest => rest.filterMap Member.typeRef?
  | done _ => []

/-- The references that will be asked for when what waits goes on. -/
def Pending.refs : Pending → List String
  | item => []
  | base decl => decl.members.filterMap Member.typeRef?
  | member _ _ _ rest => rest.filterMap Member.typeRef?

/-- The references that a stage still has to ask for, those of structures to come apart. -/
def Stage.refs (c : Stage) : List String := c.task.refs ++ c.pending.flatMap Pending.refs

theorem refs_mentioned_of_expand (hr : r.Coherent) {expanding : List String} {decl : StructDecl}
    (h : r.outcome expanding ref = .expand decl) (hq : q ∈ decl.refs) : q ∈ r.mentioned := by
  obtain ⟨name, -, -, hdecl⟩ := namesStruct_of_expand hr h
  exact List.mem_append_right _ (List.mem_flatMap.2 ⟨decl, mem_values_of_get? hdecl, hq⟩)

/-- A structure that begins to be expanded brings the references of its declaration. -/
theorem mem_refs_of_begin {expanding : List String} {pending : List Pending}
    {notices : List CycleNotice} {decl : StructDecl} {c' : Stage}
    (ho : r.outcome expanding ref = .expand decl)
    (h : r.step ⟨.sample ref false, pending, expanding, notices⟩ = some c') (hq : q ∈ c'.refs) :
    q ∈ decl.refs ∨ q ∈ pending.flatMap Pending.refs := by
  simp only [step, ho] at h
  split at h
  · next base hbase =>
    cases h
    simp only [Stage.refs, Task.refs, Pending.refs, List.flatMap_cons, List.mem_append,
      List.mem_singleton] at hq
    rcases hq with rfl | hq | hq
    · exact .inl (StructDecl.mem_refs_of_base hbase)
    · exact .inl (List.mem_append_right _ hq)
    · exact .inr hq
  · cases h
    exact (List.mem_append.1 hq).imp_left (List.mem_append_right _)

/-- A step asks for nothing new but what a registered structure refers to. -/
theorem mem_refs_of_step (hr : r.Coherent) {c c' : Stage} (h : r.step c = some c')
    (hq : q ∈ c'.refs) : q ∈ c.refs ∨ q ∈ r.mentioned := by
  obtain ⟨task, pending, expanding, notices⟩ := c
  cases task with
  | sample ref isRepeated =>
    cases isRepeated with
    | true => cases h; exact .inl hq
    | false =>
      cases ho : r.outcome expanding ref with
      | settled s noted =>
        simp only [step, ho] at h
        cases h
        exact .inl (List.mem_append_right _ hq)
      | expand decl =>
        rcases mem_refs_of_begin ho h hq with hq | hq
        · exact .inr (refs_mentioned_of_expand hr ho hq)
        · exact .inl (List.mem_append_right _ hq)
  | fields decl fields rest =>
    left
    cases rest with
    | nil => cases h; exact hq
    | cons m rest =>
      simp only [step] at h
      split at h
      · next ref' href =>
        cases h
        simpa [Stage.refs, Task.refs, Pending.refs, href] using hq
      · next href =>
        cases h
        simpa [Stage.refs, Task.refs, href] using hq
  | done s =>
    left
    cases pending with
    | nil => cases h
    | cons waiting pending =>
      cases waiting <;> cases h <;> simpa [Stage.refs, Task.refs, Pending.refs] using hq

theorem mem_refs_of_leads (hr : r.Coherent) {c c' : Stage} (h : r.Leads c c') (hq : q ∈ c'.refs) :
    q ∈ c.refs ∨ q ∈ r.mentioned := by
  induction h with
  | refl => exact .inl hq
  | tail _ hstep ih =>
    rcases mem_refs_of_step hr hstep hq with hq | hq
    · exact ih hq
    · exact .inr hq

/-- Synthesis visits the reference that it begins with and such as the registry mentions. -/
theorem mem_of_sampleVisits (hr : r.Coherent) (h : r.SampleVisits ref isRepeated q) :
    q ∈ ref :: r.mentioned := by
  obtain ⟨⟨task, pending, expanding, notices⟩, ref', isRepeated', hlead, rfl, hvisit⟩ := h
  rcases eq_or_mem_of_visits hvisit with rfl | hq
  · rcases mem_refs_of_leads hr hlead (List.mem_append_left _ (List.mem_singleton_self _)) with
      hq | hq
    · rw [List.mem_singleton.1 hq]
      exact List.mem_cons_self
    · exact List.mem_cons_of_mem _ hq
  · exact List.mem_cons_of_mem _ (List.mem_append_left _ hq)

/-! ### Resolution -/

/-- A registration writes no table under another name than its own. -/
theorem get?_enter (r : Registry) (h : g.name ≠ name) :
    (r.enter g).typedefs.get? name = r.typedefs.get? name ∧
    (r.enter g).enums.get? name = r.enums.get? name ∧
    (r.enter g).structs.get? name = r.structs.get? name := by
  cases g with
  | typedef name underlying => exact ⟨Table.get?_insert_ne _ h _, rfl, rfl⟩
  | enum name enumerators => exact ⟨rfl, Table.get?_insert_ne _ h _, rfl⟩
  | struct name decl => exact ⟨rfl, rfl, Table.get?_insert_ne _ h _⟩

theorem turn_enter (hr : r.Coherent) {w : Walk} (h : Name.short w.current ≠ Name.short g.name) :
    (r.enter g).turn w = r.turn w := by
  have hne : g.name ≠ w.current := fun he => h (congrArg Name.short he.symm)
  have hfull : (r.enter g).fullName? (Name.short w.current) =
      r.fullName? (Name.short w.current) := by
    rw [fullName?_enter, if_neg (Ne.symm h)]
  have hdenoted : (r.enter g).denoted? w.current = r.denoted? w.current := by
    rw [denoted?, denoted?, (get?_enter r hne).1, hfull]
    cases hs : r.fullName? (Name.short w.current) with
    | none => rfl
    | some full =>
      have hshort : Name.short full = Name.short w.current := hr.short_of_bound hs
      have hne' : g.name ≠ full := fun he => h (by rw [he, hshort])
      simp only [(get?_enter r hne').1]
  rw [turn, turn, hdenoted, settled, settled, hfull]

theorem walk_enter (hr : r.Coherent) {w : Walk}
    (h : ∀ w', r.Turns w w' → Name.short w'.current ≠ Name.short g.name) :
    (r.enter g).walk w.start w.met w.chain w.current =
      r.walk w.start w.met w.chain w.current := by
  induction w using turn_induction (r := r) with
  | step w ih =>
    rw [walk_eq_turn, walk_eq_turn r, turn_enter hr (h w .refl)]
    cases hw : r.turn w with
    | inl w' => exact ih w' hw fun w'' hturns => h w'' (.head hw hturns)
    | inr answer => rfl

theorem resolve?_enter (hr : r.Coherent)
    (h : ∀ q, r.Visits ref q → Name.short q ≠ Name.short g.name) :
    (r.enter g).resolve? ref = r.resolve? ref :=
  walk_enter hr (w := { start := ref }) fun w hturns => h w.current ⟨w, hturns, rfl⟩

/-- The name that such a reference resolves to is not the registered one. -/
theorem name_ne_of_resolve? (hr : r.Coherent)
    (h : ∀ q, r.Visits ref q → Name.short q ≠ Name.short g.name)
    (hname : r.resolve? ref = .ok name) : g.name ≠ name := by
  obtain ⟨q, hq, hshort⟩ := exists_visits_short hr hname
  rintro rfl
  exact h q hq hshort

theorem lookup?_enter {α : Type} (hr : r.Coherent) {table table' : Table String α}
    (h : ∀ q, r.Visits ref q → Name.short q ≠ Name.short g.name)
    (htable : ∀ name, g.name ≠ name → table'.get? name = table.get? name) :
    (r.enter g).lookup? table' ref = r.lookup? table ref := by
  have hresolve := resolve?_enter hr h
  cases hname : r.resolve? ref with
  | error cycle => rw [lookup?_of_error _ (hresolve.trans hname), lookup?_of_error _ hname]
  | ok name =>
    rw [lookup?_eq_get? (hr.enter g) table' (hresolve.trans hname), lookup?_eq_get? hr table hname]
    exact htable name (name_ne_of_resolve? hr h hname)

/-! ### Synthesis -/

theorem outcome_enter (hr : r.Coherent)
    (h : ∀ q, r.Visits ref q → Name.short q ≠ Name.short g.name) (expanding : List String) :
    (r.enter g).outcome expanding ref = r.outcome expanding ref := by
  have hresolve := resolve?_enter hr h
  cases hname : r.resolve? ref with
  | error cycle => rw [outcome, outcome, hresolve, hname]
  | ok name =>
    obtain ⟨-, henum, hstruct⟩ := get?_enter r (name_ne_of_resolve? hr h hname)
    rw [outcome_eq (hr.enter g) (hresolve.trans hname), outcome_eq hr hname, henum, hstruct]

theorem step_enter (hr : r.Coherent) {c : Stage}
    (h : ∀ ref isRepeated, c.task = .sample ref isRepeated →
      ∀ q, r.Visits ref q → Name.short q ≠ Name.short g.name) :
    (r.enter g).step c = r.step c := by
  obtain ⟨task, pending, expanding, notices⟩ := c
  cases task with
  | sample ref isRepeated =>
    cases isRepeated with
    | true => rfl
    | false => simp only [step, outcome_enter hr (h ref false rfl)]
  | fields decl fields rest => cases rest <;> rfl
  | done s =>
    cases pending with
    | nil => rfl
    | cons waiting pending => cases waiting <;> rfl

theorem leads_enter (hr : r.Coherent) {c : Stage}
    (h : ∀ q, r.SampleVisits ref isRepeated q → Name.short q ≠ Name.short g.name)
    (hc : r.Leads { task := .sample ref isRepeated } c) :
    (r.enter g).Leads { task := .sample ref isRepeated } c := by
  induction hc with
  | refl => exact .refl
  | @tail c c' hlead hstep ih =>
    refine ih.tail ?_
    rw [step_enter hr fun ref' isRepeated' htask q hq => h q ⟨c, _, _, hlead, htask, hq⟩]
    exact hstep

/-- Steps come to one stage that has no next. -/
theorem Leads.unique {c d d' : Stage} (h : r.Leads c d) (h' : r.Leads c d')
    (hd : r.step d = none) (hd' : r.step d' = none) : d = d' := by
  have hhalt : ∀ {e e' : Stage}, r.Leads e e' → r.step e = none → e = e' := by
    intro e e' hlead he
    rcases hlead.cases_head with heq | ⟨e'', hstep, -⟩
    · exact heq
    · cases he.symm.trans hstep
  have hright : Relator.RightUnique fun c c' => r.step c = some c' :=
    fun _ _ _ hb hb' => Option.some.inj (hb.symm.trans hb')
  rcases ReflTransGen.total_of_right_unique hright h h' with hway | hway
  · exact hhalt hway hd
  · exact (hhalt hway hd').symm

theorem leads_sample (r : Registry) (ref : String) (isRepeated : Bool) :
    r.Leads { task := .sample ref isRepeated }
      { task := .done (r.sample ref isRepeated).value
        notices := (r.sample ref isRepeated).events } := by
  have hanswer := (r.answers_scalarSample [] ref).repeatedIf isRepeated [] []
  simpa only [sample, Traced.value_map, Traced.events_map, List.nil_append] using hanswer

theorem sample_enter (hr : r.Coherent)
    (h : ∀ q, r.SampleVisits ref isRepeated q → Name.short q ≠ Name.short g.name) :
    (r.enter g).sample ref isRepeated = r.sample ref isRepeated := by
  have hstage := ((r.enter g).leads_sample ref isRepeated).unique
    (leads_enter hr h (r.leads_sample ref isRepeated)) rfl rfl
  rw [Stage.mk.injEq, Task.done.injEq] at hstage
  obtain ⟨hvalue, -, -, hevents⟩ := hstage
  exact congrArg₂ Traced.mk hvalue hevents

/-- A registration leaves alone what has nothing to do with its short name. Where no reference that
resolution visits has this short name, the answer is what it was, a cycle with the way it reports
included, and so are the enumeration and the structure that are found; where no reference that
synthesis visits has it, the sample is what it was. -/
theorem enter_frame (hr : r.Reachable) (g : Registration) :
    (∀ ref, (∀ q, r.Visits ref q → Name.short q ≠ Name.short g.name) →
      (r.enter g).resolve? ref = r.resolve? ref ∧ (r.enter g).enum? ref = r.enum? ref ∧
        (r.enter g).struct? ref = r.struct? ref) ∧
    ∀ ref isRepeated, (∀ q, r.SampleVisits ref isRepeated q → Name.short q ≠ Name.short g.name) →
      (r.enter g).sample ref isRepeated = r.sample ref isRepeated := by
  have hc := hr.coherent
  refine ⟨fun ref h => ⟨resolve?_enter hc h, ?_, ?_⟩, fun ref isRepeated => sample_enter hc⟩
  · exact lookup?_enter hc h fun name hne => (get?_enter r hne).2.1
  · exact lookup?_enter hc h fun name hne => (get?_enter r hne).2.2

/-- A structure that refers to an alias of itself, and an enumeration that comes later. -/
theorem enter_frame_later_enum :
    let decl : StructDecl :=
      { name := "M::S"
        baseType := some "Q::B"
        members := [{ name := "next", typeName := some "T" }] }
    let r := run [.struct "M::S" decl, Operation.typedef "M::T" "K::S"]
    let g : Registration := .enum "M::E" ["ON"]
    (∀ q, r.Visits "T" q → Name.short q ≠ Name.short g.name) ∧
      (∀ q, r.SampleVisits "T" true q → Name.short q ≠ Name.short g.name) ∧
      (r.enter g).resolve? "T" = r.resolve? "T" ∧
      (r.enter g).sample "T" true = r.sample "T" true := by
  intro decl r g
  have hr : r.Reachable := ⟨_, rfl⟩
  have hmentioned : ∀ q ∈ "T" :: r.mentioned, Name.short q ≠ Name.short g.name := by decide
  have hvisits : ∀ q, r.Visits "T" q → Name.short q ≠ Name.short g.name := fun q hq =>
    hmentioned q (List.mem_cons.2 ((eq_or_mem_of_visits hq).imp_right (List.mem_append_left _)))
  have hsample : ∀ q, r.SampleVisits "T" true q → Name.short q ≠ Name.short g.name :=
    fun q hq => hmentioned q (mem_of_sampleVisits hr.coherent hq)
  obtain ⟨hresolve, -, -⟩ := (enter_frame hr g).1 "T" hvisits
  exact ⟨hvisits, hsample, hresolve, (enter_frame hr g).2 "T" true hsample⟩

end TypeCorpus.Registry
