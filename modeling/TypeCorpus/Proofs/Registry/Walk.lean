import Mathlib.Logic.Relation
import Mathlib.Logic.Function.Iterate
import Mathlib.Tactic.Choose
import TypeCorpus.Registry.Resolution

/-! Resolution against the rule it guards. Without the guard a reference continues as what its
typedef stands for, or stops; `ResolvesTo` says that this comes to an end and `NeverEnds` that it
goes on forever. The guarded walk is taken apart into single turns, each of which meets a typedef
not met before, so it has its answer within one turn more than there are typedefs. A typedef met
twice closes a circle of the rule: a cycle is reported exactly where the rule never ends. -/

namespace TypeCorpus.Registry

open Relation

variable {r : Registry} {ref next name : String}

/-! ### The rule without the guard -/

/-- What a reference goes on as: what the typedef of its name stands for, or else what the typedef
that its short name stands for does. -/
inductive Continues (r : Registry) : String → String → Prop where
  | typedef {ref underlying : String} (h : r.typedefs.get? ref = some underlying) :
      Continues r ref underlying
  | shortName {ref full underlying : String} (hn : r.typedefs.get? ref = none)
      (hs : r.fullName? (Name.short ref) = some full) (h : r.typedefs.get? full = some underlying) :
      Continues r ref underlying

/-- Where a reference stops: on what its short name stands for if that is no typedef, or on itself
if its short name stands for nothing. -/
inductive Stops (r : Registry) : String → String → Prop where
  | shortName {ref full : String} (hn : r.typedefs.get? ref = none)
      (hs : r.fullName? (Name.short ref) = some full) (h : r.typedefs.get? full = none) :
      Stops r ref full
  | itself {ref : String} (hn : r.typedefs.get? ref = none)
      (hs : r.fullName? (Name.short ref) = none) : Stops r ref ref

/-- The rule comes to an end on a name. -/
def ResolvesTo (r : Registry) (ref name : String) : Prop :=
  ∃ last, ReflTransGen r.Continues ref last ∧ r.Stops last name

/-- The rule goes on forever. -/
def NeverEnds (r : Registry) (ref : String) : Prop :=
  ∃ f : ℕ → String, f 0 = ref ∧ ∀ n, r.Continues (f n) (f (n + 1))

theorem continues_iff : r.Continues ref next ↔ ∃ name, r.denoted? ref = some (name, next) := by
  constructor
  · intro h
    cases h with
    | typedef h => exact ⟨ref, by simp [denoted?, h]⟩
    | shortName hn hs h => simp [denoted?, hn, hs, h]
  · rintro ⟨name, h⟩
    simp only [denoted?] at h
    split at h
    · cases h; exact .typedef ‹_›
    · split at h
      · obtain ⟨u, hu, he⟩ := Option.map_eq_some_iff.1 h
        cases he; exact .shortName ‹_› ‹_› hu
      · cases h

theorem stops_iff : r.Stops ref name ↔ r.denoted? ref = none ∧ r.settled ref = name := by
  constructor
  · rintro (⟨hn, hs, h⟩ | ⟨hn, hs⟩)
    · exact ⟨by simp [denoted?, hn, hs, h], by simp [settled, hs]⟩
    · exact ⟨by simp [denoted?, hn, hs], by simp [settled, hs]⟩
  · rintro ⟨h, rfl⟩
    simp only [denoted?] at h
    split at h
    · cases h
    · split at h
      · rename_i hn _ full hs
        rw [settled, hs]
        exact .shortName hn hs (Option.map_eq_none_iff.1 h)
      · rename_i hn _ hs
        rw [settled, hs]
        exact .itself hn hs

/-- A typedef that a reference denotes stands for what the reference goes on as. -/
theorem get?_of_denoted? (h : r.denoted? ref = some (name, next)) :
    r.typedefs.get? name = some next := by
  simp only [denoted?] at h
  split at h
  · cases h; assumption
  · split at h
    · obtain ⟨u, hu, he⟩ := Option.map_eq_some_iff.1 h
      cases he; exact hu
    · cases h

theorem Continues.eq {next' : String} (h : r.Continues ref next) (h' : r.Continues ref next') :
    next = next' := by
  obtain ⟨n, hn⟩ := continues_iff.1 h
  obtain ⟨n', hn'⟩ := continues_iff.1 h'
  rw [hn] at hn'
  cases hn'
  rfl

theorem Continues.not_stops (h : r.Continues ref next) : ¬ r.Stops ref name := by
  obtain ⟨n, hn⟩ := continues_iff.1 h
  rw [stops_iff, hn]
  simp

theorem Stops.resolvesTo (h : r.Stops ref name) : r.ResolvesTo ref name := ⟨ref, .refl, h⟩

/-- A reference resolves to what it goes on as does. -/
theorem Continues.resolvesTo_iff (h : r.Continues ref next) :
    r.ResolvesTo ref name ↔ r.ResolvesTo next name := by
  constructor
  · rintro ⟨last, hchain, hstop⟩
    rcases hchain.cases_head with rfl | ⟨next', hstep, hrest⟩
    · exact absurd hstop h.not_stops
    · obtain rfl := h.eq hstep
      exact ⟨last, hrest, hstop⟩
  · rintro ⟨last, hchain, hstop⟩
    exact ⟨last, .head h hchain, hstop⟩

theorem Stops.eq_of_resolvesTo {name' : String} (h : r.Stops ref name)
    (h' : r.ResolvesTo ref name') : name = name' := by
  obtain ⟨last, hchain, hstop⟩ := h'
  rcases hchain.cases_head with rfl | ⟨next, hstep, -⟩
  · rw [stops_iff] at h hstop
    exact h.2.symm.trans hstop.2
  · exact absurd h hstep.not_stops

/-- A rule that goes on forever comes to no end. -/
theorem NeverEnds.not_resolvesTo (h : r.NeverEnds ref) : ¬ r.ResolvesTo ref name := by
  obtain ⟨f, rfl, hf⟩ := h
  have hnot : ∀ n last, ReflTransGen r.Continues (f n) last → ¬ r.Stops last name := by
    intro n last hchain
    generalize hfn : f n = first at hchain
    induction hchain using ReflTransGen.head_induction_on generalizing n with
    | refl => exact (hfn ▸ hf n).not_stops
    | head hstep _ ih => exact ih (n + 1) ((hf n).eq (hfn ▸ hstep))
  rintro ⟨last, hchain, hstop⟩
  exact hnot 0 last hchain hstop

/-- What always goes on to something of its kind goes on forever. -/
theorem neverEnds_of_invariant (P : String → Prop)
    (hP : ∀ a, P a → ∃ b, r.Continues a b ∧ P b) (h : P ref) : r.NeverEnds ref := by
  choose! f hf hPf using hP
  have hiter : ∀ n, P (f^[n] ref) := by
    intro n
    induction n with
    | zero => exact h
    | succ n ih =>
      rw [Function.iterate_succ_apply']
      exact hPf _ ih
  refine ⟨fun n => f^[n] ref, rfl, fun n => ?_⟩
  show r.Continues (f^[n] ref) (f^[n + 1] ref)
  rw [Function.iterate_succ_apply']
  exact hf _ (hiter n)

/-- A way into a circle of the rule never ends. -/
theorem neverEnds_of_circle {a : String} (hway : ReflTransGen r.Continues ref a)
    (hcircle : TransGen r.Continues a a) : r.NeverEnds ref := by
  refine neverEnds_of_invariant (fun b => ReflTransGen r.Continues b a) ?_ hway
  intro b hb
  rcases hb.cases_head with rfl | ⟨c, hstep, hrest⟩
  · obtain ⟨c, hstep, hrest⟩ := TransGen.head'_iff.1 hcircle
    exact ⟨c, hstep, hrest⟩
  · exact ⟨c, hstep, hrest⟩

/-! ### The walk, turn by turn -/

/-- Where a walk stands: where it began, the typedefs met, what it went through, where it is. -/
structure Walk where
  start : String
  met : List String := []
  chain : List String := [start]
  current : String := start

/-- One turn of a walk: it goes on, or has its answer. -/
def turn (r : Registry) (w : Walk) : Walk ⊕ Except TypedefCycle String :=
  match r.denoted? w.current with
  | none => .inr (.ok (r.settled w.current))
  | some (name, underlying) =>
    if name ∈ w.met then .inr (.error ⟨w.start, w.chain ++ [name]⟩)
    else .inl ⟨w.start, name :: w.met, w.chain ++ [underlying], underlying⟩

/-- The answer of a walk, if it has one within so many turns. -/
def answerWithin (r : Registry) : ℕ → Walk → Option (Except TypedefCycle String)
  | 0, _ => none
  | n + 1, w =>
    match r.turn w with
    | .inl w => r.answerWithin n w
    | .inr answer => some answer

/-- Resolution takes one turn after another. -/
theorem walk_eq_turn (r : Registry) (w : Walk) :
    r.walk w.start w.met w.chain w.current =
      match r.turn w with
      | .inl w => r.walk w.start w.met w.chain w.current
      | .inr answer => answer := by
  rw [walk]
  split
  · next hd => simp only [turn, hd]
  · next name underlying hd =>
    simp only [turn, hd]
    split <;> rfl

theorem turn_eq_inl {w w' : Walk} (h : r.turn w = .inl w') :
    ∃ name, r.denoted? w.current = some (name, w'.current) ∧ name ∉ w.met ∧
      w'.met = name :: w.met := by
  simp only [turn] at h
  split at h
  · cases h
  · split at h
    · cases h
    · cases h; exact ⟨_, ‹_›, ‹_›, rfl⟩

/-- A turn that goes on leaves fewer typedefs to meet. -/
theorem length_unmet_turn {w w' : Walk} (h : r.turn w = .inl w') :
    (r.unmet w'.met).length < (r.unmet w.met).length := by
  obtain ⟨name, hd, hn, hmet⟩ := turn_eq_inl h
  rw [hmet]
  exact length_filter_notMem_lt (mem_keys_of_denoted? hd) hn

theorem answerWithin_eq_walk {n : ℕ} {w : Walk} (h : (r.unmet w.met).length < n) :
    r.answerWithin n w = some (r.walk w.start w.met w.chain w.current) := by
  induction n generalizing w with
  | zero => omega
  | succ n ih =>
    rw [walk_eq_turn, answerWithin]
    cases hw : r.turn w with
    | inl w' =>
      have := length_unmet_turn hw
      exact ih (by omega)
    | inr answer => rfl

/-- A walk has its answer within one turn more than there are typedefs. -/
theorem answerWithin_resolve? (r : Registry) (ref : String) :
    r.answerWithin (r.typedefs.length + 1) { start := ref } = some (r.resolve? ref) := by
  have hunmet : (r.unmet []).length ≤ r.typedefs.keys.length := List.length_filter_le _ _
  rw [Table.keys, List.length_map] at hunmet
  exact answerWithin_eq_walk (Nat.lt_succ_of_le hunmet)

/-! ### The walk against the rule -/

theorem resolvesTo_of_walk {start current : String} {met chain : List String}
    (h : r.walk start met chain current = .ok name) : r.ResolvesTo current name := by
  fun_induction Registry.walk r start met chain current with
  | case1 met chain current hd =>
    cases h
    exact (stops_iff.2 ⟨hd, rfl⟩).resolvesTo
  | case2 => cases h
  | case3 met chain current n u hd hn ih =>
    exact (continues_iff.2 ⟨n, hd⟩).resolvesTo_iff.2 (ih h)

/-- What a walk keeps of the typedefs it has met: each of them leads to where the walk is. -/
def MetLeadTo (r : Registry) (met : List String) (current : String) : Prop :=
  ∀ name ∈ met, ∃ underlying, r.typedefs.get? name = some underlying ∧
    ReflTransGen r.Continues underlying current

theorem MetLeadTo.cons {met : List String} {current : String} (hmet : r.MetLeadTo met current)
    (hd : r.denoted? current = some (name, next)) : r.MetLeadTo (name :: met) next := by
  intro a ha
  rcases List.mem_cons.1 ha with rfl | ha
  · exact ⟨next, get?_of_denoted? hd, .refl⟩
  · obtain ⟨underlying, hu, hway⟩ := hmet a ha
    exact ⟨underlying, hu, hway.tail (continues_iff.2 ⟨name, hd⟩)⟩

theorem neverEnds_of_walk {start current : String} {met chain : List String} {cycle : TypedefCycle}
    (hmet : r.MetLeadTo met current) (h : r.walk start met chain current = .error cycle) :
    r.NeverEnds current := by
  have hcircle : ∃ a, ReflTransGen r.Continues current a ∧ TransGen r.Continues a a := by
    fun_induction Registry.walk r start met chain current with
    | case1 => cases h
    | case2 met chain current n u hd hn =>
      -- The typedef met again stands for what led here, and here goes on as what it stands for.
      obtain ⟨u', hu', hway⟩ := hmet n hn
      obtain rfl : u = u' := Option.some.inj ((get?_of_denoted? hd).symm.trans hu')
      exact ⟨current, .refl, TransGen.head' (continues_iff.2 ⟨n, hd⟩) hway⟩
    | case3 met chain current n u hd hn ih =>
      obtain ⟨a, hway, hcircle⟩ := ih (hmet.cons hd) h
      exact ⟨a, .head (continues_iff.2 ⟨n, hd⟩) hway, hcircle⟩
  obtain ⟨a, hway, hcircle⟩ := hcircle
  exact neverEnds_of_circle hway hcircle

theorem resolvesTo_of_resolve? (h : r.resolve? ref = .ok name) : r.ResolvesTo ref name :=
  resolvesTo_of_walk h

theorem neverEnds_of_resolve? {cycle : TypedefCycle} (h : r.resolve? ref = .error cycle) :
    r.NeverEnds ref :=
  neverEnds_of_walk (by intro a ha; cases ha) h

theorem ResolvesTo.unique {name' : String} (h : r.ResolvesTo ref name)
    (h' : r.ResolvesTo ref name') : name = name' := by
  obtain ⟨last, hchain, hstop⟩ := h
  induction hchain using ReflTransGen.head_induction_on with
  | refl => exact hstop.eq_of_resolvesTo h'
  | head hstep _ ih => exact ih (hstep.resolvesTo_iff.1 h')

theorem resolve?_eq_ok_iff : r.resolve? ref = .ok name ↔ r.ResolvesTo ref name := by
  refine ⟨resolvesTo_of_resolve?, fun h => ?_⟩
  cases hr : r.resolve? ref with
  | ok name' => rw [(resolvesTo_of_resolve? hr).unique h]
  | error cycle => exact absurd h (neverEnds_of_resolve? hr).not_resolvesTo

theorem resolve?_eq_error_iff : (∃ cycle, r.resolve? ref = .error cycle) ↔ r.NeverEnds ref := by
  refine ⟨fun ⟨_, h⟩ => neverEnds_of_resolve? h, fun h => ?_⟩
  cases hr : r.resolve? ref with
  | ok name => exact absurd (resolvesTo_of_resolve? hr) h.not_resolvesTo
  | error cycle => exact ⟨cycle, rfl⟩

/-- Resolution has its answer within one turn more than there are typedefs, and it is the rule's: a
name where the rule ends, with the same name, and a cycle where it never does. So a typedef resolves
as what it stands for does. -/
theorem resolve?_follows_rule (r : Registry) (ref : String) :
    r.answerWithin (r.typedefs.length + 1) { start := ref } = some (r.resolve? ref) ∧
    (∀ name, r.resolve? ref = .ok name ↔ r.ResolvesTo ref name) ∧
    ((∃ cycle, r.resolve? ref = .error cycle) ↔ r.NeverEnds ref) ∧
    ∀ underlying, r.typedefs.get? ref = some underlying →
      (∃ name, r.resolve? ref = .ok name ∧ r.resolve? underlying = .ok name) ∨
      (∃ cycle cycle', r.resolve? ref = .error cycle ∧ r.resolve? underlying = .error cycle') := by
  refine ⟨r.answerWithin_resolve? ref, fun name => resolve?_eq_ok_iff, resolve?_eq_error_iff,
    fun underlying hu => ?_⟩
  have hstep : r.Continues ref underlying := .typedef hu
  cases hr : r.resolve? ref with
  | ok name =>
    have hname : r.ResolvesTo underlying name := hstep.resolvesTo_iff.1 (resolve?_eq_ok_iff.1 hr)
    exact .inl ⟨name, rfl, resolve?_eq_ok_iff.2 hname⟩
  | error cycle =>
    cases hr' : r.resolve? underlying with
    | ok name =>
      have hname : r.ResolvesTo ref name := hstep.resolvesTo_iff.2 (resolve?_eq_ok_iff.1 hr')
      exact absurd hname (neverEnds_of_resolve? hr).not_resolvesTo
    | error cycle' => exact .inr ⟨cycle, cycle', rfl, rfl⟩

end TypeCorpus.Registry
