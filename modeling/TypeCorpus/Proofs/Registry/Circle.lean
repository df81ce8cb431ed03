import Mathlib.Data.List.Forall2
import Mathlib.Data.List.Perm.Subperm
import TypeCorpus.Proofs.Registry.Walk

/-! The circle that a walk reports. A walk passes typedefs, each with what it stands for, and fails
exactly where it comes to one of them again; what it has passed since then is a way from that
typedef back to itself. So a walk that begins at the reported typedef takes this way at once, and
reports it again. The report names what each typedef stood for and the typedef that was met twice,
and the typedefs themselves can be found again from it. -/

namespace TypeCorpus.Registry

variable {r : Registry} {ref last start name : String} {met chain : List String}
  {cycle : TypedefCycle}

/-- On from a reference, some typedefs are passed, each with what it stands for, up to `last`. -/
def Passes (r : Registry) : String → List (String × String) → String → Prop
  | ref, [], last => ref = last
  | ref, (name, underlying) :: passed, last =>
    r.denoted? ref = some (name, underlying) ∧ r.Passes underlying passed last

theorem passes_append {passed passed' : List (String × String)} :
    r.Passes ref (passed ++ passed') last ↔
      ∃ mid, r.Passes ref passed mid ∧ r.Passes mid passed' last := by
  induction passed generalizing ref with
  | nil => simp [Passes]
  | cons p passed ih => simp only [List.cons_append, Passes, ih, exists_and_left, and_assoc]

/-- A way that closes: it passes typedefs without repetition, none of them met before, and then one
that is met already. -/
structure Closes (r : Registry) (met : List String) (ref : String) (passed : List (String × String))
    (name : String) : Prop where
  way : ∃ next, r.Passes ref (passed ++ [(name, next)]) next
  nodup : (passed.map Prod.fst).Nodup
  fresh : ∀ n ∈ passed.map Prod.fst, n ∉ met
  again : name ∈ passed.map Prod.fst ++ met

theorem closes_nil_iff :
    r.Closes met ref [] name ↔ (∃ next, r.denoted? ref = some (name, next)) ∧ name ∈ met := by
  constructor
  · rintro ⟨⟨next, hway⟩, -, -, hagain⟩
    exact ⟨⟨next, hway.1⟩, hagain⟩
  · rintro ⟨⟨next, hd⟩, hmet⟩
    exact ⟨⟨next, hd, rfl⟩, List.nodup_nil, fun n hn => absurd hn List.not_mem_nil, hmet⟩

/-- The first typedef of a way that closes counts as met for the rest of it. -/
theorem closes_cons_iff {n u : String} {passed : List (String × String)} :
    r.Closes met ref ((n, u) :: passed) name ↔
      r.denoted? ref = some (n, u) ∧ n ∉ met ∧ r.Closes (n :: met) u passed name := by
  have hmem : name ∈ passed.map Prod.fst ++ n :: met ↔ name ∈ n :: (passed.map Prod.fst ++ met) :=
    List.perm_middle.mem_iff
  constructor
  · rintro ⟨⟨next, hd, hway⟩, hnodup, hfresh, hagain⟩
    rw [List.map_cons, List.nodup_cons] at hnodup
    refine ⟨hd, hfresh n List.mem_cons_self, ⟨next, hway⟩, hnodup.2, fun n' hn' => ?_,
      hmem.2 hagain⟩
    rintro (_ | ⟨_, hmet⟩)
    · exact hnodup.1 hn'
    · exact hfresh n' (List.mem_cons_of_mem _ hn') hmet
  · rintro ⟨hd, hn, ⟨next, hway⟩, hnodup, hfresh, hagain⟩
    refine ⟨⟨next, hd, hway⟩, ?_, fun n' hn' => ?_, hmem.1 hagain⟩
    · rw [List.map_cons, List.nodup_cons]
      exact ⟨fun hmem => hfresh n hmem List.mem_cons_self, hnodup⟩
    · rcases List.mem_cons.1 hn' with rfl | hn'
      · exact hn
      · exact fun hmet => hfresh n' hn' (List.mem_cons_of_mem _ hmet)

/-! A way that closes takes the turns that a walk takes. -/

theorem not_closes (hd : r.denoted? ref = none) {passed : List (String × String)} :
    ¬ r.Closes met ref passed name := by
  intro h
  cases passed with
  | nil =>
    obtain ⟨⟨next, hd'⟩, -⟩ := closes_nil_iff.1 h
    cases hd.symm.trans hd'
  | cons p passed => cases hd.symm.trans (closes_cons_iff.1 h).1

theorem closes_iff_of_mem {n u : String} (hd : r.denoted? ref = some (n, u)) (hn : n ∈ met)
    {passed : List (String × String)} :
    r.Closes met ref passed name ↔ passed = [] ∧ name = n := by
  constructor
  · intro h
    cases passed with
    | nil =>
      obtain ⟨⟨next, hd'⟩, -⟩ := closes_nil_iff.1 h
      cases hd.symm.trans hd'
      exact ⟨rfl, rfl⟩
    | cons p passed =>
      obtain ⟨hd', hn', -⟩ := closes_cons_iff.1 h
      cases hd.symm.trans hd'
      exact absurd hn hn'
  · rintro ⟨rfl, rfl⟩
    exact closes_nil_iff.2 ⟨⟨u, hd⟩, hn⟩

theorem closes_iff_of_notMem {n u : String} (hd : r.denoted? ref = some (n, u)) (hn : n ∉ met)
    {passed : List (String × String)} :
    r.Closes met ref passed name ↔
      ∃ rest, passed = (n, u) :: rest ∧ r.Closes (n :: met) u rest name := by
  constructor
  · intro h
    cases passed with
    | nil =>
      obtain ⟨⟨next, hd'⟩, hmet⟩ := closes_nil_iff.1 h
      cases hd.symm.trans hd'
      exact absurd hmet hn
    | cons p rest =>
      obtain ⟨hd', -, hrest⟩ := closes_cons_iff.1 h
      cases hd.symm.trans hd'
      exact ⟨rest, rfl, hrest⟩
  · rintro ⟨rest, rfl, hrest⟩
    exact closes_cons_iff.2 ⟨hd, hn, hrest⟩

/-- A walk fails exactly along a way that closes, and reports what it went through. -/
theorem walk_eq_error_iff :
    r.walk start met chain ref = .error cycle ↔
      ∃ passed name, r.Closes met ref passed name ∧
        cycle = ⟨start, chain ++ passed.map Prod.snd ++ [name]⟩ := by
  fun_induction Registry.walk r start met chain ref with
  | case1 met chain ref hd => simp [not_closes hd]
  | case2 met chain ref n u hd hn =>
    simp only [closes_iff_of_mem hd hn, Except.error.injEq]
    constructor
    · rintro rfl
      exact ⟨[], n, ⟨rfl, rfl⟩, by simp⟩
    · rintro ⟨_, _, ⟨rfl, rfl⟩, rfl⟩
      simp
  | case3 met chain ref n u hd hn ih =>
    rw [ih]
    simp only [closes_iff_of_notMem hd hn]
    constructor
    · rintro ⟨rest, name, hclose, rfl⟩
      exact ⟨(n, u) :: rest, name, ⟨rest, rfl, hclose⟩, by simp⟩
    · rintro ⟨_, name, ⟨rest, rfl, hclose⟩, rfl⟩
      exact ⟨rest, name, hclose, by simp⟩

theorem resolve?_eq_error_iff_closes :
    r.resolve? ref = .error cycle ↔
      ∃ passed name, r.Closes [] ref passed name ∧
        cycle = ⟨ref, ref :: passed.map Prod.snd ++ [name]⟩ :=
  walk_eq_error_iff

/-- A typedef denotes itself. -/
theorem denoted?_typedef {underlying : String} (h : r.typedefs.get? name = some underlying) :
    r.denoted? name = some (name, underlying) := by
  simp only [denoted?, h]

/-- From the typedef that is met again, the rest of the way closes on that typedef. -/
theorem Closes.from_again {passed : List (String × String)} (h : r.Closes [] ref passed name) :
    ∃ passed', passed' <:+ passed ∧ r.Closes [] name passed' name := by
  obtain ⟨⟨next, hway⟩, hnodup, -, hagain⟩ := h
  rw [List.append_nil] at hagain
  obtain ⟨⟨name, underlying⟩, hmem, rfl⟩ := List.mem_map.1 hagain
  obtain ⟨before, after, rfl⟩ := List.append_of_mem hmem
  rw [List.append_assoc, passes_append] at hway
  obtain ⟨mid, -, hd, hrest⟩ := hway
  rw [List.map_append] at hnodup
  exact ⟨(name, underlying) :: after, ⟨before, rfl⟩,
    ⟨next, denoted?_typedef (get?_of_denoted? hd), hrest⟩, (List.nodup_append.1 hnodup).2.1,
    fun n _ => List.not_mem_nil, by simp⟩

theorem point_concat (start : String) (l : List String) (name : String) :
    (⟨start, l ++ [name]⟩ : TypedefCycle).point = name := by
  simp [TypedefCycle.point]

/-- Resolution of the typedef that a cycle was reported at comes back to it. -/
theorem resolve?_point (h : r.resolve? ref = .error cycle) :
    ∃ cycle', r.resolve? cycle.point = .error cycle' ∧ cycle'.point = cycle.point := by
  obtain ⟨passed, name, hclose, rfl⟩ := resolve?_eq_error_iff_closes.1 h
  obtain ⟨passed', -, hclose'⟩ := hclose.from_again
  rw [point_concat]
  exact ⟨_, resolve?_eq_error_iff_closes.2 ⟨passed', name, hclose', rfl⟩, point_concat _ _ _⟩

/-! ### What a report tells -/

/-- A reference denotes the typedef of its name, or else the typedef that its short name stands
for. -/
inductive Denotes (r : Registry) : String → String → Prop where
  | itself {name : String} (h : name ∈ r.typedefs.keys) : Denotes r name name
  | shortName {ref full : String} (hn : ref ∉ r.typedefs.keys)
      (hs : r.fullName? (Name.short ref) = some full) (h : full ∈ r.typedefs.keys) :
      Denotes r ref full

/-- From a reference some typedefs follow, each denoted by the reference before it and standing for
the reference behind it, up to one that the last reference denotes. -/
structure LeadsTo (r : Registry) (ref : String) (passed : List (String × String)) (name : String) :
    Prop where
  standsFor : ∀ p ∈ passed, r.typedefs.get? p.1 = some p.2
  denotes : List.Forall₂ r.Denotes (ref :: passed.map Prod.snd) (passed.map Prod.fst ++ [name])

theorem denotes_of_denoted? {underlying : String} (h : r.denoted? ref = some (name, underlying)) :
    r.Denotes ref name := by
  have hname : name ∈ r.typedefs.keys := mem_keys_of_denoted? h
  cases hn : r.typedefs.get? ref with
  | some u =>
    rw [denoted?_typedef hn] at h
    cases h
    exact .itself hname
  | none =>
    have hnot : ref ∉ r.typedefs.keys := by
      rw [Table.mem_keys_iff, hn]
      exact nofun
    simp only [denoted?, hn] at h
    split at h
    · rename_i full hs
      obtain ⟨u, -, he⟩ := Option.map_eq_some_iff.1 h
      cases he
      exact .shortName hnot hs hname
    · cases h

theorem leadsTo_of_passes {next : String} {passed : List (String × String)}
    (h : r.Passes ref (passed ++ [(name, next)]) next) : r.LeadsTo ref passed name := by
  induction passed generalizing ref with
  | nil => exact ⟨nofun, .cons (denotes_of_denoted? h.1) .nil⟩
  | cons p passed ih =>
    obtain ⟨hd, hrest⟩ := h
    obtain ⟨hstands, hdenotes⟩ := ih hrest
    exact ⟨List.forall_mem_cons.2 ⟨get?_of_denoted? hd, hstands⟩,
      .cons (denotes_of_denoted? hd) hdenotes⟩

theorem LeadsTo.fst_subset {passed : List (String × String)} (h : r.LeadsTo ref passed name) :
    passed.map Prod.fst ⊆ r.typedefs.keys := by
  intro n hn
  obtain ⟨p, hp, rfl⟩ := List.mem_map.1 hn
  rw [Table.mem_keys_iff, h.standsFor p hp]
  rfl

/-- The report of a walk: the reference that it began with, the references that it went through, one
behind each of some pairwise different typedefs, and then one of these typedefs again. -/
structure Tells (r : Registry) (ref : String) (passed : List (String × String))
    (cycle : TypedefCycle) : Prop where
  start_eq : cycle.start = ref
  chain_eq : cycle.chain = ref :: passed.map Prod.snd ++ [cycle.point]
  leadsTo : r.LeadsTo ref passed cycle.point
  nodup : (passed.map Prod.fst).Nodup
  again : cycle.point ∈ passed.map Prod.fst

theorem Tells.length_le {passed : List (String × String)} (h : r.Tells ref passed cycle) :
    passed.length ≤ r.typedefs.length := by
  have hle := (h.nodup.subperm h.leadsTo.fst_subset).length_le
  rwa [List.length_map, Table.keys, List.length_map] at hle

theorem Closes.tells {passed : List (String × String)} (h : r.Closes [] ref passed name) :
    r.Tells ref passed ⟨ref, ref :: passed.map Prod.snd ++ [name]⟩ := by
  obtain ⟨⟨next, hway⟩, hnodup, -, hagain⟩ := h
  rw [List.append_nil] at hagain
  refine ⟨rfl, ?_, ?_, hnodup, ?_⟩ <;> rw [point_concat]
  · exact leadsTo_of_passes hway
  · exact hagain

/-- A cycle that is reported is there. The report names the references that the walk went through,
one behind each typedef that it passed, and in the end the typedef that it came to again; from that
typedef the last of those that it passed lead back to it, so resolving it reports it again. -/
theorem reported_cycle (h : r.resolve? ref = .error cycle) :
    ∃ passed, r.Tells ref passed cycle ∧ 1 ≤ passed.length ∧ passed.length ≤ r.typedefs.length ∧
      cycle.point ∈ r.typedefs.keys ∧
      (∃ back, back ≠ [] ∧ back <:+ passed ∧ r.LeadsTo cycle.point back cycle.point) ∧
      ∃ cycle', r.resolve? cycle.point = .error cycle' ∧ cycle'.point = cycle.point := by
  have hagain := resolve?_point h
  obtain ⟨passed, name, hclose, rfl⟩ := resolve?_eq_error_iff_closes.1 h
  obtain ⟨back, hback, hclose'⟩ := hclose.from_again
  have htells := hclose.tells
  have hback_ne : back ≠ [] := by
    rintro rfl
    exact List.not_mem_nil hclose'.again
  refine ⟨passed, htells, ?_, htells.length_le, htells.leadsTo.fst_subset htells.again,
    ⟨back, hback_ne, hback, ?_⟩, hagain⟩
  · rw [Nat.one_le_iff_ne_zero, Ne, List.length_eq_zero_iff]
    rintro rfl
    exact List.not_mem_nil htells.again
  · obtain ⟨next, hway⟩ := hclose'.way
    rw [point_concat]
    exact leadsTo_of_passes hway

/-- Typedefs that lead into a circle of two others, each time over a short name. -/
def leadIn : Registry := .ofDeclarations <|
  [("P::Lead", "Q::A"), ("P::A", "B"), ("P::B", "Other::A")].map fun d => .typedef d.1 d.2

theorem resolve?_leadIn : leadIn.resolve? "M::Lead" =
    .error ⟨"M::Lead", ["M::Lead", "Q::A", "B", "Other::A", "P::A"]⟩ := by
  have hway : leadIn.Passes "M::Lead"
      [("P::Lead", "Q::A"), ("P::A", "B"), ("P::B", "Other::A"), ("P::A", "B")] "B" :=
    ⟨by decide, by decide, by decide, by decide, rfl⟩
  exact resolve?_eq_error_iff_closes.2 ⟨[("P::Lead", "Q::A"), ("P::A", "B"), ("P::B", "Other::A")],
    "P::A", ⟨⟨"B", hway⟩, by decide, fun n _ => List.not_mem_nil, by decide⟩, rfl⟩

/-- The report goes through the typedef that leads into the circle as well; resolving the typedef
that it ends on reports that typedef again. -/
theorem reported_cycle_behind_lead :
    ∃ cycle, leadIn.resolve? "M::Lead" = .error cycle ∧ cycle.point = "P::A" ∧
      ∃ passed, leadIn.Tells "M::Lead" passed cycle ∧ passed.length ≤ 3 ∧
        ∃ cycle', leadIn.resolve? "P::A" = .error cycle' ∧ cycle'.point = "P::A" := by
  obtain ⟨passed, htells, -, hlength, -, -, hagain⟩ := reported_cycle resolve?_leadIn
  exact ⟨_, resolve?_leadIn, rfl, passed, htells, hlength, hagain⟩

end TypeCorpus.Registry
