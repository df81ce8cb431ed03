import TypeCorpus.Kind
import TypeCorpus.Proofs.Registry.Circle
import TypeCorpus.Proofs.Registry.History
import TypeCorpus.Proofs.Sample.Expansion

/-! Canonical names. Where short names stand for names that have them, the name that a reference
resolves to stands for itself: resolving it again changes nothing, and looking a reference up in a
table is reading the entry of its name; asking for the full name of its short name as well adds
nothing. So its kind, and whether it has a sample at once, are read off the tables there. The
canonical names are the answers of resolution, and resolving what a reference resolves to, or was
stopped at, changes nothing. -/

namespace TypeCorpus.Registry

variable {r : Registry} {ref name : String}

/-- A name on which a reference stops is one that stops on itself. -/
theorem Stops.self (hr : r.Coherent) (h : r.Stops ref name) : r.Stops name name := by
  cases h with
  | shortName hn hs h =>
    have hshort : Name.short name = Name.short ref := hr.short_of_bound hs
    exact .shortName h (hshort ▸ hs) h
  | itself hn hs => exact .itself hn hs

theorem stops_self_of_resolve? (hr : r.Coherent) (h : r.resolve? ref = .ok name) :
    r.Stops name name := by
  obtain ⟨last, -, hstop⟩ := resolve?_eq_ok_iff.1 h
  exact hstop.self hr

theorem resolve?_self (hr : r.Coherent) (h : r.resolve? ref = .ok name) :
    r.resolve? name = .ok name :=
  resolve?_eq_ok_iff.2 (stops_self_of_resolve? hr h).resolvesTo

/-- Where a table has nothing under the name that a reference resolves to, it has nothing under the
full name of that name's short name. -/
theorem get?_fullName?_eq_none {α : Type} (hr : r.Coherent) {table : Table String α}
    (h : r.resolve? ref = .ok name) (hname : table.get? name = none) :
    (r.fullName? (Name.short name)).bind table.get? = none := by
  cases stops_self_of_resolve? hr h with
  | shortName _ hs _ => rw [hs, Option.bind_some, hname]
  | itself _ hs => rw [hs, Option.bind_none]

/-- The full name of its short name has nothing to add to a canonical name. -/
theorem lookup?_eq_get? {α : Type} (hr : r.Coherent) (table : Table String α)
    (h : r.resolve? ref = .ok name) : r.lookup? table ref = table.get? name := by
  simp only [lookup?, h]
  cases hname : table.get? name with
  | some a => rfl
  | none => exact get?_fullName?_eq_none hr h hname

theorem lookup?_of_error {α : Type} (table : Table String α) {cycle : TypedefCycle}
    (h : r.resolve? ref = .error cycle) : r.lookup? table ref = none := by
  simp only [lookup?, h]

/-- The kind of a reference, read off the tables at the name it resolves to. -/
theorem kind_eq (hr : r.Coherent) (h : r.resolve? ref = .ok name) :
    r.kind ref name =
      match r.structs.get? name, r.enums.get? name with
      | some decl, _ => .struct decl.members.length
      | none, some enumerators => .enum enumerators.length
      | none, none => if (Primitive.ofName? name).isSome then .primitive else .unknown := by
  simp only [kind, struct?, enum?, lookup?_eq_get? hr _ h]
  cases r.structs.get? name <;> cases r.enums.get? name <;> rfl

/-- What becomes of a reference, read off the tables at the name it resolves to. -/
theorem outcome_eq (hr : r.Coherent) (h : r.resolve? ref = .ok name) (expanding : List String) :
    r.outcome expanding ref =
      match r.enums.get? name, r.structs.get? name with
      | some enumerators, _ => .settled (.ofEnumerators enumerators) []
      | none, some decl =>
        if decl.name ∈ expanding then .settled (.recursiveType ref) [] else .expand decl
      | none, none =>
        match Primitive.ofName? name with
        | some p => .settled p.sample []
        | none => .settled (.unknownType ref) [] := by
  have hself : r.resolve? name = .ok name := resolve?_self hr h
  have henum : r.enum? name = r.enums.get? name := lookup?_eq_get? hr _ hself
  have hstruct : r.struct? name = r.structs.get? name := lookup?_eq_get? hr _ hself
  rw [outcome, h, ← henum, ← hstruct]
  simp only
  cases r.enum? name <;> cases r.struct? name <;> rfl

/-! ### The names that resolution settles on -/

/-- A name that is no typedef's, and that its short name stands for if it stands for anything. -/
structure Canonical (r : Registry) (name : String) : Prop where
  not_typedef : name ∉ r.typedefs.keys
  own_short : r.fullName? (Name.short name) = none ∨ r.fullName? (Name.short name) = some name

theorem stops_self_iff : r.Stops name name ↔ r.Canonical name := by
  have htypedef : name ∉ r.typedefs.keys ↔ r.typedefs.get? name = none := by
    rw [Table.mem_keys_iff, Option.not_isSome_iff_eq_none]
  constructor
  · intro h
    cases h with
    | shortName hn hs _ => exact ⟨htypedef.2 hn, .inr hs⟩
    | itself hn hs => exact ⟨htypedef.2 hn, .inl hs⟩
  · rintro ⟨hn, hs | hs⟩
    · exact .itself (htypedef.1 hn) hs
    · exact .shortName (htypedef.1 hn) hs (htypedef.1 hn)

theorem canonical_of_resolve? (hr : r.Coherent) (h : r.resolve? ref = .ok name) :
    r.Canonical name :=
  stops_self_iff.1 (stops_self_of_resolve? hr h)

/-- Every canonical name is an answer, its own. -/
theorem Canonical.resolve?_self (h : r.Canonical name) : r.resolve? name = .ok name :=
  resolve?_eq_ok_iff.2 (stops_self_iff.2 h).resolvesTo

theorem exists_resolve?_iff (hr : r.Coherent) :
    (∃ ref, r.resolve? ref = .ok name) ↔ r.Canonical name :=
  ⟨fun ⟨_, h⟩ => canonical_of_resolve? hr h, fun h => ⟨name, h.resolve?_self⟩⟩

/-- Where its short name is bound, a canonical name is the one it stands for. -/
theorem canonical_iff_of_registered (hr : r.Coherent) (h : r.Registered name) :
    r.Canonical name ↔
      name ∉ r.typedefs.keys ∧ r.fullName? (Name.short name) = some name := by
  obtain ⟨full, hfull⟩ := hr.bound_of_registered h
  refine ⟨fun hc => ⟨hc.not_typedef, hc.own_short.resolve_left ?_⟩, fun hc => ⟨hc.1, .inr hc.2⟩⟩
  rw [hfull]
  exact Option.some_ne_none full

/-- What a reference resolves to, or was stopped at, resolves to itself. -/
theorem resolve_resolve (hr : r.Coherent) (ref : String) :
    (r.resolve (r.resolve ref).value).value = (r.resolve ref).value := by
  cases h : r.resolve? ref with
  | ok name =>
    have hvalue : (r.resolve ref).value = name := by
      simp only [resolve, h, Traced.value_pure]
    rw [hvalue]
    simp only [resolve, resolve?_self hr h, Traced.value_pure]
  | error cycle =>
    have hvalue : (r.resolve ref).value = cycle.point := by simp only [resolve, h]
    obtain ⟨cycle', h', hpoint⟩ := resolve?_point h
    rw [hvalue]
    simp only [resolve, h', hpoint]

/-- After any run of operations resolution answers with canonical names, and with all of them; an
answer resolves to itself. The name of an enumeration or of a structure is an answer exactly if it
is no typedef's and was registered last of all names with its short name. Resolving twice comes to
the same name as resolving once, on a cycle too. -/
theorem resolution_canonical (ops : List Operation) :
    let r := run ops
    (∀ ref name, r.resolve? ref = .ok name → r.resolve? name = .ok name ∧ r.Canonical name) ∧
    (∀ name, r.Canonical name → ∃ ref, r.resolve? ref = .ok name) ∧
    (∀ name, name ∈ r.enums.keys ∨ name ∈ r.structs.keys →
      ((∃ ref, r.resolve? ref = .ok name) ↔ name ∉ r.typedefs.keys ∧
        ((history ops).reverse.find? fun g => Name.short g.name = Name.short name).map
          Registration.name = some name)) ∧
    ∀ ref, (r.resolve (r.resolve ref).value).value = (r.resolve ref).value := by
  intro r
  have hr : r.Coherent := Reachable.coherent ⟨ops, rfl⟩
  refine ⟨fun ref name h => ⟨resolve?_self hr h, canonical_of_resolve? hr h⟩,
    fun name h => ⟨name, h.resolve?_self⟩, fun name h => ?_, resolve_resolve hr⟩
  rw [exists_resolve?_iff hr, canonical_iff_of_registered hr (.inr h), fullName?_run]

/-- After any run of operations a look-up finds what stands under the name that its reference
resolves to, and nothing on a cycle. The full name of that name's short name is asked for only in
vain, and the name itself is looked up with the same result as the reference. -/
theorem lookups_at_resolved_name (ops : List Operation) (ref : String) :
    let r := run ops
    (∀ cycle, r.resolve? ref = .error cycle → r.enum? ref = none ∧ r.struct? ref = none) ∧
    ∀ name, r.resolve? ref = .ok name →
      (r.enum? ref = r.enums.get? name ∧ r.enum? name = r.enum? ref) ∧
      (r.struct? ref = r.structs.get? name ∧ r.struct? name = r.struct? ref) ∧
      (r.enums.get? name = none → (r.fullName? (Name.short name)).bind r.enums.get? = none) ∧
      (r.structs.get? name = none →
        (r.fullName? (Name.short name)).bind r.structs.get? = none) := by
  intro r
  have hr : r.Coherent := Reachable.coherent ⟨ops, rfl⟩
  refine ⟨fun cycle h => ⟨lookup?_of_error _ h, lookup?_of_error _ h⟩, fun name h => ?_⟩
  have hself : r.resolve? name = .ok name := resolve?_self hr h
  have henum : r.enum? ref = r.enums.get? name := lookup?_eq_get? hr _ h
  have henumSelf : r.enum? name = r.enums.get? name := lookup?_eq_get? hr _ hself
  have hstruct : r.struct? ref = r.structs.get? name := lookup?_eq_get? hr _ h
  have hstructSelf : r.struct? name = r.structs.get? name := lookup?_eq_get? hr _ hself
  exact ⟨⟨henum, henumSelf.trans henum.symm⟩, ⟨hstruct, hstructSelf.trans hstruct.symm⟩,
    get?_fullName?_eq_none hr h, get?_fullName?_eq_none hr h⟩

end TypeCorpus.Registry
