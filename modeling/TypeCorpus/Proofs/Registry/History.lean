import TypeCorpus.Proofs.Table
import TypeCorpus.Registry.Basic

/-! The history of a registry. Every way of filling a registry comes down to registrations one after
another, and the registry that an operation collects anew begins a new history. After any run of
operations each table holds what was registered last under each name, a short name stands for the
name registered last with it, and the table of short names fits the other three: this is what
`Coherent` says, and one registration keeps it. Where only declarations were registered, every
structure stands under its own name. -/

namespace TypeCorpus

namespace Registration

def typedef? : Registration → Option (String × String)
  | typedef name underlying => some (name, underlying)
  | _ => none

def enum? : Registration → Option (String × List String)
  | enum name enumerators => some (name, enumerators)
  | _ => none

def struct? : Registration → Option (String × StructDecl)
  | struct name decl => some (name, decl)
  | _ => none

end Registration

namespace Registry

/-- The ways of filling a registry. -/
inductive Operation where
  | typedef (name underlying : String)
  | enum (name : String) (enumerators : List String)
  | struct (name : String) (decl : StructDecl)
  | register (d : Declaration)
  | extend (ds : List Declaration)
  | collect (ds : List Declaration)

/-- `collect` puts a registry of its own in place of the one there was; the others add to it. -/
def Operation.run : Operation → Registry → Registry
  | typedef name underlying, r => r.enter (.typedef name underlying)
  | enum name enumerators, r => r.enter (.enum name enumerators)
  | struct name decl, r => r.enter (.struct name decl)
  | register d, r => r.register d
  | extend ds, r => r.registerAll ds
  | collect ds, _ => ofDeclarations ds

/-- The registry after some operations, the first of which finds it empty. -/
def run (ops : List Operation) : Registry := ops.foldl (fun r op => op.run r) empty

/-- A registry that some operations lead to. -/
def Reachable (r : Registry) : Prop := ∃ ops, r = run ops

/-- The registrations that a registry consists of, after one more operation. -/
def Operation.record : Operation → List Registration → List Registration
  | typedef name underlying, gs => gs ++ [.typedef name underlying]
  | enum name enumerators, gs => gs ++ [.enum name enumerators]
  | struct name decl, gs => gs ++ [.struct name decl]
  | register d, gs => gs ++ [d.registration]
  | extend ds, gs => gs ++ ds.map Declaration.registration
  | collect ds, _ => ds.map Declaration.registration

/-- The registrations that the registry after some operations consists of, oldest first. -/
def history (ops : List Operation) : List Registration :=
  ops.foldl (fun gs op => op.record gs) []

/-- Some declaration of any kind was registered under the name. -/
def Registered (r : Registry) (name : String) : Prop :=
  name ∈ r.typedefs.keys ∨ name ∈ r.enums.keys ∨ name ∈ r.structs.keys

/-- The table of short names fits the other three. -/
structure Coherent (r : Registry) : Prop where
  short_of_bound : ∀ {short full}, r.fullName? short = some full → Name.short full = short
  registered_of_bound : ∀ {short full}, r.fullName? short = some full → r.Registered full
  bound_of_registered : ∀ {name}, r.Registered name →
    ∃ full, r.fullName? (Name.short name) = some full

/-! ### One registration -/

theorem fullName?_enter (r : Registry) (g : Registration) (short : String) :
    (r.enter g).fullName? short =
      if Name.short g.name = short then some g.name else r.fullName? short := by
  have hshort : (r.enter g).shortNames = r.shortNames.insert (Name.short g.name) g.name := by
    cases g <;> rfl
  rw [fullName?, hshort, Table.get?_insert]
  rfl

theorem registered_enter (r : Registry) (g : Registration) (name : String) :
    (r.enter g).Registered name ↔ name = g.name ∨ r.Registered name := by
  cases g <;>
    simp only [Registered, enter, bindShortName, Registration.name, Table.mem_keys_insert] <;> tauto

theorem coherent_empty : empty.Coherent where
  short_of_bound h := by cases h
  registered_of_bound h := by cases h
  bound_of_registered h := by simp [Registered, empty, Table.keys] at h

/-- One registration keeps the table of short names in step with the others. -/
theorem Coherent.enter {r : Registry} (hr : r.Coherent) (g : Registration) :
    (r.enter g).Coherent where
  short_of_bound {short full} h := by
    rw [fullName?_enter] at h
    split at h
    · cases h; assumption
    · exact hr.short_of_bound h
  registered_of_bound {short full} h := by
    rw [registered_enter]
    rw [fullName?_enter] at h
    split at h
    · cases h; exact .inl rfl
    · exact .inr (hr.registered_of_bound h)
  bound_of_registered {name} h := by
    rw [registered_enter] at h
    rw [fullName?_enter]
    by_cases hs : Name.short g.name = Name.short name
    · exact ⟨g.name, if_pos hs⟩
    · rw [if_neg hs]
      rcases h with rfl | h
      · exact absurd rfl hs
      · exact hr.bound_of_registered h

/-! ### Registrations one after another -/

theorem enterAll_append (r : Registry) (gs gs' : List Registration) :
    r.enterAll (gs ++ gs') = (r.enterAll gs).enterAll gs' := List.foldl_append

theorem Coherent.enterAll {r : Registry} (hr : r.Coherent) (gs : List Registration) :
    (r.enterAll gs).Coherent := by
  induction gs generalizing r with
  | nil => exact hr
  | cons g gs ih => exact ih (hr.enter g)

theorem registered_enterAll (r : Registry) (gs : List Registration) (name : String) :
    (r.enterAll gs).Registered name ↔ name ∈ gs.map Registration.name ∨ r.Registered name := by
  induction gs generalizing r with
  | nil => simp [Registry.enterAll]
  | cons g gs ih =>
    have hstep : r.enterAll (g :: gs) = (r.enter g).enterAll gs := rfl
    rw [hstep, ih, registered_enter, List.map_cons, List.mem_cons]
    tauto

/-- Each table is written by the registrations of its kind, and the table of short names by all. -/
theorem enterAll_eq (r : Registry) (gs : List Registration) :
    r.enterAll gs =
      { typedefs := r.typedefs.extend (gs.filterMap Registration.typedef?)
        enums := r.enums.extend (gs.filterMap Registration.enum?)
        structs := r.structs.extend (gs.filterMap Registration.struct?)
        shortNames := r.shortNames.extend (gs.map fun g => (Name.short g.name, g.name)) } := by
  induction gs generalizing r with
  | nil => rfl
  | cons g gs ih =>
    have hstep : r.enterAll (g :: gs) = (r.enter g).enterAll gs := rfl
    rw [hstep, ih]
    cases g <;> rfl

theorem isEmpty_iff (r : Registry) : r.isEmpty = true ↔ ∀ name, ¬ r.Registered name := by
  have hnil : ∀ {α : Type} (t : Table String α), t.isEmpty = true ↔ ∀ name, name ∉ t.keys := by
    intro α t
    rw [List.isEmpty_iff, ← List.eq_nil_iff_forall_not_mem, Table.keys, List.map_eq_nil_iff]
  simp only [isEmpty, Bool.and_eq_true, hnil, Registered, not_or]
  exact ⟨fun h name => ⟨h.1.1 name, h.1.2 name, h.2 name⟩,
    fun h => ⟨⟨fun name => (h name).1, fun name => (h name).2.1⟩, fun name => (h name).2.2⟩⟩

/-! ### Runs of operations -/

theorem Operation.run_enterAll (op : Operation) (gs : List Registration) :
    op.run (empty.enterAll gs) = empty.enterAll (op.record gs) := by
  cases op with
  | extend ds => rw [Operation.run, Operation.record, registerAll_eq_enterAll, enterAll_append]
  | collect ds => exact registerAll_eq_enterAll empty ds
  | _ => simp only [Operation.run, Operation.record, enterAll_append]; rfl

/-- A run of operations makes the registrations of its history. -/
theorem run_eq_enterAll (ops : List Operation) : run ops = empty.enterAll (history ops) := by
  have hfold : ∀ gs, ops.foldl (fun r op => op.run r) (empty.enterAll gs) =
      empty.enterAll (ops.foldl (fun gs op => op.record gs) gs) := by
    induction ops with
    | nil => intro gs; rfl
    | cons op ops ih =>
      intro gs
      rw [List.foldl_cons, List.foldl_cons, Operation.run_enterAll, ih]
  exact hfold []

theorem Reachable.coherent {r : Registry} (hr : r.Reachable) : r.Coherent := by
  obtain ⟨ops, rfl⟩ := hr
  rw [run_eq_enterAll]
  exact coherent_empty.enterAll _

/-- A short name stands for the name that was registered last with it. -/
theorem fullName?_run (ops : List Operation) (short : String) :
    (run ops).fullName? short =
      ((history ops).reverse.find? fun g => Name.short g.name = short).map Registration.name := by
  rw [run_eq_enterAll, enterAll_eq]
  exact (Table.get?_ofList _ short).trans (Table.last?_map _ _ short)

/-- After any run of operations the four tables tell the last registration of each kind under each
name, and the last of any kind with each short name; they fit each other, their lengths count
distinct names, and nothing at all is there only if nothing was registered. -/
theorem run_tables (ops : List Operation) :
    (∀ name, (run ops).typedefs.get? name =
      Table.last? ((history ops).filterMap Registration.typedef?) name) ∧
    (∀ name, (run ops).enums.get? name =
      Table.last? ((history ops).filterMap Registration.enum?) name) ∧
    (∀ name, (run ops).structs.get? name =
      Table.last? ((history ops).filterMap Registration.struct?) name) ∧
    (∀ short, (run ops).fullName? short =
      ((history ops).reverse.find? fun g => Name.short g.name = short).map Registration.name) ∧
    (run ops).Coherent ∧
    (run ops).typedefs.length =
      (((history ops).filterMap Registration.typedef?).map Prod.fst).toFinset.card ∧
    (run ops).enums.length =
      (((history ops).filterMap Registration.enum?).map Prod.fst).toFinset.card ∧
    (run ops).structs.length =
      (((history ops).filterMap Registration.struct?).map Prod.fst).toFinset.card ∧
    ((run ops).isEmpty = true ↔ history ops = []) := by
  have hcoherent : (run ops).Coherent := Reachable.coherent ⟨ops, rfl⟩
  have hempty : (run ops).isEmpty = true ↔ history ops = [] := by
    rw [isEmpty_iff, run_eq_enterAll, ← List.map_eq_nil_iff, List.eq_nil_iff_forall_not_mem]
    refine forall_congr' fun name => not_congr ?_
    rw [registered_enterAll]
    exact or_iff_left (by simp [Registered, empty, Table.keys])
  rw [run_eq_enterAll, enterAll_eq] at hcoherent hempty ⊢
  refine ⟨Table.get?_ofList _, Table.get?_ofList _, Table.get?_ofList _, fun short => ?_, hcoherent,
    Table.length_ofList _, Table.length_ofList _, Table.length_ofList _, hempty⟩
  exact (Table.get?_ofList _ short).trans (Table.last?_map _ _ short)

/-! ### Registries built from declarations -/

/-- The operations that enter structures under their own names only. -/
def Operation.Declares : Operation → Prop
  | register _ => True
  | extend _ => True
  | collect _ => True
  | _ => False

/-- A registry that was built from declarations. -/
def Declared (r : Registry) : Prop := ∃ ops, (∀ op ∈ ops, Operation.Declares op) ∧ r = run ops

/-- Every structure stands under its own name. -/
def OwnNames (r : Registry) : Prop :=
  ∀ name decl, r.structs.get? name = some decl → decl.name = name

theorem ownNames_empty : empty.OwnNames := by
  intro name decl h
  cases h

theorem OwnNames.register {r : Registry} (hr : r.OwnNames) (d : Declaration) :
    (r.register d).OwnNames := by
  intro name decl h
  cases d with
  | struct decl' =>
    have hget : (r.structs.insert decl'.name decl').get? name = some decl := h
    rw [Table.get?_insert] at hget
    split at hget
    · cases hget; assumption
    · exact hr name decl hget
  | _ => exact hr name decl h

theorem OwnNames.registerAll {r : Registry} (hr : r.OwnNames) (ds : List Declaration) :
    (r.registerAll ds).OwnNames := by
  induction ds generalizing r with
  | nil => exact hr
  | cons d ds ih => exact ih (hr.register d)

theorem OwnNames.run_operation {r : Registry} (hr : r.OwnNames) {op : Operation}
    (hop : op.Declares) : (op.run r).OwnNames := by
  cases op with
  | register d => exact hr.register d
  | extend ds => exact hr.registerAll ds
  | collect ds => exact ownNames_empty.registerAll ds
  | _ => exact hop.elim

theorem Declared.ownNames {r : Registry} (hr : r.Declared) : r.OwnNames := by
  obtain ⟨ops, hops, rfl⟩ := hr
  have hfold : ∀ {r : Registry}, r.OwnNames →
      (ops.foldl (fun r op => op.run r) r).OwnNames := by
    induction ops with
    | nil => exact fun hr => hr
    | cons op ops ih =>
      intro r hr
      exact ih (fun op' hop' => hops op' (List.mem_cons_of_mem _ hop'))
        (hr.run_operation (hops op List.mem_cons_self))
  exact hfold ownNames_empty

theorem declared_ofDeclarations (ds : List Declaration) : (ofDeclarations ds).Declared :=
  ⟨[.collect ds], fun _ hop => List.mem_singleton.1 hop ▸ trivial, rfl⟩

theorem Declared.coherent {r : Registry} (hr : r.Declared) : r.Coherent := by
  obtain ⟨ops, -, rfl⟩ := hr
  exact Reachable.coherent ⟨ops, rfl⟩

end Registry

end TypeCorpus
