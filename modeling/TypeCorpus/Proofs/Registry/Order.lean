import TypeCorpus.Kind
import TypeCorpus.Proofs.Sample.Frame

/-! The order of declarations. Each table keeps what was declared last under a name, and that of the
short names the name that was declared last with a short name; so declarations compete only if they
have one short name. Two lists of the same declarations, with those of one short name in the same
order, lead to the same tables, and registries with the same tables give the same answers: neither a
turn of a walk nor a step of synthesis reads more than what stands under a name. -/

namespace TypeCorpus

/-- Two lists hold the same declarations, and those with one short name stand in the same order in
both. -/
structure Reordered (ds ds' : List Declaration) : Prop where
  perm : ds.Perm ds'
  same_order : ∀ short, ds.filter (fun d => Name.short d.name = short) =
    ds'.filter fun d => Name.short d.name = short

namespace Reordered

variable {ds ds' : List Declaration} {d d' : Declaration}

theorem cons (d : Declaration) (h : Reordered ds ds') : Reordered (d :: ds) (d :: ds') where
  perm := h.perm.cons d
  same_order short := by rw [List.filter_cons, List.filter_cons, h.same_order]

theorem trans {ds'' : List Declaration} (h : Reordered ds ds') (h' : Reordered ds' ds'') :
    Reordered ds ds'' where
  perm := h.perm.trans h'.perm
  same_order short := (h.same_order short).trans (h'.same_order short)

/-- Neighbours with different short names may change places. -/
theorem swap (h : Name.short d.name ≠ Name.short d'.name) (ds : List Declaration) :
    Reordered (d :: d' :: ds) (d' :: d :: ds) where
  perm := .swap d' d ds
  same_order short := by
    simp only [List.filter_cons]
    by_cases hd : Name.short d.name = short
    · have hd' : Name.short d'.name ≠ short := fun hd' => h (hd.trans hd'.symm)
      simp [hd, hd']
    · simp [hd]

/-- The entries that declarations give, each under a key that tells the short name of its
declaration, write the same table in both orders. -/
theorem same_extend {κ α : Type} [DecidableEq κ] {f : Declaration → Option (κ × α)} (c : κ → String)
    (hf : ∀ d e, f d = some e → Name.short d.name = c e.1) (h : Reordered ds ds')
    (t : Table κ α) : (t.extend (ds.filterMap f)).Same (t.extend (ds'.filterMap f)) := by
  have hkeep : ∀ k d e, f d = some e → e.1 = k → decide (Name.short d.name = c k) = true := by
    rintro k d e he rfl
    exact decide_eq_true (hf d e he)
  refine Table.same_extend t ((h.perm.filterMap f).map Prod.fst) fun k => ?_
  rw [← Table.last?_filterMap_filter (hkeep k) ds, h.same_order,
    Table.last?_filterMap_filter (hkeep k) ds']

end Reordered

namespace Registry

/-- Two registries with the same tables. -/
structure Same (r r' : Registry) : Prop where
  typedefs : r.typedefs.Same r'.typedefs
  enums : r.enums.Same r'.enums
  structs : r.structs.Same r'.structs
  shortNames : r.shortNames.Same r'.shortNames

variable {r r' : Registry}

theorem name_registration (d : Declaration) : d.registration.name = d.name := by
  cases d <;> rfl

theorem same_registerAll (r : Registry) {ds ds' : List Declaration} (h : Reordered ds ds') :
    (r.registerAll ds).Same (r.registerAll ds') := by
  have hshort : ∀ ds : List Declaration,
      (ds.map Declaration.registration).map (fun g => (Name.short g.name, g.name)) =
        ds.filterMap fun d => some (Name.short d.name, d.name) := by
    intro ds
    rw [List.map_map, ← List.filterMap_eq_map]
    refine List.filterMap_congr fun d _ => ?_
    simp only [Function.comp_apply, name_registration]
  simp only [registerAll_eq_enterAll, enterAll_eq, List.filterMap_map, hshort]
  refine ⟨h.same_extend Name.short ?_ _, h.same_extend Name.short ?_ _,
    h.same_extend Name.short ?_ _, h.same_extend id ?_ _⟩
  all_goals
    intro d e he
    cases d <;> cases he <;> rfl

/-! ### The same tables, the same answers -/

theorem Same.fullName?_eq (h : r.Same r') (short : String) :
    r.fullName? short = r'.fullName? short :=
  h.shortNames.get?_eq short

theorem Same.turn_eq (h : r.Same r') (w : Walk) : r.turn w = r'.turn w := by
  have hdenoted : r.denoted? w.current = r'.denoted? w.current := by
    simp only [denoted?, h.typedefs.get?_eq, h.fullName?_eq]
  rw [turn, turn, hdenoted, settled, settled, h.fullName?_eq]

theorem Same.walk_eq (h : r.Same r') (w : Walk) :
    r.walk w.start w.met w.chain w.current = r'.walk w.start w.met w.chain w.current := by
  induction w using turn_induction (r := r) with
  | step w ih =>
    rw [walk_eq_turn, walk_eq_turn r', ← h.turn_eq w]
    cases hw : r.turn w with
    | inl w' => exact ih w' hw
    | inr answer => rfl

theorem Same.resolve?_eq (h : r.Same r') (ref : String) : r.resolve? ref = r'.resolve? ref :=
  h.walk_eq { start := ref }

theorem Same.lookup?_eq {α : Type} (h : r.Same r') {table table' : Table String α}
    (htable : table.Same table') (ref : String) : r.lookup? table ref = r'.lookup? table' ref := by
  have hget : table.get? = table'.get? := funext htable.get?_eq
  simp only [lookup?, h.resolve?_eq, h.fullName?_eq, hget]

theorem Same.enum?_eq (h : r.Same r') (ref : String) : r.enum? ref = r'.enum? ref :=
  h.lookup?_eq h.enums ref

theorem Same.struct?_eq (h : r.Same r') (ref : String) : r.struct? ref = r'.struct? ref :=
  h.lookup?_eq h.structs ref

theorem Same.scalarSample_eq (h : r.Same r') (expanding : List String) (ref : String) :
    r.scalarSample expanding ref = r'.scalarSample expanding ref := by
  induction expanding, ref using expansion_induction (r := r) with
  | step expanding ref ih =>
    have houtcome : r.outcome expanding ref = r'.outcome expanding ref := by
      simp only [outcome, h.resolve?_eq, h.enum?_eq, h.struct?_eq]
    rw [scalarSample_eq_outcome, scalarSample_eq_outcome r', ← houtcome]
    cases ho : r.outcome expanding ref with
    | settled s notices => rfl
    | expand decl =>
      simp only
      rw [Sample.ofStruct_congr fun ref' _ => ih decl ho ref']

/-- Two registries give the same answers: to what a reference resolves to and how that is reported,
to what it names and is sampled as, and to how much there is. -/
structure AnswersAlike (r r' : Registry) : Prop where
  resolve? : ∀ ref, r.resolve? ref = r'.resolve? ref
  resolve : ∀ ref, r.resolve ref = r'.resolve ref
  fullName? : ∀ short, r.fullName? short = r'.fullName? short
  enum? : ∀ ref, r.enum? ref = r'.enum? ref
  struct? : ∀ ref, r.struct? ref = r'.struct? ref
  kind : ∀ ref name, r.kind ref name = r'.kind ref name
  sample : ∀ ref isRepeated, r.sample ref isRepeated = r'.sample ref isRepeated
  typedefs : r.typedefs.length = r'.typedefs.length
  enums : r.enums.length = r'.enums.length
  structs : r.structs.length = r'.structs.length
  isEmpty : r.isEmpty = r'.isEmpty

theorem Same.answersAlike (h : r.Same r') : r.AnswersAlike r' where
  resolve? := h.resolve?_eq
  resolve ref := by simp only [Registry.resolve, h.resolve?_eq]
  fullName? := h.fullName?_eq
  enum? := h.enum?_eq
  struct? := h.struct?_eq
  kind ref name := by simp only [Registry.kind, h.struct?_eq, h.enum?_eq]
  sample ref isRepeated := by rw [Registry.sample, Registry.sample, h.scalarSample_eq]
  typedefs := h.typedefs.length_eq
  enums := h.enums.length_eq
  structs := h.structs.length_eq
  isEmpty := by
    simp only [Registry.isEmpty, h.typedefs.isEmpty_eq, h.enums.isEmpty_eq, h.structs.isEmpty_eq]

/-! ### Declarations in another order -/

/-- Two declarations with different names lead to the same tables in either order exactly if their
short names are different. -/
theorem same_swap_iff (r : Registry) {d d' : Declaration} (hne : d.name ≠ d'.name) :
    (r.registerAll [d, d']).Same (r.registerAll [d', d]) ↔
      Name.short d.name ≠ Name.short d'.name := by
  refine ⟨fun h hshort => hne ?_, fun hshort => r.same_registerAll (.swap hshort [])⟩
  have hlast : ∀ d d' : Declaration,
      (r.registerAll [d, d']).fullName? (Name.short d'.name) = some d'.name := by
    intro d d'
    show ((r.register d).enter d'.registration).fullName? _ = _
    rw [fullName?_enter, name_registration, if_pos rfl]
  have hbound := h.fullName?_eq (Name.short d'.name)
  rw [hlast d d', ← hshort, hlast d' d] at hbound
  exact (Option.some.inj hbound).symm

/-- Whatever registry they are entered into, declarations lead to the same tables and to the same
answers in any order that keeps those with one short name as they stand. -/
theorem registerAll_reordered (r : Registry) {ds ds' : List Declaration} (h : Reordered ds ds') :
    (r.registerAll ds).Same (r.registerAll ds') ∧
      (r.registerAll ds).AnswersAlike (r.registerAll ds') :=
  ⟨r.same_registerAll h, (r.same_registerAll h).answersAlike⟩

/-- A structure may be declared before or after two declarations that compete for its member's type.
-/
theorem registerAll_reordered_competing :
    let size := Declaration.typedef "M::T" "long"
    let mode : Declaration := .enum "N::T" ["ON", "OFF"]
    let holder : Declaration :=
      .struct { name := "M::S", members := [{ name := "x", typeName := some "T" }] }
    Reordered [size, mode, holder] [holder, size, mode] ∧
      (ofDeclarations [size, mode, holder]).Same (ofDeclarations [holder, size, mode]) ∧
      (ofDeclarations [size, mode, holder]).AnswersAlike
        (ofDeclarations [holder, size, mode]) := by
  intro size mode holder
  have hmode : Name.short mode.name ≠ Name.short holder.name := by decide
  have hsize : Name.short size.name ≠ Name.short holder.name := by decide
  have horder : Reordered [size, mode, holder] [holder, size, mode] :=
    ((Reordered.swap hmode []).cons size).trans (.swap hsize [mode])
  exact ⟨horder, registerAll_reordered empty horder⟩

end Registry

end TypeCorpus
