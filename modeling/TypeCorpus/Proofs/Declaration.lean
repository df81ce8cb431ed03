import Mathlib.Data.List.Forall2
import Mathlib.Data.List.Nodup
import TypeCorpus.Declaration.Json
import TypeCorpus.Proofs.Json.Tree

/-! Declarations read back from JSON. A structured value has its fields in a fixed order; an object
spells them if it holds each of them under its key, nulls perhaps left out, in any order and with
other members in between, and an array spells them if it holds exactly their values. A declaration
is spelled by its kind followed by its fields, and each member of a structure in either way on its
own. What is read as a declaration is exactly what spells it, and it is written as one of these
spellings. -/

namespace TypeCorpus

open Json (Value)

/-! ### Fields of a structured value -/

namespace Json.Value

/-- What is found in the place of a field: its value, or nothing where the value is null. -/
def StandsFor (found : Option Value) (v : Value) : Prop := found = some v ∨ found = none ∧ v = null

/-- The members are the fields in any order, some nulls left out, and members under other keys. -/
def Scatter (fields members : List (String × Value)) : Prop :=
  ∃ kept others, members.Perm (kept ++ others) ∧ kept.Sublist fields ∧
    (∀ f ∈ fields, f ∉ kept → f.2 = null) ∧ ∀ m ∈ others, m.1 ∉ fields.map Prod.fst

/-- A value that holds some fields, by key or by place. -/
inductive Spells (fields : List (String × Value)) : Value → Prop
  | object {members : List (String × Value)} (h : Scatter fields members) :
      Spells fields (.object members)
  | array : Spells fields (.array (fields.map Prod.snd))

variable {fields members : List (String × Value)} {found : Option Value} {v : Value}

theorem mem_of_lookup {key : String} (h : members.lookup key = some v) : (key, v) ∈ members := by
  obtain ⟨front, back, rfl, -⟩ := List.lookup_eq_some_iff.1 h
  exact List.mem_append_right _ List.mem_cons_self

theorem eq_of_mem_of_key_eq (hkeys : (fields.map Prod.fst).Nodup) {f g : String × Value}
    (hf : f ∈ fields) (hg : g ∈ fields) (h : f.1 = g.1) : f = g :=
  List.inj_on_of_nodup_map hkeys hf hg h

theorem exists_lookup {m : String × Value} (h : m ∈ members) :
    ∃ v, members.lookup m.1 = some v := by
  cases hlookup : members.lookup m.1 with
  | some v => exact ⟨v, rfl⟩
  | none => simpa using List.lookup_eq_none_iff.1 hlookup m h

theorem lookup_of_mem (hkeys : (members.map Prod.fst).Nodup) {m : String × Value}
    (h : m ∈ members) : members.lookup m.1 = some m.2 := by
  obtain ⟨v, hlookup⟩ := exists_lookup h
  have hm : (m.1, v) = m := eq_of_mem_of_key_eq hkeys (mem_of_lookup hlookup) h rfl
  rw [hlookup, ← hm]

/-- Each field is found under its key among scattered members. -/
theorem Scatter.standsFor_lookup (h : Scatter fields members) (hkeys : (fields.map Prod.fst).Nodup)
    {f : String × Value} (hf : f ∈ fields) : StandsFor (members.lookup f.1) f.2 := by
  obtain ⟨kept, others, hperm, hkept, hnull, hothers⟩ := h
  cases hlookup : members.lookup f.1 with
  | some v =>
    left
    rcases List.mem_append.1 (hperm.mem_iff.1 (mem_of_lookup hlookup)) with hv | hv
    · rw [← eq_of_mem_of_key_eq hkeys (hkept.subset hv) hf rfl]
    · exact absurd (List.mem_map_of_mem hf) (hothers (f.1, v) hv)
  | none =>
    refine .inr ⟨rfl, hnull f hf fun hmem => ?_⟩
    obtain ⟨v, hv⟩ := exists_lookup (hperm.mem_iff.2 (List.mem_append_left _ hmem))
    rw [hlookup] at hv
    cases hv

/-- Members with different keys among which each field is found are the fields scattered. -/
theorem scatter_of_standsFor (hkeys : (fields.map Prod.fst).Nodup)
    (hmembers : (members.map Prod.fst).Nodup)
    (h : ∀ f ∈ fields, StandsFor (members.lookup f.1) f.2) : Scatter fields members := by
  have hmem : ∀ f ∈ fields, (members.lookup f.1).isSome = true → f ∈ members := by
    intro f hf hsome
    rcases h f hf with hfound | ⟨hnone, -⟩
    · exact mem_of_lookup hfound
    · rw [hnone] at hsome
      cases hsome
  let kept := fields.filter fun f => (members.lookup f.1).isSome
  let others := members.filter fun m => m.1 ∉ fields.map Prod.fst
  refine ⟨kept, others, ?_, List.filter_sublist, fun f hf hnot => ?_, fun m hm => ?_⟩
  · have hkept : kept.Nodup := (List.Nodup.of_map _ hkeys).filter _
    have hapart : kept.Disjoint others := fun m hm hother =>
      of_decide_eq_true (List.mem_filter.1 hother).2 (List.mem_map_of_mem (List.mem_filter.1 hm).1)
    refine (List.perm_ext_iff_of_nodup (List.Nodup.of_map _ hmembers)
      (hkept.append ((List.Nodup.of_map _ hmembers).filter _) hapart)).2 fun m => ?_
    rw [List.mem_append, List.mem_filter, List.mem_filter]
    constructor
    · intro hm
      by_cases hkey : m.1 ∈ fields.map Prod.fst
      · obtain ⟨f, hf, hfm⟩ := List.mem_map.1 hkey
        have hlookup := lookup_of_mem hmembers hm
        have hsome : (members.lookup f.1).isSome = true := by rw [hfm, hlookup]; rfl
        have heq : f = m := eq_of_mem_of_key_eq hmembers (hmem f hf hsome) hm hfm
        exact .inl ⟨heq ▸ hf, by rw [hlookup]; rfl⟩
      · exact .inr ⟨hm, decide_eq_true hkey⟩
    · rintro (⟨hf, hsome⟩ | ⟨hm, -⟩)
      · exact hmem m hf hsome
      · exact hm
  · rcases h f hf with hfound | ⟨-, hnull⟩
    · exact absurd (List.mem_filter.2 ⟨hf, by rw [hfound]; rfl⟩) hnot
    · exact hnull
  · exact of_decide_eq_true (List.mem_filter.1 hm).2

/-- An object of the fields in order spells them. -/
theorem spells_object (fields : List (String × Value)) : (object fields).Spells fields :=
  .object ⟨fields, [], by simp, .refl _, fun _ hf hnot => absurd hf hnot, by simp⟩

/-- The values of the fields are found in what spells them. -/
theorem Spells.exists_fields (h : v.Spells fields) (hkeys : (fields.map Prod.fst).Nodup) :
    ∃ found, v.fields? (fields.map Prod.fst) = some found ∧
      List.Forall₂ StandsFor found (fields.map Prod.snd) := by
  cases h with
  | object h =>
    refine ⟨_, rfl, ?_⟩
    rw [List.map_map, List.forall₂_map_left_iff, List.forall₂_map_right_iff, List.forall₂_same]
    exact fun f hf => h.standsFor_lookup hkeys hf
  | array =>
    refine ⟨(fields.map Prod.snd).map some, ?_, ?_⟩
    · rw [fields?, if_pos (by simp)]
    · rw [List.forall₂_map_left_iff, List.forall₂_same]
      exact fun v _ => .inl rfl

/-- A value in which the values of the fields are found spells them. -/
theorem KeysOnce.spells (hv : v.KeysOnce) (hkeys : (fields.map Prod.fst).Nodup)
    {found : List (Option Value)} (hfound : v.fields? (fields.map Prod.fst) = some found)
    (h : List.Forall₂ StandsFor found (fields.map Prod.snd)) : v.Spells fields := by
  cases hv with
  | object hmembers _ =>
    cases hfound
    rw [List.map_map, List.forall₂_map_left_iff, List.forall₂_map_right_iff,
      List.forall₂_same] at h
    exact .object (scatter_of_standsFor hkeys hmembers h)
  | @array items _ =>
    rw [fields?] at hfound
    split at hfound
    · cases hfound
      have hitems : items = fields.map Prod.snd := by
        rw [List.forall₂_map_left_iff] at h
        refine List.forall₂_eq_eq_eq ▸ h.imp fun v w hvw => ?_
        rcases hvw with hvw | ⟨hnone, -⟩
        · exact Option.some.inj hvw
        · cases hnone
      rw [hitems]
      exact .array
    · cases hfound
  | _ => cases hfound

theorem KeysOnce.of_fields? (hv : v.KeysOnce) {keys : List String} {found : List (Option Value)}
    (hfound : v.fields? keys = some found) {w : Value} (hw : some w ∈ found) : w.KeysOnce := by
  cases hv with
  | object _ hmembers =>
    cases hfound
    obtain ⟨key, -, hlookup⟩ := List.mem_map.1 hw
    exact hmembers _ (mem_of_lookup hlookup)
  | array hitems =>
    rw [fields?] at hfound
    split at hfound
    · cases hfound
      obtain ⟨w', hw', heq⟩ := List.mem_map.1 hw
      exact Option.some.inj heq ▸ hitems w' hw'
    · cases hfound
  | _ => cases hfound

theorem some_mem_of_standsFor {found : List (Option Value)} {vs : List Value}
    (h : List.Forall₂ StandsFor found vs) (hv : v ∈ vs) (hne : v ≠ null) : some v ∈ found := by
  induction h with
  | nil => cases hv
  | cons hstands _ ih =>
    rcases List.mem_cons.1 hv with rfl | hv
    · rcases hstands with rfl | ⟨-, hnull⟩
      · exact List.mem_cons_self
      · exact absurd hnull hne
    · exact List.mem_cons_of_mem _ (ih hv)

theorem keysOnce_ofOption (s : Option String) : (ofOption s).KeysOnce := by
  cases s with
  | none => exact .null
  | some s => exact .string s

/-! ### Texts and lists in the place of a field -/

theorem text?_eq_some_iff {s : String} :
    text? found = some s ↔ StandsFor found (.string s) := by
  simp only [StandsFor, reduceCtorEq, and_false, or_false]
  unfold text?
  split <;> simp_all

theorem optionalText?_eq_some_iff {s : Option String} :
    optionalText? found = some s ↔ StandsFor found (.ofOption s) := by
  unfold optionalText? StandsFor
  cases s <;> split <;> simp_all [ofOption]

theorem mapM_eq_some_iff {α : Type} {item : Value → Option α} {items : List Value} {xs : List α} :
    items.mapM item = some xs ↔ List.Forall₂ (fun v x => item v = some x) items xs := by
  induction items generalizing xs with
  | nil => simp [eq_comm]
  | cons v items ih =>
    rw [List.mapM_cons, List.forall₂_cons_left_iff]
    cases hv : item v with
    | none => simp
    | some x => simp [← ih, Option.bind_eq_some_iff, eq_comm (b := xs)]

theorem list?_eq_some_iff {α : Type} {item : Value → Option α} {xs : List α} :
    list? item found = some xs ↔ ∃ items, StandsFor found (.array items) ∧
      List.Forall₂ (fun v x => item v = some x) items xs := by
  simp only [StandsFor, reduceCtorEq, and_false, or_false, ← mapM_eq_some_iff]
  unfold list?
  split <;> simp_all

theorem list?_string?_eq_some_iff {ss : List String} :
    list? string? found = some ss ↔ StandsFor found (.array (ss.map .string)) := by
  have hstring : ∀ (v : Value) s, v.string? = some s ↔ v = string s := by
    intro v s
    cases v <;> simp [string?]
  rw [list?_eq_some_iff]
  simp only [hstring, ← List.forall₂_map_right_iff (f := string), List.forall₂_eq_eq_eq]
  simp

end Json.Value

/-! ### Members, structures, declarations -/

variable {v : Value}

namespace Member

/-- The fields of a member in order. -/
def entries (m : Member) : List (String × Value) :=
  [("name", .string m.name), ("type_name", .ofOption m.typeName),
    ("non_basic_type_name", .ofOption m.nonBasicTypeName),
    ("sequence_max_length", .ofOption m.sequenceMaxLength),
    ("array_dimensions", .ofOption m.arrayDimensions)]

def Spelled (m : Member) (v : Value) : Prop := v.Spells m.entries

theorem nodup_entries (m : Member) : (m.entries.map Prod.fst).Nodup := by
  show keys.Nodup
  decide

theorem ofJson?_eq_some_iff {m : Member} : ofJson? v = some m ↔
    ∃ found, v.fields? keys = some found ∧
      List.Forall₂ Value.StandsFor found (m.entries.map Prod.snd) := by
  unfold ofJson?
  constructor
  · intro h
    split at h
    · rename_i hfound
      split at h
      · cases h
        simp_all [entries, ← Value.text?_eq_some_iff, ← Value.optionalText?_eq_some_iff]
      · cases h
    · cases h
  · rintro ⟨found, hfound, h⟩
    simp only [entries, List.map_cons, List.map_nil, List.forall₂_cons_right_iff,
      List.forall₂_nil_right_iff, ← Value.text?_eq_some_iff,
      ← Value.optionalText?_eq_some_iff] at h
    obtain ⟨name, _, hname, ⟨type, _, htype, ⟨nonBasic, _, hnonBasic, ⟨length, _, hlength,
      ⟨dimensions, _, hdimensions, rfl, rfl⟩, rfl⟩, rfl⟩, rfl⟩, rfl⟩ := h
    simp only [hfound, hname, htype, hnonBasic, hlength, hdimensions]

theorem keysOnce_toJson (m : Member) : m.toJson.KeysOnce :=
  .object m.nodup_entries (by simp [Value.KeysOnce.string, Value.keysOnce_ofOption])

theorem Spelled.ofJson?_eq {m : Member} (h : m.Spelled v) : ofJson? v = some m :=
  ofJson?_eq_some_iff.2 (h.exists_fields m.nodup_entries)

theorem spelled_of_ofJson? {m : Member} (hv : v.KeysOnce) (h : ofJson? v = some m) :
    m.Spelled v := by
  obtain ⟨found, hfound, hstands⟩ := ofJson?_eq_some_iff.1 h
  exact hv.spells m.nodup_entries hfound hstands

end Member

namespace StructDecl

theorem ofFields?_eq_some_iff {decl : StructDecl} {found : List (Option Value)} :
    ofFields? found = some decl ↔ ∃ items, List.Forall₂ (fun v m => Member.ofJson? v = some m)
      items decl.members ∧ List.Forall₂ Value.StandsFor found
        [.string decl.name, .ofOption decl.baseType, .array items] := by
  unfold ofFields?
  constructor
  · intro h
    split at h
    · split at h
      · rename_i hmembers
        obtain ⟨items, hitems, hmembers⟩ := Value.list?_eq_some_iff.1 hmembers
        cases h
        refine ⟨items, hmembers, ?_⟩
        simp_all [← Value.text?_eq_some_iff, ← Value.optionalText?_eq_some_iff]
      · cases h
    · cases h
  · rintro ⟨items, hmembers, h⟩
    simp only [List.forall₂_cons_right_iff, List.forall₂_nil_right_iff,
      ← Value.text?_eq_some_iff, ← Value.optionalText?_eq_some_iff] at h
    obtain ⟨name, _, hname, ⟨base, _, hbase, ⟨members, _, hitems, rfl, rfl⟩, rfl⟩, rfl⟩ := h
    simp only [hname, hbase, Value.list?_eq_some_iff.2 ⟨items, hitems, hmembers⟩]

end StructDecl

namespace Declaration

/-- The kind of a declaration and its fields in order. Each member of a structure stands there in a
spelling of its own. -/
inductive Fields : Declaration → String → List (String × Value) → Prop
  | typedef (name underlying : String) : Fields (.typedef name underlying) "typedef"
      [("name", .string name), ("underlying", .string underlying)]
  | enum (name : String) (enumerators : List String) : Fields (.enum name enumerators) "enum"
      [("name", .string name), ("enumerators", .array (enumerators.map .string))]
  | struct {decl : StructDecl} {items : List Value}
      (h : List.Forall₂ (fun v m => Member.Spelled m v) items decl.members) :
      Fields (.struct decl) "struct" [("name", .string decl.name),
        ("base_type", .ofOption decl.baseType), ("members", .array items)]

/-- A value that spells the kind and the fields of a declaration. -/
def Spelled (d : Declaration) (v : Value) : Prop :=
  ∃ kind fields, d.Fields kind fields ∧ v.Spells (("kind", .string kind) :: fields)

variable {d : Declaration} {kind : String} {fields : List (String × Value)}
  {found : List (Option Value)}

theorem Fields.nodup_keys (h : d.Fields kind fields) :
    ((("kind", Value.string kind) :: fields).map Prod.fst).Nodup := by
  cases h <;> simp

/-- A declaration is read from the values of the fields of its kind. -/
theorem Fields.ofKind?_eq (hd : d.Fields kind fields)
    (hfound : v.fields? (fields.map Prod.fst) = some found)
    (h : List.Forall₂ Value.StandsFor found (fields.map Prod.snd)) : ofKind? kind v = some d := by
  cases hd with
  | typedef name underlying =>
    simp only [List.map_cons, List.map_nil, List.forall₂_cons_right_iff,
      List.forall₂_nil_right_iff, ← Value.text?_eq_some_iff] at h hfound
    obtain ⟨name', _, hname, ⟨underlying', _, hunderlying, rfl, rfl⟩, rfl⟩ := h
    simp only [ofKind?, hfound, hname, hunderlying]
  | enum name enumerators =>
    simp only [List.map_cons, List.map_nil, List.forall₂_cons_right_iff,
      List.forall₂_nil_right_iff, ← Value.text?_eq_some_iff,
      ← Value.list?_string?_eq_some_iff] at h hfound
    obtain ⟨name', _, hname, ⟨enumerators', _, henumerators, rfl, rfl⟩, rfl⟩ := h
    simp only [ofKind?, hfound, hname, henumerators]
  | @struct decl items hitems =>
    have hmembers : List.Forall₂ (fun v m => Member.ofJson? v = some m) items decl.members :=
      hitems.imp fun v m hm => hm.ofJson?_eq
    have hdecl := StructDecl.ofFields?_eq_some_iff.2 ⟨items, hmembers, h⟩
    simp only [ofKind?, StructDecl.ofJson?, StructDecl.keys, List.map_cons, List.map_nil]
      at hfound ⊢
    rw [hfound, Option.bind_some, hdecl, Option.map_some]

/-- What is read as a declaration of a kind has the values of its fields. -/
theorem exists_fields_of_ofKind? (hv : v.KeysOnce) (h : ofKind? kind v = some d) :
    ∃ fields found, d.Fields kind fields ∧ v.fields? (fields.map Prod.fst) = some found ∧
      List.Forall₂ Value.StandsFor found (fields.map Prod.snd) := by
  unfold ofKind? at h
  split at h
  · split at h
    · rename_i hfound
      split at h
      · rename_i hname hunderlying
        cases h
        refine ⟨_, _, .typedef _ _, hfound, ?_⟩
        simp [← Value.text?_eq_some_iff, hname, hunderlying]
      · cases h
    · cases h
  · split at h
    · rename_i hfound
      split at h
      · rename_i hname henumerators
        cases h
        refine ⟨_, _, .enum _ _, hfound, ?_⟩
        simp [← Value.text?_eq_some_iff, ← Value.list?_string?_eq_some_iff, hname, henumerators]
      · cases h
    · cases h
  · obtain ⟨decl, hdecl, rfl⟩ := Option.map_eq_some_iff.1 h
    obtain ⟨found, hfound, hdecl⟩ := Option.bind_eq_some_iff.1 hdecl
    obtain ⟨items, hmembers, hstands⟩ := StructDecl.ofFields?_eq_some_iff.1 hdecl
    have hitems : some (Value.array items) ∈ found :=
      Value.some_mem_of_standsFor hstands (by simp) (by simp)
    have hkeys : ∀ v ∈ items, v.KeysOnce := by
      cases hv.of_fields? hfound hitems with
      | array h => exact h
    refine ⟨_, found, .struct ?_, hfound, hstands⟩
    exact ((List.forall₂_and_left _ _).2 ⟨hkeys, hmembers⟩).imp fun v m hm =>
      Member.spelled_of_ofJson? hm.1 hm.2
  · cases h

/-- A value carries a kind, and the other fields are read from the second value. -/
inductive Tagged (kind : String) : Value → Value → Prop
  | object {members : List (String × Value)} (h : members.lookup "kind" = some (.string kind)) :
      Tagged kind (.object members) (.object members)
  | array (items : List Value) : Tagged kind (.array (.string kind :: items)) (.array items)

variable {w : Value}

theorem ofJson?_eq_some_iff :
    ofJson? v = some d ↔ ∃ kind w, Tagged kind v w ∧ ofKind? kind w = some d := by
  constructor
  · intro h
    unfold ofJson? at h
    split at h
    · split at h
      · rename_i hkind
        exact ⟨_, _, .object hkind, h⟩
      · cases h
    · exact ⟨_, _, .array _, h⟩
    · cases h
  · rintro ⟨kind, w, htag, h⟩
    cases htag with
    | object hkind => simpa only [ofJson?, hkind] using h
    | array items => exact h

theorem Tagged.keysOnce (h : Tagged kind v w) (hv : v.KeysOnce) : w.KeysOnce := by
  cases h with
  | object _ => exact hv
  | array items =>
    cases hv with
    | array hitems => exact .array fun v hv => hitems v (List.mem_cons_of_mem _ hv)

/-- The kind is the first of all fields. -/
theorem Tagged.fields?_cons (h : Tagged kind v w) (keys : List String) :
    v.fields? ("kind" :: keys) = (w.fields? keys).map (some (.string kind) :: ·) := by
  cases h with
  | object hkind => simp [Value.fields?, hkind]
  | array items => by_cases hlength : items.length = keys.length <;> simp [Value.fields?, hlength]

theorem exists_tagged {keys : List String}
    (h : v.fields? ("kind" :: keys) = some (some (.string kind) :: found)) :
    ∃ w, Tagged kind v w := by
  cases v with
  | object members => exact ⟨_, .object (List.cons.inj (Option.some.inj h)).1⟩
  | array items =>
    rw [Value.fields?] at h
    split at h
    · cases items with
      | nil => cases h
      | cons v items =>
        cases h
        exact ⟨_, .array items⟩
    · cases h
  | _ => cases h

/-- What spells a declaration is read as that declaration. -/
theorem Spelled.ofJson?_eq (h : d.Spelled v) : ofJson? v = some d := by
  obtain ⟨kind, fields, hd, hv⟩ := h
  obtain ⟨found, hfound, hstands⟩ := hv.exists_fields hd.nodup_keys
  rw [List.map_cons, List.forall₂_cons_right_iff] at hstands
  obtain ⟨_, found, hkind | ⟨-, hnull⟩, hstands, rfl⟩ := hstands
  · cases hkind
    obtain ⟨w, htag⟩ := exists_tagged hfound
    have hfields := (htag.fields?_cons _).symm.trans hfound
    obtain ⟨found', hfound', heq⟩ := Option.map_eq_some_iff.1 hfields
    obtain rfl := (List.cons.inj heq).2
    exact ofJson?_eq_some_iff.2 ⟨kind, w, htag, hd.ofKind?_eq hfound' hstands⟩
  · cases hnull

/-- What is read as a declaration spells it. -/
theorem spelled_of_ofJson? (hv : v.KeysOnce) (h : ofJson? v = some d) : d.Spelled v := by
  obtain ⟨kind, w, htag, h⟩ := ofJson?_eq_some_iff.1 h
  obtain ⟨fields, found, hd, hfound, hstands⟩ := exists_fields_of_ofKind? (htag.keysOnce hv) h
  have hfields : v.fields? ((("kind", Value.string kind) :: fields).map Prod.fst) =
      some (some (.string kind) :: found) := by
    rw [List.map_cons, htag.fields?_cons, hfound, Option.map_some]
  exact ⟨kind, fields, hd, hv.spells hd.nodup_keys hfields (.cons (.inl rfl) hstands)⟩

/-- A declaration is written as an object of its fields. -/
theorem exists_toJson_eq (d : Declaration) : ∃ kind fields, d.Fields kind fields ∧
    d.toJson = .object (("kind", .string kind) :: fields) := by
  cases d with
  | typedef name underlying => exact ⟨_, _, .typedef name underlying, rfl⟩
  | enum name enumerators => exact ⟨_, _, .enum name enumerators, rfl⟩
  | struct decl =>
    have hmembers : List.Forall₂ (fun v m => Member.Spelled m v)
        (decl.members.map Member.toJson) decl.members := by
      rw [List.forall₂_map_left_iff, List.forall₂_same]
      exact fun m _ => Value.spells_object m.entries
    exact ⟨_, _, .struct hmembers, rfl⟩

theorem toJson_spelled (d : Declaration) : d.Spelled d.toJson := by
  obtain ⟨kind, fields, hd, heq⟩ := d.exists_toJson_eq
  exact ⟨kind, fields, hd, heq ▸ Value.spells_object _⟩

theorem keysOnce_toJson (d : Declaration) : d.toJson.KeysOnce := by
  cases d with
  | typedef name underlying =>
    exact .object (by simp [Table.keys]) (by simp [Value.KeysOnce.string])
  | enum name enumerators =>
    have henumerators : (Value.array (enumerators.map .string)).KeysOnce :=
      .array (List.forall_mem_map.2 fun e _ => .string e)
    exact .object (by simp [Table.keys]) (by simp [Value.KeysOnce.string, henumerators])
  | struct decl =>
    have hmembers : (Value.array (decl.members.map Member.toJson)).KeysOnce :=
      .array (List.forall_mem_map.2 fun m _ => m.keysOnce_toJson)
    exact .object (by simp [Table.keys, StructDecl.entries]) (by
      simp [StructDecl.entries, Value.KeysOnce.string, Value.keysOnce_ofOption, hmembers])

/-- A declaration is read back from the JSON that it is written as, also from the text of that, and
from every other spelling of it; and what is read as a declaration, each key once in its objects, is
one of its spellings. -/
theorem reads_spellings (d : Declaration) :
    ofJson? d.toJson = some d ∧
    (Value.parse? d.toJson.compact).bind ofJson? = some d ∧
    (Value.parse? d.toJson.pretty).bind ofJson? = some d ∧
    d.Spelled d.toJson ∧ (∀ v, d.Spelled v → ofJson? v = some d) ∧
    ∀ v, v.KeysOnce → ofJson? v = some d → d.Spelled v := by
  have hread : ofJson? d.toJson = some d := d.toJson_spelled.ofJson?_eq
  have hparse {write : Json.Piece → List Char} (hwrite : Json.Piece.Writes write) :
      (Value.parse? (String.ofList ((d.toJson.pieces 0).flatMap write))).bind ofJson? = some d := by
    rw [Value.parse?_write hwrite d.keysOnce_toJson 0, Option.bind_some, hread]
  exact ⟨hread, hparse Json.Piece.writes_compact, hparse Json.Piece.writes_pretty,
    d.toJson_spelled, fun v h => h.ofJson?_eq, fun v hv h => spelled_of_ofJson? hv h⟩

/-- A member and a structure with keys out of order, a key too many and nulls left out; the other
member of the structure is an array. -/
def scatteredMember : Value :=
  .object [("non_basic_type_name", .string "P::T_Name"), ("kind", .bool true),
    ("name", .string "A_Name")]

def scatteredUser : Value :=
  .object [("members", .array [.array [.string "A_Id", .string "int32", .null, .string "8", .null],
      scatteredMember]),
    ("note", .array [.null]), ("kind", .string "struct"), ("name", .string "P::C_User")]

theorem reads_spellings_scattered :
    let d := Declaration.struct ⟨"P::C_User", none, [⟨"A_Id", some "int32", none, some "8", none⟩,
      ⟨"A_Name", none, some "P::T_Name", none, none⟩]⟩
    d.Spelled scatteredUser ∧ ofJson? scatteredUser = some d := by
  intro d
  have hmember : Member.Spelled ⟨"A_Name", none, some "P::T_Name", none, none⟩ scatteredMember :=
    .object <| Value.scatter_of_standsFor (by decide) (by decide) <| by
      simp [Member.entries, Value.StandsFor, Value.ofOption, List.lookup_cons]
  have hd : d.Spelled scatteredUser :=
    ⟨_, _, .struct (.cons .array (.cons hmember .nil)),
      .object <| Value.scatter_of_standsFor (by decide) (by decide) <| by
        simp [Value.StandsFor, Value.ofOption, List.lookup_cons, Member.entries]⟩
  exact ⟨hd, (reads_spellings d).2.2.2.2.1 scatteredUser hd⟩

end Declaration

end TypeCorpus
