import TypeCorpus.Proofs.Sample.Expansion

/-! The shape of samples. A place in a sample is told by the fields and items to go through. In what
is synthesized a list holds one item, which is no list; a generic string stands only outside of
records, and a text only in a field, whose label it is; an enumerator is the first of a registered
enumeration, and a truth value or a number the one of its family. `Shaped` follows how a sample is
built: a value is shaped for no field or for a field of some name, and may or may not be a list. A
label takes a value for no field to one for the field, so each member's value is shaped for its own
field, and those of a base stay shaped for theirs. -/

namespace TypeCorpus

namespace Sample

/-! ### Places -/

/-- A step into a sample: to the value of a field of a record, or to an item of a list. -/
inductive Step where
  | field (key : String)
  | item

/-- What stands at a place of a sample. -/
inductive At : Sample → List Step → Sample → Prop
  | here (s : Sample) : At s [] s
  | field {fields : List (String × Sample)} {key : String} {value s : Sample} {place : List Step}
      (mem : (key, value) ∈ fields) (inside : At value place s) :
      At (record fields) (.field key :: place) s
  | item {items : List Sample} {value s : Sample} {place : List Step} (mem : value ∈ items)
      (inside : At value place s) : At (list items) (.item :: place) s

variable {s t : Sample} {place : List Step} {name : String}

/-- A label leaves every enumerator at its place, and makes none. -/
theorem at_labelled_enumerator_iff {first : String} :
    (s.labelled name).At place (enumerator first) ↔ s.At place (enumerator first) := by
  induction s using holds_induction generalizing place with
  | step s ih =>
    cases s with
    | list items =>
      rw [labelled, itemsLabelled_eq_map]
      constructor
      · rintro (_ | _ | ⟨mem, inside⟩)
        obtain ⟨item, hitem, rfl⟩ := List.mem_map.1 mem
        exact .item hitem ((ih item hitem).1 inside)
      · rintro (_ | _ | ⟨mem, inside⟩)
        exact .item (List.mem_map_of_mem mem) ((ih _ mem).2 inside)
    | genericString =>
      constructor <;> rintro ⟨⟩
    | _ => rfl

/-! ### Shapes -/

/-- A value that may stand anywhere: the one of a primitive family other than text, the first
enumerator of a registered enumeration, or a placeholder. -/
inductive Plain (r : Registry) : Sample → Prop
  | bool : Plain r (bool false)
  | float : Plain r (float (.finite .one))
  | int : Plain r (int 1)
  | enumerator {name first : String} {rest : List String}
      (h : r.enums.get? name = some (first :: rest)) : Plain r (enumerator first)
  | unknownEnum : Plain r unknownEnum
  | unknownType (ref : String) : Plain r (unknownType ref)
  | recursiveType (ref : String) : Plain r (recursiveType ref)

/-- A value with the shape of what is synthesized, for the field of a name or for none, where a list
may stand or where none may. -/
inductive Shaped (r : Registry) : (mayBeList : Bool) → (field : Option String) → Sample → Prop
  | plain {mayBeList : Bool} {field : Option String} {s : Sample} (h : Plain r s) :
      Shaped r mayBeList field s
  | genericString {mayBeList : Bool} : Shaped r mayBeList none genericString
  | text {mayBeList : Bool} (field : String) :
      Shaped r mayBeList (some field) (text (memberLabel field))
  | record {mayBeList : Bool} {field : Option String} {fields : List (String × Sample)}
      (h : ∀ f ∈ fields, Shaped r true (some f.1) f.2) : Shaped r mayBeList field (record fields)
  | list {field : Option String} {item : Sample} (h : Shaped r false field item) :
      Shaped r true field (list [item])

variable {r : Registry} {mayBeList : Bool} {field : Option String}

theorem Plain.labelled_eq (h : Plain r s) (name : String) : s.labelled name = s := by
  cases h <;> rfl

/-- A label makes a value for no field one for the field of its name. -/
theorem Shaped.labelled (h : Shaped r mayBeList none s) (name : String) :
    Shaped r mayBeList (some name) (s.labelled name) := by
  generalize hfield : none = field at h
  induction h with
  | plain h =>
    rw [h.labelled_eq]
    exact .plain h
  | genericString => exact .text name
  | text field => cases hfield
  | record h => exact .record h
  | list h ih =>
    rw [Sample.labelled, itemsLabelled_eq_map]
    exact .list (ih hfield)

theorem Shaped.of_record {fields : List (String × Sample)}
    (h : Shaped r mayBeList field (.record fields)) :
    ∀ f ∈ fields, Shaped r true (some f.1) f.2 := by
  cases h with
  | plain h => cases h
  | record h => exact h

theorem Shaped.of_list {items : List Sample} (h : Shaped r mayBeList field (.list items)) :
    mayBeList = true ∧ ∃ item, items = [item] ∧ Shaped r false field item := by
  cases h with
  | plain h => cases h
  | list h => exact ⟨rfl, _, rfl, h⟩

/-- Where a list may stand, so may a value that is none. -/
theorem Shaped.mono (h : Shaped r false field s) : Shaped r true field s := by
  cases h with
  | plain h => exact .plain h
  | genericString => exact .genericString
  | text field => exact .text field
  | record h => exact .record h

theorem Shaped.repeatedIf (h : Shaped r false field s) (isRepeated : Bool) :
    Shaped r true field (Sample.repeatedIf isRepeated s) := by
  cases isRepeated with
  | false => exact h.mono
  | true => exact .list h

theorem shaped_ofMember {scalar : String → Traced CycleNotice Sample}
    (h : ∀ ref, Shaped r false none (scalar ref).value) (m : Member) :
    Shaped r true (some m.name) (ofMember scalar m).value := by
  simp only [ofMember]
  split
  · next ref _ => exact ((h ref).repeatedIf m.isRepeated).labelled m.name
  · exact .plain (.unknownType "")

/-! ### What stands where -/

theorem Shaped.of_at (h : Shaped r mayBeList field s) (hat : s.At place t) :
    ∃ mayBeList' field', Shaped r mayBeList' field' t := by
  induction hat generalizing mayBeList field with
  | here s => exact ⟨_, _, h⟩
  | field mem inside ih => exact ih (h.of_record _ mem)
  | item mem inside ih =>
    obtain ⟨-, item, rfl, hitem⟩ := h.of_list
    exact ih (List.mem_singleton.1 mem ▸ hitem)

/-- A generic string stands in no field: it is the value, or the item of the value. -/
theorem Shaped.of_at_genericString (h : Shaped r mayBeList field s)
    (hat : s.At place .genericString) :
    field = none ∧ (place = [] ∨ mayBeList = true ∧ place = [.item]) := by
  generalize ht : Sample.genericString = t at hat
  induction hat generalizing mayBeList field with
  | here s =>
    subst ht
    cases h with
    | plain h => cases h
    | genericString => exact ⟨rfl, .inl rfl⟩
  | field mem inside ih =>
    obtain ⟨hnone, -⟩ := ih (h.of_record _ mem) ht
    cases hnone
  | item mem inside ih =>
    obtain ⟨rfl, item, rfl, hitem⟩ := h.of_list
    obtain ⟨hnone, rfl | ⟨hlist, -⟩⟩ := ih (List.mem_singleton.1 mem ▸ hitem) ht
    · exact ⟨hnone, .inr ⟨rfl, rfl⟩⟩
    · cases hlist

/-- A place that is the value of a field, or the item of the list that is its value. -/
def RightIn (key : String) (place : List Step) : Prop :=
  ∃ before, place = before ++ [.field key] ∨ place = before ++ [.field key, .item]

theorem RightIn.cons {key : String} (h : RightIn key place) (step : Step) :
    RightIn key (step :: place) := by
  obtain ⟨before, rfl | rfl⟩ := h
  · exact ⟨step :: before, .inl rfl⟩
  · exact ⟨step :: before, .inr rfl⟩

/-- A text is the label of the field that it stands in, inside the value or around it. -/
theorem Shaped.of_at_text {x : String} (h : Shaped r mayBeList field s)
    (hat : s.At place (.text x)) :
    ∃ key, x = memberLabel key ∧ (RightIn key place ∨
      field = some key ∧ (place = [] ∨ mayBeList = true ∧ place = [.item])) := by
  generalize ht : Sample.text x = t at hat
  induction hat generalizing mayBeList field with
  | here s =>
    subst ht
    cases h with
    | plain h => cases h
    | text key => exact ⟨key, rfl, .inr ⟨rfl, .inl rfl⟩⟩
  | field mem inside ih =>
    obtain ⟨key, rfl, hright | ⟨hkey, rfl | ⟨-, rfl⟩⟩⟩ := ih (h.of_record _ mem) ht
    · exact ⟨key, rfl, .inl (hright.cons _)⟩
    · cases hkey
      exact ⟨_, rfl, .inl ⟨[], .inl rfl⟩⟩
    · cases hkey
      exact ⟨_, rfl, .inl ⟨[], .inr rfl⟩⟩
  | item mem inside ih =>
    obtain ⟨rfl, item, rfl, hitem⟩ := h.of_list
    obtain ⟨key, rfl, hright | ⟨hkey, rfl | ⟨hlist, -⟩⟩⟩ :=
      ih (List.mem_singleton.1 mem ▸ hitem) ht
    · exact ⟨key, rfl, .inl (hright.cons _)⟩
    · exact ⟨key, rfl, .inr ⟨hkey, .inr ⟨rfl, rfl⟩⟩⟩
    · cases hlist

/-- A value that fits its place in the sample of a reference, which may be a list of one. -/
structure Fits (r : Registry) (isRepeated : Bool) (place : List Step) (s : Sample) : Prop where
  list : ∀ items, s = .list items → ∃ item, items = [item] ∧ ∀ items', item ≠ .list items'
  genericString : s = .genericString → place = if isRepeated then [.item] else []
  text : ∀ x, s = .text x → ∃ key, x = memberLabel key ∧ RightIn key place
  enumerator : ∀ first, s = .enumerator first →
    ∃ name rest, r.enums.get? name = some (first :: rest)
  bool : ∀ b, s = .bool b → b = false
  float : ∀ x, s = .float x → x = .finite .one
  int : ∀ i, s = .int i → i = 1

theorem Shaped.place_of_genericString (h : Shaped r false none s) {isRepeated : Bool}
    (hat : (Sample.repeatedIf isRepeated s).At place .genericString) :
    place = if isRepeated then [.item] else [] := by
  cases isRepeated with
  | false =>
    obtain ⟨-, rfl | ⟨hlist, -⟩⟩ := h.of_at_genericString hat
    · rfl
    · cases hlist
  | true =>
    obtain ⟨-, rfl | ⟨-, rfl⟩⟩ := (h.repeatedIf true).of_at_genericString hat
    · cases hat
    · rfl

/-- Whatever stands in a value for no field, or in a list of it, fits its place. -/
theorem Shaped.fits (h : Shaped r false none s) {isRepeated : Bool}
    (hat : (Sample.repeatedIf isRepeated s).At place t) : t.Fits r isRepeated place := by
  obtain ⟨mayBeList, field, ht⟩ := (h.repeatedIf isRepeated).of_at hat
  constructor
  · rintro items rfl
    obtain ⟨-, item, rfl, hitem⟩ := ht.of_list
    refine ⟨item, rfl, ?_⟩
    rintro items rfl
    cases hitem.of_list.1
  · rintro rfl
    exact h.place_of_genericString hat
  · rintro x rfl
    obtain ⟨key, hx, hright | ⟨hkey, -⟩⟩ := (h.repeatedIf isRepeated).of_at_text hat
    · exact ⟨key, hx, hright⟩
    · cases hkey
  · rintro first rfl
    cases ht with
    | plain h =>
      cases h with
      | enumerator h => exact ⟨_, _, h⟩
  · rintro b rfl
    cases ht with
    | plain h => cases h; rfl
  · rintro x rfl
    cases ht with
    | plain h => cases h; rfl
  · rintro i rfl
    cases ht with
    | plain h => cases h; rfl

end Sample

namespace Registry

open Sample (Shaped)

variable {r : Registry} {expanding : List String} {ref : String}

theorem shaped_of_settled {s : Sample} {notices : List CycleNotice}
    (h : r.outcome expanding ref = .settled s notices) : Shaped r false none s := by
  obtain rfl | rfl | ⟨name, enumerators, hname, rfl⟩ | ⟨p, rfl⟩ := settled_cases h
  · exact .plain (.unknownType ref)
  · exact .plain (.recursiveType ref)
  · cases enumerators with
    | nil => exact .plain .unknownEnum
    | cons first rest => exact .plain (.enumerator hname)
  · cases p with
    | boolean => exact .plain .bool
    | float => exact .plain .float
    | integer => exact .plain .int
    | text => exact .genericString

/-- What is synthesized for one value of a reference is shaped for no field, and no list. -/
theorem shaped_scalarSample (r : Registry) (expanding : List String) (ref : String) :
    Shaped r false none (r.scalarSample expanding ref).value := by
  induction expanding, ref using expansion_induction (r := r) with
  | step expanding ref ih =>
    rw [scalarSample_eq_outcome]
    cases ho : r.outcome expanding ref with
    | settled s notices => exact shaped_of_settled ho
    | expand decl =>
      refine .record <|
        Sample.forall_mem_ofStruct decl (fun base _ fields hfields => ?_) fun m _ => ?_
      · exact (hfields ▸ ih decl ho base).of_record
      · exact Sample.shaped_ofMember (ih decl ho) m

/-- Everything in a sample fits its place. A list holds one item, which is no list; a generic string
is the sample or the item of the sample; a text stands right in a field, and is its label; an
enumerator is the first of a registered enumeration, and truth values and numbers are those of their
families. And each member has its enumerators where the sample of its type has them, so that none is
given a label. -/
theorem sample_fits (r : Registry) (ref : String) (isRepeated : Bool) :
    (∀ place s, (r.sample ref isRepeated).value.At place s → s.Fits r isRepeated place) ∧
    ∀ expanding (m : Member) t, m.typeRef? = some t → ∀ place first,
      (Sample.ofMember (r.scalarSample expanding) m).value.At place (.enumerator first) ↔
        (Sample.repeatedIf m.isRepeated (r.scalarSample expanding t).value).At place
          (.enumerator first) := by
  constructor
  · intro place s hat
    rw [sample, Traced.value_map] at hat
    exact (r.shaped_scalarSample [] ref).fits hat
  · intro expanding m t ht place first
    simp only [Sample.ofMember, ht, Traced.value_map]
    exact Sample.at_labelled_enumerator_iff

end Registry

end TypeCorpus
