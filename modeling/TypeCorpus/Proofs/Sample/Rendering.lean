import Mathlib.Data.List.Forall2
import TypeCorpus.Proofs.Json.Tree
import TypeCorpus.Proofs.Sample.Expansion
import TypeCorpus.Sample.Json

/-! The renderings of a sample. Laying out a sample directly and laying out its JSON value give the
same pieces, one for one, so the two texts agree in every layout. What a sample is written as is
read back as its JSON value, numbers to the nearest floating point number, because its records hold
each field once; and the layouts differ only in blanks outside of strings. Samples that are
synthesized have records of this kind. -/

namespace TypeCorpus.Sample

open Json (Value Piece)

/-! ### One layout for a sample and its value -/

theorem fieldsToJson_eq (fields : List (String × Sample)) :
    fieldsToJson fields = fields.map fun f => (f.1, f.2.toJson) := by
  induction fields with
  | nil => rfl
  | cons f fields ih => rw [fieldsToJson, ih, List.map_cons]

theorem itemsToJson_eq (items : List Sample) : itemsToJson items = items.map toJson := by
  induction items with
  | nil => rfl
  | cons s items ih => rw [itemsToJson, ih, List.map_cons]

/-- The members of a record's value are its fields in order. -/
theorem toJson_record (fields : List (String × Sample)) :
    (record fields).toJson = .object (fields.map fun f => (f.1, f.2.toJson)) := by
  rw [toJson, fieldsToJson_eq]

theorem toJson_list (items : List Sample) : (list items).toJson = .array (items.map toJson) := by
  rw [toJson, itemsToJson_eq]

theorem fieldPieces_eq (depth : ℕ) (fields : List (String × Sample)) :
    fieldPieces depth fields = fields.map fun f => Json.memberPieces f.1 (f.2.pieces depth) := by
  induction fields with
  | nil => rfl
  | cons f fields ih => rw [fieldPieces, ih, List.map_cons]

theorem itemPieces_eq (depth : ℕ) (items : List Sample) :
    itemPieces depth items = items.map (pieces depth) := by
  induction items with
  | nil => rfl
  | cons s items ih => rw [itemPieces, ih, List.map_cons]

/-- A sample is laid out as its value is. -/
theorem pieces_eq (s : Sample) (depth : ℕ) : s.pieces depth = s.toJson.pieces depth := by
  induction s using holds_induction generalizing depth with
  | step s ih =>
    cases s with
    | record fields =>
      have hfields : fieldPieces (depth + 1) fields =
          Value.memberPieces (depth + 1) (fields.map fun f => (f.1, f.2.toJson)) := by
        rw [fieldPieces_eq, Value.memberPieces_eq, List.map_map]
        refine List.map_congr_left fun f hf => ?_
        rw [ih f.2 (List.mem_map_of_mem hf)]
        rfl
      rw [pieces, toJson_record, Value.pieces, hfields]
    | list items =>
      have hitems : itemPieces (depth + 1) items =
          Value.itemPieces (depth + 1) (items.map toJson) := by
        rw [itemPieces_eq, Value.itemPieces_eq, List.map_map]
        exact List.map_congr_left fun t ht => ih t ht (depth + 1)
      rw [pieces, toJson_list, Value.pieces, hitems]
    | float x => cases x <;> rfl
    | _ => rfl

/-! ### Records with each field once -/

/-- Every record in a sample holds each of its fields once. -/
def KeysOnce (s : Sample) : Prop :=
  ∀ fields, s.Contains (record fields) → (Table.keys fields).Nodup

variable {s : Sample}

theorem KeysOnce.of_holds {t : Sample} (h : s.KeysOnce) (ht : s.Holds t) : t.KeysOnce :=
  fun fields hfields => h fields (Relation.ReflTransGen.head ht hfields)

theorem keysOnce_record {fields : List (String × Sample)} (hkeys : (Table.keys fields).Nodup)
    (h : ∀ f ∈ fields, f.2.KeysOnce) : (record fields).KeysOnce := by
  intro fields' hcontains
  rcases contains_iff.1 hcontains with heq | ⟨child, hchild, hrest⟩
  · cases heq
    exact hkeys
  · obtain ⟨f, hf, rfl⟩ := List.mem_map.1 hchild
    exact h f hf fields' hrest

theorem keysOnce_list {items : List Sample} (h : ∀ t ∈ items, t.KeysOnce) :
    (list items).KeysOnce := by
  intro fields hcontains
  rcases contains_iff.1 hcontains with heq | ⟨child, hchild, hrest⟩
  · cases heq
  · exact h child hchild fields hrest

theorem IsLeaf.keysOnce (h : s.IsLeaf) : s.KeysOnce := by
  intro fields hcontains
  have := h.eq_of_contains hcontains
  subst this
  cases h.1

/-- The value of a sample that holds each field once has each key once. -/
theorem KeysOnce.toJson (h : s.KeysOnce) : s.toJson.KeysOnce := by
  induction s using holds_induction with
  | step s ih =>
    cases s with
    | record fields =>
      have hkeys := h fields .refl
      rw [toJson_record]
      refine .object ?_ (List.forall_mem_map.2 fun f hf => ?_)
      · simpa [Table.keys, Function.comp_def] using hkeys
      · have hholds : (record fields).Holds f.2 := List.mem_map_of_mem hf
        exact ih f.2 hholds (h.of_holds hholds)
    | list items =>
      rw [toJson_list]
      exact .array (List.forall_mem_map.2 fun t ht => ih t ht (h.of_holds ht))
    | float x => cases x <;> constructor
    | _ => constructor

/-! ### The texts agree -/

/-- What a sample is shown as: its own kind of value, null for a number that is not finite, and for
a record its fields in order. -/
inductive ShownAs : Sample → Value → Prop
  | bool (b : Bool) : ShownAs (bool b) (.bool b)
  | int (i : ℤ) : ShownAs (int i) (.number (.integer i))
  | finite (x : Number.Finite) : ShownAs (float (.finite x)) (.number (.real x))
  | notFinite {x : Number.Binary64} (h : ∀ y, x ≠ .finite y) : ShownAs (float x) .null
  | text {s : Sample} {t : String} (h : s.text? = some t) : ShownAs s (.string t)
  | record {fields : Table String Sample} {members : Table String Value}
      (hkeys : fields.keys = members.keys) (h : List.Forall₂ ShownAs fields.values members.values) :
      ShownAs (record fields) (.object members)
  | list {items : List Sample} {values : List Value} (h : List.Forall₂ ShownAs items values) :
      ShownAs (list items) (.array values)

theorem shownAs_toJson (s : Sample) : s.ShownAs s.toJson := by
  induction s using holds_induction with
  | step s ih =>
    cases s with
    | record fields =>
      rw [toJson_record]
      refine .record (by simp [Table.keys, Function.comp_def]) ?_
      simp only [Table.values, List.map_map, List.forall₂_map_left_iff, List.forall₂_map_right_iff]
      exact List.forall₂_same.2 fun f hf => ih f.2 (List.mem_map_of_mem hf)
    | list items =>
      rw [toJson_list]
      exact .list (List.forall₂_map_right_iff.2 (List.forall₂_same.2 ih))
    | bool b => exact .bool b
    | int i => exact .int i
    | float x =>
      cases x with
      | finite x => exact .finite x
      | _ => exact .notFinite (by simp)
    | _ => exact .text rfl

theorem compact_eq (s : Sample) : s.compact = s.toJson.compact := by
  rw [compact, Value.compact, pieces_eq]

/-- The text of a sample is that of its JSON value, which shows every part of the sample and the
fields of its records in order. Both texts are read back as that value, and the compact one is what
the blanks outside of strings leave of the other. The reader is that of the JSON standard, which
takes a number for the nearest double and a text of any depth; a deserializer that rounds some long
decimals differently, or that stops at a depth of 128, is not spoken of. -/
theorem renderings_agree (s : Sample) (hs : s.KeysOnce) :
    s.compact = s.toJson.compact ∧ s.ShownAs s.toJson ∧
    Value.parse? s.compact = some s.toJson ∧ Value.parse? s.pretty = some s.toJson ∧
    Json.withoutBlanks false s.pretty.toList = s.compact.toList := by
  have hread {write : Piece → List Char} (hwrite : Piece.Writes write) :
      Value.parse? (String.ofList ((s.pieces 0).flatMap write)) = some s.toJson := by
    rw [pieces_eq]
    exact Value.parse?_write hwrite hs.toJson 0
  refine ⟨s.compact_eq, s.shownAs_toJson, hread Json.Piece.writes_compact,
    hread Json.Piece.writes_pretty, ?_⟩
  rw [pretty, compact, String.toList_ofList, String.toList_ofList]
  exact Json.withoutBlanks_flatMap Json.Piece.writes_pretty (s.pieces 0)

/-- A record with a number that is not finite, an empty record and a text with a quote in it. -/
def mixedRecord : Sample :=
  record [("Speed", float (.finite .one)), ("Ratio", float .notANumber), ("Empty", record []),
    ("Tags", list [text "a \" b"]), ("Count", int (-3))]

theorem keysOnce_mixedRecord : mixedRecord.KeysOnce := by
  have htags : (list [text "a \" b"]).KeysOnce :=
    keysOnce_list fun t ht => List.mem_singleton.1 ht ▸ IsLeaf.keysOnce ⟨rfl, rfl⟩
  have hempty : (record []).KeysOnce := keysOnce_record List.nodup_nil (by simp)
  refine keysOnce_record (by decide) ?_
  simp only [List.forall_mem_cons, List.not_mem_nil, false_imp_iff, implies_true, and_true]
  exact ⟨IsLeaf.keysOnce ⟨rfl, rfl⟩, IsLeaf.keysOnce ⟨rfl, rfl⟩, hempty, htags,
    IsLeaf.keysOnce ⟨rfl, rfl⟩⟩

theorem renderings_agree_mixedRecord :
    mixedRecord.KeysOnce ∧
    mixedRecord.compact = "\x7b\"Speed\":1.0,\"Ratio\":null,\"Empty\":\x7b\x7d," ++
      "\"Tags\":[\"a \\\" b\"],\"Count\":-3\x7d" ∧
    mixedRecord.toJson = .object [("Speed", .number (.real .one)), ("Ratio", .null),
      ("Empty", .object []), ("Tags", .array [.string "a \" b"]),
      ("Count", .number (.integer (-3)))] ∧
    mixedRecord.ShownAs mixedRecord.toJson ∧
    Value.parse? mixedRecord.compact = some mixedRecord.toJson ∧
    Value.parse? mixedRecord.pretty = some mixedRecord.toJson ∧
    Json.withoutBlanks false mixedRecord.pretty.toList = mixedRecord.compact.toList := by
  obtain ⟨-, hshown, hcompact, hpretty, hblanks⟩ :=
    renderings_agree mixedRecord keysOnce_mixedRecord
  exact ⟨keysOnce_mixedRecord, by decide +kernel, rfl, hshown, hcompact, hpretty, hblanks⟩

/-! ### Synthesized samples -/

theorem KeysOnce.labelled (h : s.KeysOnce) (name : String) : (s.labelled name).KeysOnce := by
  induction s using holds_induction with
  | step s ih =>
    cases s with
    | list items =>
      rw [Sample.labelled, itemsLabelled_eq_map]
      exact keysOnce_list (List.forall_mem_map.2 fun t ht => ih t ht (h.of_holds ht))
    | genericString => exact IsLeaf.keysOnce ⟨rfl, rfl⟩
    | _ => exact h

theorem KeysOnce.repeatedIf (h : s.KeysOnce) (isRepeated : Bool) :
    (Sample.repeatedIf isRepeated s).KeysOnce := by
  cases isRepeated with
  | false => exact h
  | true => exact keysOnce_list fun t ht => List.mem_singleton.1 ht ▸ h

theorem keysOnce_ofMember {scalar : String → Traced CycleNotice Sample}
    (h : ∀ ref, (scalar ref).value.KeysOnce) (m : Member) : (ofMember scalar m).value.KeysOnce := by
  simp only [ofMember]
  split
  · next ref _ => exact ((h ref).repeatedIf m.isRepeated).labelled m.name
  · exact IsLeaf.keysOnce ⟨rfl, rfl⟩

theorem nodup_keys_ofStruct {scalar : String → Traced CycleNotice Sample}
    (h : ∀ ref, (scalar ref).value.KeysOnce) (decl : StructDecl) :
    (Table.keys (ofStruct scalar decl).value).Nodup := by
  rw [ofStruct_eq, Traced.value_bind, value_writeAll]
  refine Table.nodup_keys_extend ?_ _
  simp only [ofBase]
  split
  · next ref href =>
    rw [Traced.value_map]
    cases hs : (scalar ref).value with
    | record fields =>
      have := h ref
      rw [hs] at this
      exact this fields .refl
    | _ => exact List.nodup_nil
  · exact List.nodup_nil

end TypeCorpus.Sample

namespace TypeCorpus.Registry

theorem keysOnce_scalarSample (r : Registry) (expanding : List String) (ref : String) :
    (r.scalarSample expanding ref).value.KeysOnce := by
  induction expanding, ref using expansion_induction (r := r) with
  | step expanding ref ih =>
    rw [scalarSample_eq_outcome]
    cases ho : r.outcome expanding ref with
    | settled s notices => exact (isLeaf_of_settled ho).keysOnce
    | expand decl =>
      refine Sample.keysOnce_record (Sample.nodup_keys_ofStruct (ih decl ho) decl) ?_
      refine Sample.forall_mem_ofStruct decl (fun base _ fields hfields f hf => ?_)
        (fun m _ => Sample.keysOnce_ofMember (ih decl ho) m)
      exact (hfields ▸ ih decl ho base).of_holds (List.mem_map_of_mem hf)

/-- What is synthesized has each field once. -/
theorem keysOnce_sample (r : Registry) (ref : String) (isRepeated : Bool) :
    (r.sample ref isRepeated).value.KeysOnce := by
  rw [sample, Traced.value_map]
  exact (r.keysOnce_scalarSample [] ref).repeatedIf isRepeated

end TypeCorpus.Registry
