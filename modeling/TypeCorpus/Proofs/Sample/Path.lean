import Mathlib.Data.List.Chain
import Mathlib.Logic.Relation
import TypeCorpus.Sample.Basic

/-! Ways down a sample, from each value to one that it holds, and the records met on them. A record
adds one to what its fields come to, a list nothing to what its items do, and a member's label
changes neither. Nor does a label bring a mark of recursion into a sample that contains none. -/

namespace TypeCorpus.Sample

def isRecord : Sample → Bool
  | record _ => true
  | _ => false

/-- What a sample holds directly: the values of its fields, or its items. -/
def children : Sample → List Sample
  | record fields => fields.map Prod.snd
  | list items => items
  | _ => []

/-- A sample holds another directly. -/
def Holds (s t : Sample) : Prop := t ∈ s.children

theorem sizeOf_lt_of_holds {s t : Sample} (h : s.Holds t) : sizeOf t < sizeOf s := by
  cases s with
  | record fields =>
    obtain ⟨⟨name, value⟩, he, rfl⟩ := List.mem_map.1 h
    have := List.sizeOf_lt_of_mem he
    simp only [Prod.mk.sizeOf_spec, record.sizeOf_spec] at this ⊢
    omega
  | list items =>
    have hmem : t ∈ items := h
    have := List.sizeOf_lt_of_mem hmem
    simp only [list.sizeOf_spec]
    omega
  | _ => cases h

/-- Induction down a sample: a property that each sample has with what it holds. -/
@[elab_as_elim]
theorem holds_induction {motive : Sample → Prop}
    (step : ∀ s, (∀ t, s.Holds t → motive t) → motive s) (s : Sample) : motive s :=
  step s fun t _ht => holds_induction step t
termination_by sizeOf s
decreasing_by exact sizeOf_lt_of_holds _ht

/-- No way down from the sample meets more than `n` records. -/
def RecordsWithin (n : ℕ) (s : Sample) : Prop :=
  ∀ path, (s :: path).IsChain Holds → (s :: path).countP isRecord ≤ n

variable {n : ℕ} {s : Sample}

theorem RecordsWithin.mono {m : ℕ} (h : s.RecordsWithin n) (hnm : n ≤ m) : s.RecordsWithin m :=
  fun path hpath => (h path hpath).trans hnm

/-- The records below a sample, one step down. -/
theorem recordsWithin_iff : s.RecordsWithin n ↔
    s.isRecord.toNat ≤ n ∧ ∀ t ∈ s.children, t.RecordsWithin (n - s.isRecord.toNat) := by
  have hcount : ∀ path : List Sample,
      (s :: path).countP isRecord = s.isRecord.toNat + path.countP isRecord := by
    intro path
    cases hs : s.isRecord <;> simp [hs, Nat.add_comm]
  constructor
  · intro h
    refine ⟨?_, fun t ht path hpath => ?_⟩
    · have := h [] (List.isChain_singleton s)
      rwa [hcount] at this
    · have := h (t :: path) (List.isChain_cons_cons.2 ⟨ht, hpath⟩)
      rw [hcount] at this
      omega
  · rintro ⟨hs, h⟩ path hpath
    rw [hcount]
    cases path with
    | nil => exact hs
    | cons t path =>
      obtain ⟨ht, hrest⟩ := List.isChain_cons_cons.1 hpath
      have := h t ht path hrest
      omega

theorem RecordsWithin.of_holds {t : Sample} (h : s.RecordsWithin n) (ht : s.Holds t) :
    t.RecordsWithin n :=
  ((recordsWithin_iff.1 h).2 t ht).mono (Nat.sub_le n _)

theorem recordsWithin_record_iff {fields : List (String × Sample)} :
    (record fields).RecordsWithin (n + 1) ↔ ∀ e ∈ fields, e.2.RecordsWithin n := by
  rw [recordsWithin_iff]
  simp only [isRecord, children, Bool.toNat_true, Nat.add_sub_cancel, List.forall_mem_map]
  exact and_iff_right (Nat.le_add_left 1 n)

theorem recordsWithin_list_iff {items : List Sample} :
    (list items).RecordsWithin n ↔ ∀ t ∈ items, t.RecordsWithin n := by
  rw [recordsWithin_iff]
  simp [isRecord, children]

/-- A sample that is neither a record nor a list. -/
def IsLeaf (s : Sample) : Prop := s.isRecord = false ∧ s.children = []

theorem IsLeaf.recordsWithin (h : s.IsLeaf) (n : ℕ) : s.RecordsWithin n := by
  rw [recordsWithin_iff, h.1, h.2]
  simp

/-- A label stands for a string and is put inside lists only. -/
theorem RecordsWithin.labelled (h : s.RecordsWithin n) (name : String) :
    (s.labelled name).RecordsWithin n := by
  induction s using holds_induction with
  | step s ih =>
    cases s with
    | list items =>
      rw [Sample.labelled, itemsLabelled_eq_map, recordsWithin_list_iff]
      intro t ht
      obtain ⟨item, hitem, rfl⟩ := List.mem_map.1 ht
      exact ih item hitem (recordsWithin_list_iff.1 h item hitem)
    | genericString => exact IsLeaf.recordsWithin ⟨rfl, rfl⟩ n
    | _ => exact h

/-! ### What a sample contains -/

/-- A sample contains another, at whatever depth. -/
def Contains (s t : Sample) : Prop := Relation.ReflTransGen Holds s t

theorem contains_iff {t : Sample} :
    s.Contains t ↔ s = t ∨ ∃ child ∈ s.children, child.Contains t :=
  Relation.ReflTransGen.cases_head_iff

theorem IsLeaf.eq_of_contains {t : Sample} (h : s.IsLeaf) (ht : s.Contains t) : s = t := by
  refine (contains_iff.1 ht).resolve_right ?_
  rintro ⟨child, hchild, -⟩
  rw [h.2] at hchild
  cases hchild

theorem contains_recursiveType_record_iff {fields : List (String × Sample)} {ref : String} :
    (record fields).Contains (recursiveType ref) ↔
      ∃ e ∈ fields, e.2.Contains (recursiveType ref) := by
  rw [contains_iff]
  simp only [reduceCtorEq, false_or, children, List.mem_map, exists_exists_and_eq_and]

theorem contains_recursiveType_list_iff {items : List Sample} {ref : String} :
    (list items).Contains (recursiveType ref) ↔ ∃ t ∈ items, t.Contains (recursiveType ref) := by
  rw [contains_iff]
  simp [children]

theorem Contains.of_labelled {name ref : String}
    (h : (s.labelled name).Contains (recursiveType ref)) : s.Contains (recursiveType ref) := by
  induction s using holds_induction with
  | step s ih =>
    cases s with
    | list items =>
      rw [Sample.labelled, itemsLabelled_eq_map, contains_recursiveType_list_iff] at h
      obtain ⟨t, ht, hcontains⟩ := h
      obtain ⟨item, hitem, rfl⟩ := List.mem_map.1 ht
      exact contains_recursiveType_list_iff.2 ⟨item, hitem, ih item hitem hcontains⟩
    | genericString =>
      have hleaf : (text (memberLabel name)).IsLeaf := ⟨rfl, rfl⟩
      cases hleaf.eq_of_contains h
    | _ => exact h

end TypeCorpus.Sample
