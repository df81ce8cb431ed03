import Mathlib.Data.List.Nodup
import TypeCorpus.Corpus.Topics
import TypeCorpus.Wire.Headers

/-! The first entries with their keys. A list is gone through with the keys that came before, and an
entry whose key is among them is left out; what remains are the entries before which none has their
key. Topics are kept in this way by their names, and wire structures by their C names. -/

namespace TypeCorpus

variable {α κ : Type} [DecidableEq κ] {key : α → κ} {seen seen' : List κ} {xs : List α} {a : α}

/-- Leaves out each entry whose key was seen or came before. -/
def firsts (key : α → κ) (seen : List κ) : List α → List α
  | [] => []
  | a :: as => if key a ∈ seen then firsts key seen as else a :: firsts key (key a :: seen) as

theorem firsts_congr (h : ∀ k, k ∈ seen ↔ k ∈ seen') (xs : List α) :
    firsts key seen xs = firsts key seen' xs := by
  induction xs generalizing seen seen' with
  | nil => rfl
  | cons a xs ih =>
    have hcons : ∀ k, k ∈ key a :: seen ↔ k ∈ key a :: seen' := fun k => by
      rw [List.mem_cons, List.mem_cons, h]
    rw [firsts, firsts, ih h, ih hcons]
    simp only [h]

/-- Keys that tell the same entries apart keep the same entries. -/
theorem firsts_eq_of_keys {key' : α → κ} (ys : List α)
    (h : ∀ a ∈ xs, ∀ b ∈ xs ++ ys, key a = key b ↔ key' a = key' b) :
    firsts key (ys.map key) xs = firsts key' (ys.map key') xs := by
  induction xs generalizing ys with
  | nil => rfl
  | cons a xs ih =>
    have hseen : key a ∈ ys.map key ↔ key' a ∈ ys.map key' := by
      simp only [List.mem_map]
      refine exists_congr fun b => and_congr_right fun hb => ?_
      rw [eq_comm, @eq_comm _ (key' b)]
      exact h a List.mem_cons_self b (List.mem_append_right _ hb)
    have hrest : ∀ b ∈ xs, ∀ c ∈ xs ++ a :: ys, key b = key c ↔ key' b = key' c := by
      intro b hb c hc
      exact h b (List.mem_cons_of_mem _ hb) c (List.perm_middle.mem_iff.1 hc)
    rw [firsts, firsts]
    simp only [hseen]
    split
    · exact ih ys fun b hb c hc =>
        hrest b hb c (((List.sublist_cons_self a ys).append_left xs).subset hc)
    · exact congrArg (a :: ·) (ih (a :: ys) hrest)

theorem firsts_sublist (key : α → κ) (seen : List κ) (xs : List α) :
    (firsts key seen xs).Sublist xs := by
  induction xs generalizing seen with
  | nil => exact .slnil
  | cons a xs ih =>
    rw [firsts]
    split
    · exact (ih seen).cons a
    · exact (ih _).cons_cons a

/-- An entry remains if its key is new and it is the first with it. -/
theorem mem_firsts_iff : a ∈ firsts key seen xs ↔
    key a ∉ seen ∧ xs.find? (fun b => key b = key a) = some a := by
  induction xs generalizing seen with
  | nil => simp [firsts]
  | cons b xs ih =>
    rw [firsts, List.find?_cons]
    by_cases hkey : key b = key a
    · simp only [hkey, decide_true, Option.some.injEq]
      split
      · rename_i hseen
        rw [ih]
        exact iff_of_false (fun h => h.1 hseen) fun h => h.1 hseen
      · rename_i hseen
        rw [List.mem_cons, ih]
        constructor
        · rintro (rfl | ⟨hnew, -⟩)
          · exact ⟨hseen, rfl⟩
          · exact absurd List.mem_cons_self hnew
        · exact fun h => .inl h.2.symm
    · have hne : a ≠ b := fun h => hkey (h ▸ rfl)
      simp only [hkey, decide_false]
      split
      · exact ih
      · rw [List.mem_cons, ih, List.mem_cons, not_or]
        simp [hne, Ne.symm hkey]

theorem nodup_map_firsts (key : α → κ) (seen : List κ) (xs : List α) :
    ((firsts key seen xs).map key).Nodup := by
  induction xs generalizing seen with
  | nil => exact List.nodup_nil
  | cons a xs ih =>
    rw [firsts]
    split
    · exact ih seen
    · rw [List.map_cons, List.nodup_cons]
      refine ⟨fun hmem => ?_, ih _⟩
      obtain ⟨b, hb, hkey⟩ := List.mem_map.1 hmem
      exact (mem_firsts_iff.1 hb).1 (hkey ▸ List.mem_cons_self)

/-- No key is lost but those that were seen. -/
theorem mem_map_firsts_iff {k : κ} :
    k ∈ (firsts key seen xs).map key ↔ k ∉ seen ∧ k ∈ xs.map key := by
  constructor
  · intro h
    obtain ⟨a, ha, rfl⟩ := List.mem_map.1 h
    exact ⟨(mem_firsts_iff.1 ha).1, List.mem_map_of_mem ((firsts_sublist _ _ _).subset ha)⟩
  · rintro ⟨hseen, hmem⟩
    obtain ⟨a, ha, rfl⟩ := List.mem_map.1 hmem
    have hsome : (xs.find? fun b => key b = key a).isSome = true :=
      List.find?_isSome.2 ⟨a, ha, decide_eq_true rfl⟩
    obtain ⟨b, hb⟩ := Option.isSome_iff_exists.1 hsome
    have hkey : key b = key a := by simpa using List.find?_some hb
    exact List.mem_map.2 ⟨b, mem_firsts_iff.2 ⟨hkey ▸ hseen, hkey ▸ hb⟩, hkey⟩

theorem Topic.distinct_eq_firsts (seen : List String) (ts : List Topic) :
    distinct seen ts = firsts topicName seen ts := by
  induction ts generalizing seen with
  | nil => rfl
  | cons t ts ih => rw [distinct, firsts, ih, ih]

theorem HeaderScan.addWires_eq_firsts (known ws : List WireStruct) :
    addWires known ws = known ++ firsts WireStruct.full (known.map WireStruct.full) ws := by
  induction ws generalizing known with
  | nil => exact (List.append_nil known).symm
  | cons w ws ih =>
    have hseen : ∀ k, k ∈ (known ++ [w]).map WireStruct.full ↔
        k ∈ w.full :: known.map WireStruct.full := by simp [or_comm]
    rw [addWires, firsts]
    split
    · exact ih known
    · rw [ih, firsts_congr hseen, List.append_assoc, List.singleton_append]

end TypeCorpus
