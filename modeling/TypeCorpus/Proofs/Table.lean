import Mathlib.Data.Finset.Card
import TypeCorpus.Table

/-! Tables that were written from a list of entries. Under each key such a table holds the value of
the last entry with that key, its keys are those of the list in the order of their first entries,
and it has one place for each of them; so its length counts distinct keys. -/

namespace TypeCorpus.Table

variable {κ α : Type} [DecidableEq κ]

/-- The value of the last entry with a key. -/
def last? (u : List (κ × α)) (k : κ) : Option α := (u.reverse.find? (·.1 = k)).map Prod.snd

omit [DecidableEq κ] in
theorem length_keys (t : Table κ α) : t.keys.length = t.length := by
  simp [keys]

theorem mem_insert {t : Table κ α} {k : κ} {a : α} {e : κ × α} (h : e ∈ t.insert k a) :
    e = (k, a) ∨ e ∈ t := by
  induction t with
  | nil => exact .inl (List.mem_singleton.1 h)
  | cons e' t ih =>
    simp only [insert] at h
    split at h
    · rcases List.mem_cons.1 h with h | h
      · exact .inl h
      · exact .inr (List.mem_cons_of_mem _ h)
    · rcases List.mem_cons.1 h with h | h
      · exact .inr (h ▸ List.mem_cons_self)
      · rcases ih h with h | h
        · exact .inl h
        · exact .inr (List.mem_cons_of_mem _ h)

theorem insert_of_notMem {t : Table κ α} {k : κ} (h : k ∉ t.keys) (a : α) :
    t.insert k a = t ++ [(k, a)] := by
  induction t with
  | nil => rfl
  | cons e t ih =>
    have hne : e.1 ≠ k := fun he => h (he ▸ List.mem_cons_self)
    rw [insert, if_neg hne, ih fun hk => h (List.mem_cons_of_mem _ hk), List.cons_append]

theorem mem_extend {t u : Table κ α} {e : κ × α} (h : e ∈ t.extend u) : e ∈ u ∨ e ∈ t := by
  induction u generalizing t with
  | nil => exact .inr h
  | cons e' u ih =>
    rcases ih h with h | h
    · exact .inl (List.mem_cons_of_mem _ h)
    · rcases mem_insert h with rfl | h
      · exact .inl List.mem_cons_self
      · exact .inr h

theorem last?_cons (e : κ × α) (u : List (κ × α)) (k : κ) :
    last? (e :: u) k = (last? u k).or (if e.1 = k then some e.2 else none) := by
  simp only [last?, List.reverse_cons, List.find?_append]
  cases u.reverse.find? (·.1 = k) with
  | some e' => rfl
  | none => by_cases h : e.1 = k <;> simp [h]

theorem last?_append (u v : List (κ × α)) (k : κ) :
    last? (u ++ v) k = (last? v k).or (last? u k) := by
  induction u with
  | nil => simp [last?]
  | cons e u ih => rw [List.cons_append, last?_cons, last?_cons, ih, Option.or_assoc]

theorem last?_map {β : Type} (f : β → κ × α) (xs : List β) (k : κ) :
    last? (xs.map f) k = (xs.reverse.find? fun x => (f x).1 = k).map fun x => (f x).2 := by
  rw [last?, ← List.map_reverse, List.find?_map, Option.map_map]
  rfl

/-- Only what gives entries with a key matters for the last of them. -/
theorem last?_filterMap_filter {β : Type} {f : β → Option (κ × α)} {p : β → Bool} {k : κ}
    (h : ∀ x e, f x = some e → e.1 = k → p x = true) (xs : List β) :
    last? ((xs.filter p).filterMap f) k = last? (xs.filterMap f) k := by
  induction xs with
  | nil => rfl
  | cons x xs ih =>
    by_cases hp : p x = true
    · rw [List.filter_cons_of_pos hp]
      cases hf : f x with
      | none => rw [List.filterMap_cons_none hf, List.filterMap_cons_none hf, ih]
      | some e =>
        rw [List.filterMap_cons_some hf, List.filterMap_cons_some hf, last?_cons, last?_cons, ih]
    · rw [List.filter_cons_of_neg hp, ih]
      cases hf : f x with
      | none => rw [List.filterMap_cons_none hf]
      | some e =>
        have hne : e.1 ≠ k := fun he => hp (h x e hf he)
        rw [List.filterMap_cons_some hf, last?_cons, if_neg hne, Option.or_none]

/-- Of some things with one key the last has none behind it, and its entry is the last. -/
theorem exists_last {β : Type} (f : β → κ × α) {xs : List β} {k : κ}
    (h : k ∈ xs.map fun x => (f x).1) : ∃ front x back, xs = front ++ x :: back ∧ (f x).1 = k ∧
      (∀ y ∈ back, (f y).1 ≠ k) ∧ last? (xs.map f) k = some (f x).2 := by
  obtain ⟨y, hy, hyk⟩ := List.mem_map.1 h
  have hsome : (xs.reverse.find? fun x => (f x).1 = k).isSome = true :=
    List.find?_isSome.2 ⟨y, List.mem_reverse.2 hy, decide_eq_true hyk⟩
  obtain ⟨x, hx⟩ := Option.isSome_iff_exists.1 hsome
  obtain ⟨hk, after, before, hxs, hafter⟩ := List.find?_eq_some_iff_append.1 hx
  refine ⟨before.reverse, x, after.reverse, by simpa using congrArg List.reverse hxs,
    of_decide_eq_true hk, fun z hz hzk => ?_, by rw [last?_map, hx, Option.map_some]⟩
  simpa [hzk] using hafter z (List.mem_reverse.1 hz)

theorem get?_extend (t : Table κ α) (u : List (κ × α)) (k : κ) :
    (t.extend u).get? k = (last? u k).or (t.get? k) := by
  induction u generalizing t with
  | nil => rfl
  | cons e u ih =>
    have hstep : t.extend (e :: u) = (t.insert e.1 e.2).extend u := rfl
    rw [hstep, ih, last?_cons, get?_insert, Option.or_assoc]
    by_cases h : e.1 = k <;> simp [h]

theorem get?_ofList (u : List (κ × α)) (k : κ) : (ofList u).get? k = last? u k := by
  rw [ofList, get?_extend, get?_nil, Option.or_none]

theorem mem_keys_extend (t : Table κ α) (u : List (κ × α)) (k : κ) :
    k ∈ (t.extend u).keys ↔ k ∈ u.map Prod.fst ∨ k ∈ t.keys := by
  induction u generalizing t with
  | nil => simp [extend]
  | cons e u ih =>
    have hstep : t.extend (e :: u) = (t.insert e.1 e.2).extend u := rfl
    rw [hstep, ih, mem_keys_insert, List.map_cons, List.mem_cons]
    tauto

theorem mem_keys_ofList (u : List (κ × α)) (k : κ) : k ∈ (ofList u).keys ↔ k ∈ u.map Prod.fst := by
  rw [ofList, mem_keys_extend]
  simp [keys]

theorem extend_append (t : Table κ α) (u v : List (κ × α)) :
    t.extend (u ++ v) = (t.extend u).extend v := List.foldl_append

theorem keys_extend (t : Table κ α) (u : List (κ × α)) :
    (t.extend u).keys = t.keys ++ ((u.map Prod.fst).removeAll t.keys).eraseDups := by
  induction u generalizing t with
  | nil => simp [extend, List.removeAll]
  | cons e u ih =>
    have hstep : t.extend (e :: u) = (t.insert e.1 e.2).extend u := rfl
    rw [hstep, ih, keys_insert, List.map_cons]
    by_cases he : e.1 ∈ t.keys
    · simp [List.removeAll, he]
    · have hrest : (u.map Prod.fst).removeAll (t.keys ++ [e.1]) =
          ((u.map Prod.fst).removeAll t.keys).filter (!· == e.1) := by
        simp [List.removeAll, List.filter_filter, beq_eq_decide, Bool.and_comm]
      have hfirst : (e.1 :: u.map Prod.fst).removeAll t.keys =
          e.1 :: (u.map Prod.fst).removeAll t.keys := by
        simp [List.removeAll, he]
      rw [if_neg he, hrest, hfirst, List.eraseDups_cons, List.append_assoc, List.singleton_append]

/-- The keys of a table stand in the order in which they were first written. -/
theorem keys_ofList (u : List (κ × α)) : (ofList u).keys = (u.map Prod.fst).eraseDups := by
  rw [ofList, keys_extend]
  simp [keys, List.removeAll]

/-- The length of a table counts the distinct keys that were written. -/
theorem length_ofList (u : List (κ × α)) : (ofList u).length = (u.map Prod.fst).toFinset.card := by
  have hkeys : (ofList u).keys.toFinset = (u.map Prod.fst).toFinset := by
    ext k
    rw [List.mem_toFinset, List.mem_toFinset, mem_keys_ofList]
  rw [← hkeys, List.toFinset_card_of_nodup (nodup_keys_ofList u), length_keys]

theorem nodup_eraseDups (ks : List κ) : ks.eraseDups.Nodup := by
  have hks : (ks.map fun k => (k, ())).map Prod.fst = ks := by
    rw [List.map_map]
    exact List.map_id ks
  have h := nodup_keys_ofList (ks.map fun k => (k, ()))
  rwa [keys_ofList, hks] at h

/-! ### The same entries in another order -/

/-- Two tables have the same keys, and under each key the same value. -/
structure Same (t u : Table κ α) : Prop where
  keys_perm : t.keys.Perm u.keys
  get?_eq : ∀ k, t.get? k = u.get? k

theorem Same.length_eq {t u : Table κ α} (h : t.Same u) : t.length = u.length := by
  rw [← length_keys t, ← length_keys u, h.keys_perm.length_eq]

theorem Same.isEmpty_eq {t u : Table κ α} (h : t.Same u) : t.isEmpty = u.isEmpty := by
  rw [Bool.eq_iff_iff, List.isEmpty_iff_length_eq_zero, List.isEmpty_iff_length_eq_zero,
    h.length_eq]

/-- What the order of some entries leaves open is the order of the keys, where the last entry with
each key is the same. -/
theorem same_extend (t : Table κ α) {u v : List (κ × α)}
    (hkeys : (u.map Prod.fst).Perm (v.map Prod.fst)) (hlast : ∀ k, last? u k = last? v k) :
    (t.extend u).Same (t.extend v) where
  keys_perm := by
    have hnew : ((u.map Prod.fst).removeAll t.keys).Perm ((v.map Prod.fst).removeAll t.keys) :=
      hkeys.filter _
    rw [keys_extend, keys_extend]
    apply List.Perm.append_left
    rw [List.perm_ext_iff_of_nodup (nodup_eraseDups _) (nodup_eraseDups _)]
    intro k
    rw [List.mem_eraseDups, List.mem_eraseDups, hnew.mem_iff]
  get?_eq k := by rw [get?_extend, get?_extend, hlast]

end TypeCorpus.Table
