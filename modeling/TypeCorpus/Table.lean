/-! Tables in insertion order: a list of keys with their values. Writing a key that is there already
keeps its place and replaces its value, a new key goes to the end. The statements say what each
operation does to a look-up and to the list of keys: the last value written under a key is the one
found, and a table that is only ever written to holds each key once. -/

namespace TypeCorpus

/-- Keys with values, in the order in which the keys were first written. -/
abbrev Table (κ α : Type) := List (κ × α)

namespace Table

variable {κ α : Type}

def keys (t : Table κ α) : List κ := t.map Prod.fst

def values (t : Table κ α) : List α := t.map Prod.snd

variable [DecidableEq κ]

def get? : Table κ α → κ → Option α
  | [], _ => none
  | (k, v) :: t, q => if k = q then some v else get? t q

def insert : Table κ α → κ → α → Table κ α
  | [], k, v => [(k, v)]
  | (k', v') :: t, k, v => if k' = k then (k, v) :: t else (k', v') :: insert t k v

/-- Writes the entries of the second table into the first, in order. -/
def extend (t u : Table κ α) : Table κ α := u.foldl (fun t e => insert t e.1 e.2) t

def ofList (u : List (κ × α)) : Table κ α := extend [] u

@[simp] theorem get?_nil (q : κ) : get? ([] : Table κ α) q = none := rfl

theorem get?_insert (t : Table κ α) (k q : κ) (v : α) :
    get? (insert t k v) q = if k = q then some v else get? t q := by
  induction t with
  | nil => rfl
  | cons e t ih =>
    by_cases h : e.1 = k
    · by_cases hq : k = q <;> simp [insert, get?, h, hq]
    · by_cases hq : k = q
      · simp_all [insert, get?]
      · simp [insert, get?, h, hq, ih]

@[simp] theorem get?_insert_self (t : Table κ α) (k : κ) (v : α) :
    get? (insert t k v) k = some v := by
  simp [get?_insert]

theorem get?_insert_ne (t : Table κ α) {k q : κ} (h : k ≠ q) (v : α) :
    get? (insert t k v) q = get? t q := by
  simp [get?_insert, h]

theorem keys_insert (t : Table κ α) (k : κ) (v : α) :
    keys (insert t k v) = if k ∈ keys t then keys t else keys t ++ [k] := by
  induction t with
  | nil => simp [insert, keys]
  | cons e t ih =>
    by_cases h : e.1 = k
    · simp [insert, keys, h]
    · have h' : ¬ k = e.1 := fun hk => h hk.symm
      simp only [insert, if_neg h]
      by_cases hk : k ∈ keys t
      · rw [if_pos hk] at ih
        have : k ∈ keys (e :: t) := List.mem_cons_of_mem _ hk
        rw [if_pos this]
        exact congrArg (e.1 :: ·) ih
      · rw [if_neg hk] at ih
        have : k ∉ keys (e :: t) := by
          intro hm
          rcases List.mem_cons.1 hm with hm | hm
          · exact h' hm
          · exact hk hm
        rw [if_neg this]
        exact congrArg (e.1 :: ·) ih

theorem mem_keys_insert (t : Table κ α) (k q : κ) (v : α) :
    q ∈ keys (insert t k v) ↔ q = k ∨ q ∈ keys t := by
  rw [keys_insert]
  split
  · exact ⟨.inr, fun h => h.elim (fun h => h ▸ ‹k ∈ keys t›) id⟩
  · simp [or_comm]

theorem mem_keys_iff (t : Table κ α) (q : κ) : q ∈ keys t ↔ (get? t q).isSome = true := by
  induction t with
  | nil => simp [keys]
  | cons e t ih =>
    by_cases h : e.1 = q
    · simp [get?, keys, h]
    · have h' : ¬ q = e.1 := fun hq => h hq.symm
      simp only [keys, List.map_cons, List.mem_cons, h', false_or, get?, if_neg h]
      exact ih

theorem nodup_keys_insert {t : Table κ α} (h : (keys t).Nodup) (k : κ) (v : α) :
    (keys (insert t k v)).Nodup := by
  rw [keys_insert]
  split
  · exact h
  · rename_i hk
    rw [List.nodup_append]
    exact ⟨h, by simp, fun a ha b hb => by
      rw [List.mem_singleton.1 hb]
      exact fun hab => hk (hab ▸ ha)⟩

theorem nodup_keys_extend {t : Table κ α} (h : (keys t).Nodup) (u : Table κ α) :
    (keys (extend t u)).Nodup := by
  induction u generalizing t with
  | nil => exact h
  | cons e u ih => exact ih (nodup_keys_insert h e.1 e.2)

theorem nodup_keys_ofList (u : List (κ × α)) : (keys (ofList u)).Nodup :=
  nodup_keys_extend (t := []) List.nodup_nil u

end Table

end TypeCorpus
