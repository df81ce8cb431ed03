import TypeCorpus.Json.Reader
import TypeCorpus.Proofs.Json.Blank
import TypeCorpus.Proofs.Table

/-! Printed values read back. The tokens of a value are those of its parts with commas between and
brackets around; the machine that reads them comes from a place where a value may begin to the place
where that value has been delivered. Objects have each key once, since a key that comes again takes
the place of the first. -/

namespace TypeCorpus.Json

/-! ### Tokens of a layout -/

def tokensOf (ps : List Piece) : List Token := ps.filterMap Piece.token?

@[simp] theorem tokensOf_append (ps qs : List Piece) :
    tokensOf (ps ++ qs) = tokensOf ps ++ tokensOf qs := List.filterMap_append

@[simp] theorem tokensOf_token (t : Token) (ps : List Piece) :
    tokensOf (.token t :: ps) = t :: tokensOf ps := rfl

@[simp] theorem tokensOf_newline (depth : ℕ) (ps : List Piece) :
    tokensOf (.newline depth :: ps) = tokensOf ps := rfl

@[simp] theorem tokensOf_nil : tokensOf [] = [] := rfl

/-- Parts with commas between them. -/
def listed (parts : List (List Token)) : List Token := List.intercalate [Token.comma] parts

@[simp] theorem listed_singleton (p : List Token) : listed [p] = p := by simp [listed]

@[simp] theorem listed_cons_cons (p q : List Token) (parts : List (List Token)) :
    listed (p :: q :: parts) = p ++ .comma :: listed (q :: parts) := by
  simp [listed, List.intercalate]

theorem tokensOf_separated (depth : ℕ) (items : List (List Piece)) :
    tokensOf (separated depth items) = listed (items.map tokensOf) := by
  cases items with
  | nil => rfl
  | cons p ps =>
    induction ps generalizing p with
    | nil => simp [separated]
    | cons q ps ih =>
      rw [List.map_cons, List.map_cons, listed_cons_cons, ← List.map_cons, ← ih q]
      simp [separated]

theorem tokensOf_enclosed (first last : Token) (depth : ℕ) (items : List (List Piece)) :
    tokensOf (enclosed first last depth items) =
      first :: listed (items.map tokensOf) ++ [last] := by
  cases items with
  | nil => rfl
  | cons p ps =>
    simp only [enclosed, tokensOf_append, tokensOf_token, tokensOf_separated, tokensOf_newline,
      tokensOf_nil, List.cons_append]

namespace Value

theorem itemPieces_eq (depth : ℕ) (items : List Value) :
    itemPieces depth items = items.map (pieces depth) := by
  induction items with
  | nil => rfl
  | cons v items ih => rw [itemPieces, ih, List.map_cons]

theorem memberPieces_eq (depth : ℕ) (members : List (String × Value)) :
    memberPieces depth members =
      members.map fun m => Json.memberPieces m.1 (pieces depth m.2) := by
  induction members with
  | nil => rfl
  | cons m members ih => rw [memberPieces, ih, List.map_cons]

/-- The tokens of a value that is laid out at a depth. -/
def tokens (depth : ℕ) (v : Value) : List Token := tokensOf (v.pieces depth)

theorem tokens_array (depth : ℕ) (items : List Value) :
    (array items).tokens depth =
      .openBracket :: listed (items.map (tokens (depth + 1))) ++ [.closeBracket] := by
  rw [tokens, pieces, tokensOf_enclosed, itemPieces_eq, List.map_map]
  rfl

/-- The tokens of a member. -/
def memberTokens (depth : ℕ) (m : String × Value) : List Token :=
  .string m.1 :: .colon :: m.2.tokens depth

theorem tokens_object (depth : ℕ) (members : List (String × Value)) :
    (object members).tokens depth =
      .openBrace :: listed (members.map (memberTokens (depth + 1))) ++ [.closeBrace] := by
  rw [tokens, pieces, tokensOf_enclosed, memberPieces_eq, List.map_map]
  rfl

/-- Every object in a value has each of its keys once. -/
inductive KeysOnce : Value → Prop
  | null : KeysOnce null
  | bool (b : Bool) : KeysOnce (bool b)
  | number (n : Numeral) : KeysOnce (number n)
  | string (s : String) : KeysOnce (string s)
  | array {items : List Value} (h : ∀ v ∈ items, KeysOnce v) : KeysOnce (array items)
  | object {members : List (String × Value)} (hkeys : (Table.keys members).Nodup)
      (h : ∀ m ∈ members, KeysOnce m.2) : KeysOnce (object members)

end Value

/-! ### Numbers apart -/

theorem isChain_mark {m : Token} (hm : m.isNumber = false) {ts us : List Token}
    (hts : ts.IsChain Token.Apart) (hus : us.IsChain Token.Apart) :
    (ts ++ m :: us).IsChain Token.Apart := by
  refine List.isChain_append.2 ⟨hts, List.isChain_cons.2 ⟨fun u _ => .inl hm, hus⟩, ?_⟩
  rintro t - u hu
  cases hu
  exact .inr hm

theorem isChain_listed {parts : List (List Token)} (h : ∀ p ∈ parts, p.IsChain Token.Apart) :
    (listed parts).IsChain Token.Apart := by
  cases parts with
  | nil => exact List.isChain_nil
  | cons p parts =>
    induction parts generalizing p with
    | nil => simpa using h
    | cons q parts ih =>
      rw [listed_cons_cons]
      exact isChain_mark rfl (h p (by simp)) (ih q fun r hr => h r (by simp_all))

theorem isChain_enclosed {first last : Token} (hfirst : first.isNumber = false)
    (hlast : last.isNumber = false) {parts : List (List Token)}
    (h : ∀ p ∈ parts, p.IsChain Token.Apart) :
    (first :: listed parts ++ [last]).IsChain Token.Apart :=
  isChain_mark hlast (isChain_mark hfirst List.isChain_nil (isChain_listed h)) List.isChain_nil

namespace Value

theorem isChain_tokens {v : Value} (hv : v.KeysOnce) (depth : ℕ) :
    (v.tokens depth).IsChain Token.Apart := by
  induction hv generalizing depth with
  | array _ ih =>
    rw [tokens_array]
    exact isChain_enclosed rfl rfl (List.forall_mem_map.2 fun v hv => ih v hv _)
  | object _ _ ih =>
    rw [tokens_object]
    refine isChain_enclosed rfl rfl (List.forall_mem_map.2 fun m hm => ?_)
    exact isChain_mark rfl List.isChain_nil (isChain_mark rfl List.isChain_nil (ih m hm _))
  | _ => exact List.isChain_singleton _

end Value

/-! ### The reader -/

namespace Expected

variable {inside : List Frame} {depth : ℕ}

theorem run_append (e : Expected) (ts us : List Token) :
    e.run (ts ++ us) = (e.run ts).bind fun e => e.run us := by
  induction ts generalizing e with
  | nil => rfl
  | cons t ts ih =>
    rw [List.cons_append, run, run]
    cases e.step t with
    | none => rfl
    | some e => exact ih e

theorem run_cons {e e' : Expected} {t : Token} (h : e.step t = some e') (ts : List Token) :
    e.run (t :: ts) = e'.run ts := by
  rw [run, h]

theorem run_singleton {e e' : Expected} {t : Token} (h : e.step t = some e') :
    e.run [t] = some e' := by
  rw [run_cons h, run]

/-- The reader takes the tokens of a value and delivers it. -/
def Takes (v : Value) : Prop :=
  ∀ depth inside e, deliver v inside = some e → (value inside).run (v.tokens depth) = some e

theorem run_items {items : List Value} (h : ∀ v ∈ items, Takes v) (hne : items ≠ [])
    (done : List Value) :
    (value (.items done :: inside)).run (listed (items.map (Value.tokens depth))) =
      some (separator (.items (done ++ items) :: inside)) := by
  induction items generalizing done with
  | nil => exact absurd rfl hne
  | cons v items ih =>
    have hv := h v List.mem_cons_self depth (.items done :: inside) _ rfl
    cases items with
    | nil => simpa using hv
    | cons w items =>
      have hrest := ih (fun u hu => h u (List.mem_cons_of_mem _ hu)) (List.cons_ne_nil w items)
        (done ++ [v])
      rw [List.map_cons, List.map_cons, listed_cons_cons, run_append, hv, Option.bind_some,
        run_cons rfl, ← List.map_cons, hrest, List.append_assoc, List.singleton_append]

theorem run_members {members : List (String × Value)} (h : ∀ m ∈ members, Takes m.2)
    (hne : members ≠ []) (done : List (String × Value))
    (hkeys : (Table.keys (done ++ members)).Nodup) :
    (key done inside).run (listed (members.map (Value.memberTokens depth))) =
      some (separator (.members (done ++ members) :: inside)) := by
  induction members generalizing done with
  | nil => exact absurd rfl hne
  | cons m members ih =>
    obtain ⟨k, v⟩ := m
    have hk : k ∉ Table.keys done := by
      rw [Table.keys, List.map_append, List.map_cons, List.nodup_append] at hkeys
      exact fun hk => hkeys.2.2 k hk k List.mem_cons_self rfl
    have hv := h (k, v) List.mem_cons_self depth (.member done k :: inside) _ rfl
    rw [Table.insert_of_notMem hk] at hv
    have hmember : (key done inside).run (Value.memberTokens depth (k, v)) =
        some (separator (.members (done ++ [(k, v)]) :: inside)) := by
      rw [Value.memberTokens, run_cons rfl, run_cons rfl]
      exact hv
    cases members with
    | nil => simpa using hmember
    | cons m members =>
      have hrest := ih (fun u hu => h u (List.mem_cons_of_mem _ hu)) (List.cons_ne_nil m members)
        (done ++ [(k, v)]) (by simpa using hkeys)
      rw [List.map_cons, List.map_cons, listed_cons_cons, run_append, hmember, Option.bind_some,
        run_cons rfl, ← List.map_cons, hrest, List.append_assoc, List.singleton_append]

theorem exists_listed {p : List Token} {t : Token} {ts : List Token} (h : p = t :: ts)
    (parts : List (List Token)) : ∃ us, listed (p :: parts) = t :: us := by
  cases parts with
  | nil => exact ⟨ts, by rw [listed_singleton, h]⟩
  | cons q parts => exact ⟨ts ++ .comma :: listed (q :: parts), by rw [listed_cons_cons, h]; rfl⟩

theorem run_firstKey {k : String} (ts : List Token) :
    (firstKey inside).run (.string k :: ts) = (key [] inside).run (.string k :: ts) := rfl

/-- The first item of an array may begin as any value does. -/
theorem run_firstItem {t : Token} (ht : t ≠ .closeBracket) (ts : List Token) :
    (firstItem inside).run (t :: ts) = (value (.items [] :: inside)).run (t :: ts) := by
  have hstep : (firstItem inside).step t = (value (.items [] :: inside)).step t := by
    cases t <;> first | rfl | exact absurd rfl ht
  rw [run, run, hstep]

theorem exists_head {v : Value} (hv : v.KeysOnce) (depth : ℕ) :
    ∃ t ts, v.tokens depth = t :: ts ∧ t ≠ .closeBracket := by
  cases hv with
  | array _ => exact ⟨_, _, Value.tokens_array depth _, by simp⟩
  | object _ _ => exact ⟨_, _, Value.tokens_object depth _, by simp⟩
  | _ => exact ⟨_, _, rfl, by simp⟩

theorem takes_array {items : List Value} (hkeys : ∀ v ∈ items, v.KeysOnce)
    (h : ∀ v ∈ items, Takes v) : Takes (.array items) := by
  intro depth inside e he
  rw [Value.tokens_array, List.cons_append, run_cons rfl]
  cases items with
  | nil => exact run_singleton (show (firstItem inside).step .closeBracket = some e from he)
  | cons v items =>
    obtain ⟨t, ts, hhead, ht⟩ := exists_head (hkeys v List.mem_cons_self) (depth + 1)
    obtain ⟨us, hus⟩ := exists_listed hhead (items.map (Value.tokens (depth + 1)))
    have hrun : (value (.items [] :: inside)).run
        (listed ((v :: items).map (Value.tokens (depth + 1)))) =
        some (separator (.items (v :: items) :: inside)) :=
      run_items h (List.cons_ne_nil v items) []
    rw [List.map_cons, hus] at hrun ⊢
    rw [List.cons_append, run_firstItem ht, ← List.cons_append, run_append, hrun]
    exact run_singleton (show (separator (.items (v :: items) :: inside)).step .closeBracket =
      some e from he)

theorem takes_object {members : List (String × Value)} (hkeys : (Table.keys members).Nodup)
    (h : ∀ m ∈ members, Takes m.2) : Takes (.object members) := by
  intro depth inside e he
  rw [Value.tokens_object, List.cons_append, run_cons rfl]
  cases members with
  | nil => exact run_singleton (show (firstKey inside).step .closeBrace = some e from he)
  | cons m members =>
    have hhead : Value.memberTokens (depth + 1) m =
      .string m.1 :: .colon :: m.2.tokens (depth + 1) := rfl
    obtain ⟨us, hus⟩ := exists_listed hhead (members.map (Value.memberTokens (depth + 1)))
    have hrun : (key [] inside).run
        (listed ((m :: members).map (Value.memberTokens (depth + 1)))) =
        some (separator (.members (m :: members) :: inside)) :=
      run_members h (List.cons_ne_nil m members) [] hkeys
    rw [List.map_cons, hus] at hrun ⊢
    rw [List.cons_append, run_firstKey, ← List.cons_append, run_append, hrun]
    exact run_singleton (show (separator (.members (m :: members) :: inside)).step .closeBrace =
      some e from he)

/-- A value is taken whatever containers it stands in. -/
theorem takes_of_keysOnce {v : Value} (hv : v.KeysOnce) : Takes v := by
  induction hv with
  | array hkeys ih => exact takes_array hkeys ih
  | object hkeys _ ih => exact takes_object hkeys ih
  | null => exact fun depth inside e he => run_singleton he
  | bool b => exact fun depth inside e he => run_singleton he
  | number n => exact fun depth inside e he => run_singleton he
  | string s => exact fun depth inside e he => run_singleton he

end Expected

namespace Value

/-- The tokens of a value spell it. -/
theorem ofTokens?_tokens {v : Value} (hv : v.KeysOnce) (depth : ℕ) :
    ofTokens? (v.tokens depth) = some v := by
  rw [ofTokens?, Expected.takes_of_keysOnce hv depth [] (.nothing v) rfl]

/-- However a value is written, it is read back. -/
theorem parse?_write {write : Piece → List Char} (hwrite : Piece.Writes write) {v : Value}
    (hv : v.KeysOnce) (depth : ℕ) :
    parse? (String.ofList ((v.pieces depth).flatMap write)) = some v := by
  have htokens : tokens? ((v.pieces depth).flatMap write) = some (v.tokens depth) :=
    tokens?_flatMap hwrite (isChain_tokens hv depth)
  rw [parse?, String.toList_ofList, htokens]
  exact ofTokens?_tokens hv depth

end Value

end TypeCorpus.Json
