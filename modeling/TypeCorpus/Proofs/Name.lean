import Mathlib.Data.List.Infix
import TypeCorpus.Name

/-! Paths of names. What a reference ends in after its last pair of colons is a part of it without
such a pair, so a short name is its own short name, and one that is as long as the reference is the
reference. A scope changes the short name of a name only where the name begins with a colon and has
no pair: then this colon closes a pair with the one before it. Putting two characters in place of
each pair keeps the length. Where names are identifiers, which hold no colon, the pairs of a path
are exactly those that join it: the last identifier is the short name, and replacing the pairs of
a path puts the text between its identifiers. A qualified name is shown as the path that it is
looked up by. -/

namespace TypeCorpus.Name

variable {s r : List Char} {name : String}

/-! ### The last pair -/

theorem pair_infix_cons_iff {a : Char} :
    [':', ':'] <:+: a :: s ↔ (a = ':' ∧ s.head? = some ':') ∨ [':', ':'] <:+: s := by
  have hhead : [':'] <+: s ↔ s.head? = some ':' := by
    cases s with
    | nil => simp
    | cons b s => simp [eq_comm]
  rw [List.infix_cons_iff, List.cons_prefix_cons, hhead, @eq_comm _ a]

/-- The last pair is that of what follows the first character, or else the first two characters. -/
theorem afterLastPair?_cons (a : Char) (s : List Char) : afterLastPair? (a :: s) =
    (afterLastPair? s).or (if a = ':' ∧ s.head? = some ':' then some s.tail else none) := by
  cases s with
  | nil => simp [afterLastPair?]
  | cons b s => cases h : afterLastPair? (b :: s) <;> simp [afterLastPair?, h]

theorem afterLastPair?_eq_none_iff : afterLastPair? s = none ↔ ¬ [':', ':'] <:+: s := by
  induction s with
  | nil => simp [afterLastPair?]
  | cons a s ih =>
    rw [afterLastPair?_cons, Option.or_eq_none_iff, ih, pair_infix_cons_iff, not_or, and_comm]
    simp

/-- What follows the last pair makes no pair with the second colon of it either. -/
theorem afterLastPair?_eq_some_iff : afterLastPair? s = some r ↔
    (∃ p, s = p ++ ':' :: ':' :: r) ∧ ¬ [':', ':'] <:+: ':' :: r := by
  constructor
  · intro h
    induction s with
    | nil => cases h
    | cons a s ih =>
      rw [afterLastPair?_cons, Option.or_eq_some_iff] at h
      rcases h with h | ⟨hnone, h⟩
      · obtain ⟨⟨p, hp⟩, hpair⟩ := ih h
        exact ⟨⟨a :: p, by rw [hp, List.cons_append]⟩, hpair⟩
      · split_ifs at h with ha
        cases h
        obtain ⟨rfl, hhead⟩ := ha
        obtain ⟨t, rfl⟩ := List.head?_eq_some_iff.1 hhead
        exact ⟨⟨[], rfl⟩, afterLastPair?_eq_none_iff.1 hnone⟩
  · rintro ⟨⟨p, rfl⟩, hpair⟩
    induction p with
    | nil => simp [afterLastPair?_cons _ (':' :: r), afterLastPair?_eq_none_iff.2 hpair]
    | cons a p ih => rw [List.cons_append, afterLastPair?_cons, ih, Option.some_or]

/-! ### The last segment -/

theorem lastSegment_of_notInfix (h : ¬ [':', ':'] <:+: s) : lastSegment s = s := by
  rw [lastSegment, afterLastPair?_eq_none_iff.2 h, Option.getD_none]

theorem lastSegment_append (p : List Char) (h : ¬ [':', ':'] <:+: ':' :: r) :
    lastSegment (p ++ ':' :: ':' :: r) = r := by
  rw [lastSegment, afterLastPair?_eq_some_iff.2 ⟨⟨p, rfl⟩, h⟩, Option.getD_some]

/-- A text has no pair and is its last segment, or ends in a pair and the last segment. -/
theorem lastSegment_cases (s : List Char) :
    (¬ [':', ':'] <:+: s ∧ lastSegment s = s) ∨
      ∃ p r, s = p ++ ':' :: ':' :: r ∧ ¬ [':', ':'] <:+: ':' :: r ∧ lastSegment s = r := by
  cases h : afterLastPair? s with
  | none =>
    have hpair := afterLastPair?_eq_none_iff.1 h
    exact .inl ⟨hpair, lastSegment_of_notInfix hpair⟩
  | some r =>
    obtain ⟨⟨p, rfl⟩, hpair⟩ := afterLastPair?_eq_some_iff.1 h
    exact .inr ⟨p, r, rfl, hpair, lastSegment_append p hpair⟩

theorem pair_notInfix_lastSegment (s : List Char) : ¬ [':', ':'] <:+: lastSegment s := by
  rcases lastSegment_cases s with ⟨hpair, hs⟩ | ⟨p, r, -, hpair, hr⟩
  · rwa [hs]
  · rw [hr]
    exact fun h => hpair (pair_infix_cons_iff.2 (.inr h))

/-- A pair that a text has of its own stays the last one behind others. -/
theorem lastSegment_append_of_infix (p : List Char) (h : [':', ':'] <:+: s) :
    lastSegment (p ++ s) = lastSegment s := by
  rcases lastSegment_cases s with ⟨hpair, -⟩ | ⟨q, r, rfl, hpair, hr⟩
  · exact absurd h hpair
  · rw [hr, ← List.append_assoc, lastSegment_append _ hpair]

theorem lastSegment_suffix (s : List Char) : lastSegment s <:+ s := by
  rcases lastSegment_cases s with ⟨-, hs⟩ | ⟨p, r, rfl, -, hr⟩
  · rw [hs]
  · rw [hr]
    exact ⟨p ++ [':', ':'], by simp⟩

/-! ### Short names -/

theorem short_eq_self (h : name.toList.length ≤ (short name).toList.length) :
    short name = name := by
  rw [toList_short] at h
  have hseg : lastSegment name.toList = name.toList := (lastSegment_suffix _).eq_of_length_le h
  rw [short, hseg, String.ofList_toList]

theorem short_of_notInfix (h : ¬ [':', ':'] <:+: name.toList) : short name = name := by
  rw [short, lastSegment_of_notInfix h, String.ofList_toList]

theorem toList_inScope_of_ne {scope : String} (h : scope ≠ "") (name : String) :
    (inScope (some scope) name).toList = scope.toList ++ ':' :: ':' :: name.toList := by
  simp [inScope, h]

/-- A name that begins with a colon and has no pair of colons. In a scope its colon closes a pair
with the last one of those that join them. -/
def LosesColon (name : String) : Prop :=
  name.toList.head? = some ':' ∧ ¬ [':', ':'] <:+: name.toList

instance (name : String) : Decidable (LosesColon name) :=
  inferInstanceAs (Decidable (_ ∧ _))

theorem LosesColon.short_eq (h : LosesColon name) {scope : String} (hs : scope ≠ "") :
    short name = ":" ++ short (inScope (some scope) name) := by
  obtain ⟨r, hr⟩ := List.head?_eq_some_iff.1 h.1
  have htext : (inScope (some scope) name).toList = (scope.toList ++ [':']) ++ ':' :: ':' :: r := by
    rw [toList_inScope_of_ne hs, hr]
    simp
  rw [short_of_notInfix h.2, ← String.toList_inj, String.toList_append, toList_short, htext,
    lastSegment_append _ (hr ▸ h.2), hr]
  rfl

theorem short_inScope_of_infix (scope : Option String) (h : [':', ':'] <:+: name.toList) :
    short (inScope scope name) = short name := by
  cases scope with
  | none => rfl
  | some scope =>
    by_cases hs : scope = ""
    · rw [hs, inScope_empty]
    · have htext : scope.toList ++ ':' :: ':' :: name.toList =
          (scope.toList ++ [':', ':']) ++ name.toList := by simp
      rw [short, toList_inScope_of_ne hs, htext, lastSegment_append_of_infix _ h, short]

/-- A name without a pair that does not begin with a colon is the short name of itself in any
scope. -/
theorem short_inScope_of_notInfix (scope : Option String) (h : ¬ [':', ':'] <:+: name.toList)
    (hhead : name.toList.head? ≠ some ':') : short (inScope scope name) = name := by
  cases scope with
  | none => exact short_of_notInfix h
  | some scope =>
    by_cases hs : scope = ""
    · rw [hs, inScope_empty, short_of_notInfix h]
    · have hpair : ¬ [':', ':'] <:+: ':' :: name.toList :=
        fun hpair => (pair_infix_cons_iff.1 hpair).elim (fun hc => hhead hc.2) h
      rw [short, toList_inScope_of_ne hs, lastSegment_append _ hpair, String.ofList_toList]

/-- A scope keeps the short name of every name but those that lose a colon. -/
theorem short_inScope_eq_iff {scope : String} (hs : scope ≠ "") :
    short (inScope (some scope) name) = short name ↔ ¬ LosesColon name := by
  constructor
  · intro h hcolon
    have hlen := congrArg String.length (hcolon.short_eq hs)
    simp [h] at hlen
  · intro hcolon
    by_cases h : [':', ':'] <:+: name.toList
    · exact short_inScope_of_infix _ h
    · rw [short_inScope_of_notInfix _ h fun hhead => hcolon ⟨hhead, h⟩, short_of_notInfix h]

/-- A short name has no pair of colons, so it is its own short name. Every scope keeps the short
name of a name, except of those that begin with a colon and have no pair: they lose this colon. A
name without a pair and without a colon in front is found again in any scope. -/
theorem short_of_scoped_name :
    (∀ name, ¬ [':', ':'] <:+: (short name).toList) ∧
    (∀ name, short (short name) = short name) ∧
    (∀ scope name, scope ≠ "" →
      (short (inScope (some scope) name) = short name ↔ ¬ LosesColon name) ∧
      (LosesColon name → short name = ":" ++ short (inScope (some scope) name))) ∧
    ∀ scope name, ¬ [':', ':'] <:+: name.toList → name.toList.head? ≠ some ':' →
      short (inScope scope name) = name := by
  have hshort : ∀ name, ¬ [':', ':'] <:+: (short name).toList := fun name => by
    rw [toList_short]
    exact pair_notInfix_lastSegment _
  exact ⟨hshort, fun name => short_of_notInfix (hshort name),
    fun scope name hs => ⟨short_inScope_eq_iff hs, fun h => h.short_eq hs⟩,
    fun scope name h hhead => short_inScope_of_notInfix scope h hhead⟩

/-- Colons that meet: the scope ends in one, or the name begins with one or with a pair. -/
theorem short_of_scoped_name_colons :
    "N:" ≠ "" ∧ LosesColon ":T" ∧ ¬ LosesColon "::T" ∧
    short (inScope (some "N:") "T") = "T" ∧
    short (inScope (some "N:") ":T") ≠ short ":T" ∧
    short ":T" = ":" ++ short (inScope (some "N:") ":T") ∧
    short (inScope (some "N:") "::T") = short "::T" := by
  obtain ⟨-, -, hscope, hfound⟩ := short_of_scoped_name
  have hne : "N:" ≠ "" := by decide
  have hloses : LosesColon ":T" := by decide
  have hkeeps : ¬ LosesColon "::T" := by decide
  exact ⟨hne, hloses, hkeeps, hfound (some "N:") "T" (by decide) (by decide),
    fun h => (hscope _ _ hne).1.1 h hloses, (hscope _ _ hne).2 hloses, (hscope _ _ hne).1.2 hkeeps⟩

/-- As many characters as there were, where each pair of colons gives way to two. -/
theorem length_replacePairs {w : List Char} (hw : w.length = 2) (s : List Char) :
    (replacePairs w s).length = s.length := by
  induction s using replacePairs.induct with
  | case1 => rfl
  | case2 c => rfl
  | case3 a b s hab ih => simp [replacePairs, hab, hw, ih]; omega
  | case4 a b s hab ih => rw [replacePairs, if_neg hab, List.length_cons, ih]; rfl

/-! ### Identifiers -/

/-- An identifier of C: letters, digits and underscores, with no digit in front. -/
structure IsIdentifier (name : String) : Prop where
  begins : ∃ c, name.toList.head? = some c ∧ (c.isAlpha = true ∨ c = '_')
  consists : ∀ c ∈ name.toList, c.isAlphanum = true ∨ c = '_'

instance (name : String) : Decidable (IsIdentifier name) :=
  decidable_of_iff ((name.toList.head?.any fun c => c.isAlpha || c == '_') = true ∧
      (name.toList.all fun c => c.isAlphanum || c == '_') = true) <| by
    simp only [Option.any_eq_true, List.all_eq_true, Bool.or_eq_true, beq_iff_eq]
    exact ⟨fun ⟨h, h'⟩ => ⟨h, h'⟩, fun ⟨h, h'⟩ => ⟨h, h'⟩⟩

theorem IsIdentifier.ne_empty (h : IsIdentifier name) : name ≠ "" := by
  rintro rfl
  obtain ⟨c, hc, -⟩ := h.begins
  cases hc

theorem IsIdentifier.notMem {c : Char} (h : IsIdentifier name)
    (hc : ¬ (c.isAlphanum = true ∨ c = '_')) : c ∉ name.toList :=
  fun hmem => hc (h.consists c hmem)

theorem IsIdentifier.colon_notMem (h : IsIdentifier name) :
    ':' ∉ name.toList := h.notMem (by decide)

theorem pair_notInfix_of_notMem (h : ':' ∉ s) : ¬ [':', ':'] <:+: s :=
  fun hpair => h (hpair.subset List.mem_cons_self)

/-- The short name of an identifier in a scope is the identifier. -/
theorem short_inScope (scope : Option String) (h : ':' ∉ name.toList) :
    short (inScope scope name) = name :=
  short_inScope_of_notInfix scope (pair_notInfix_of_notMem h)
    fun hhead => h (List.mem_of_head? hhead)

theorem replacePairs_of_notMem (w : List Char) (h : ':' ∉ s) :
    replacePairs w s = s := by
  induction s using replacePairs.induct with
  | case1 => rfl
  | case2 c => rfl
  | case3 a b s hab => exact absurd (by simp [hab.1]) h
  | case4 a b s hab ih =>
    rw [replacePairs, if_neg hab, ih fun hm => h (List.mem_cons_of_mem _ hm)]

theorem replacePairs_append (w t : List Char) (h : ':' ∉ s) :
    replacePairs w (s ++ ':' :: ':' :: t) = s ++ w ++ replacePairs w t := by
  induction s with
  | nil => simp [replacePairs]
  | cons a s ih =>
    have ha : a ≠ ':' := fun ha => h (by simp [ha])
    obtain ⟨b, r, hr⟩ : ∃ b r, s ++ ':' :: ':' :: t = b :: r := List.exists_cons_of_ne_nil (by simp)
    rw [List.cons_append, hr, replacePairs, if_neg fun hab => ha hab.1, ← hr,
      ih fun hm => h (List.mem_cons_of_mem _ hm)]
    simp

/-- Two names without colons joined by a pair of them, with the text in its place. -/
theorem toList_flatten_inScope {scope : String} (w : String) (hne : scope ≠ "")
    (hscope : ':' ∉ scope.toList) (hname : ':' ∉ name.toList) :
    (flatten w (inScope (some scope) name)).toList = scope.toList ++ w.toList ++ name.toList := by
  rw [toList_flatten, toList_inScope_of_ne hne, replacePairs_append _ _ hscope,
    replacePairs_of_notMem _ hname]

end TypeCorpus.Name

/-! ### Qualified names -/

namespace TypeCorpus.QualifiedName

theorem qualified_ofScope (scope : Option String) (name : String) :
    (ofScope scope name).qualified = Name.inScope scope name := by
  rw [qualified, ofScope]
  cases scope with
  | none => rfl
  | some scope =>
    by_cases h : scope = ""
    · subst h
      rfl
    · simp [Option.filter, h]

theorem display_eq_qualified (q : QualifiedName) : q.display = q.qualified := by
  obtain ⟨scope, name, hscope⟩ := q
  cases scope with
  | none => rfl
  | some scope =>
    have hne : scope ≠ "" := fun h => hscope (congrArg some h)
    simp [display, qualified, Name.inScope, hne]

end TypeCorpus.QualifiedName
