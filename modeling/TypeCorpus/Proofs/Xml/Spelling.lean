import Mathlib.Data.List.TakeWhile
import TypeCorpus.Proofs.Name
import TypeCorpus.Proofs.Xml.Tree

/-! Spellings of trees. An element whose names are identifiers is spelled by its tags, with escaped
values between double quotes; before, between and after the tags there may be comments, and any
text without an opening angle bracket. Each piece of a spelling is read by itself, whatever comes
after it: gaps give no event that counts, and every tag gives its own. So the events of a spelling
are those of the tree, and the tree is what is read from it. -/

namespace TypeCorpus

namespace Xml

/-! ### Spelling -/

/-- An attribute as it is spelled: a space, the key, and the escaped value in double quotes. -/
def attributeText (a : String × String) : List Char :=
  ' ' :: (a.1.toList ++ '=' :: '"' :: (escape a.2.toList ++ ['"']))

/-- What is spelled between the brackets of an opening tag. -/
def Tag.content (t : Tag) : List Char := t.name.toList ++ t.attributes.flatMap attributeText

/-- What may stand between tags: text without an opening bracket, and comments without dashes and
closing brackets in them. -/
inductive Gap : List Char → Prop
  | nil : Gap []
  | text {c : Char} {g : List Char} (plain : c ≠ '<') (rest : Gap g) : Gap (c :: g)
  | comment {w g : List Char} (plain : ∀ c ∈ w, c ≠ '-' ∧ c ≠ '>') (rest : Gap g) :
      Gap ('<' :: '!' :: '-' :: '-' :: (w ++ '-' :: '-' :: '>' :: g))

/-- The spellings of some elements one after the other, with gaps before, between and after the
tags. An element without children is spelled by one tag or by two. -/
inductive Spelled : List Element → List Char → Prop
  | nil {g : List Char} (gap : Gap g) : Spelled [] g
  | empty (t : Tag) {es : List Element} {g s : List Char} (gap : Gap g) (rest : Spelled es s) :
      Spelled (.ofTag t :: es) (g ++ '<' :: (t.content ++ '/' :: '>' :: s))
  | element (t : Tag) {children es : List Element} {g inner s : List Char} (gap : Gap g)
      (inside : Spelled children inner) (rest : Spelled es s) :
      Spelled (⟨t.name, t.attributes, children⟩ :: es)
        (g ++ '<' :: (t.content ++ '>' ::
          (inner ++ '<' :: '/' :: (t.name.toList ++ '>' :: s))))

/-- A tag with identifiers for names and no key twice. -/
structure Tag.Proper (t : Tag) : Prop where
  name_isIdentifier : Name.IsIdentifier t.name
  key_isIdentifier : ∀ a ∈ t.attributes, Name.IsIdentifier a.1
  keys_nodup : (t.attributes.map Prod.fst).Nodup

/-- An element all of whose tags are proper. -/
inductive Element.Proper : Element → Prop
  | intro (t : Tag) {children : List Element} (tag : t.Proper)
      (inside : ∀ c ∈ children, c.Proper) : Proper ⟨t.name, t.attributes, children⟩

theorem Gap.of_forall {g : List Char} (h : ∀ c ∈ g, c ≠ '<') : Gap g := by
  induction g with
  | nil => exact .nil
  | cons c g ih =>
    obtain ⟨hc, hg⟩ := List.forall_mem_cons.1 h
    exact .text hc (ih hg)

theorem Gap.of_cons {c : Char} {g : List Char} (h : Gap (c :: g)) (hc : c ≠ '<') : Gap g := by
  cases h with
  | text _ rest => exact rest
  | comment _ _ => exact absurd rfl hc

/-- What begins with text begins with a gap, and so does what comes after that character. -/
theorem Gap.exists_of_cons_eq {c : Char} {g r s : List Char} (h : Gap g)
    (hs : c :: s = g ++ '<' :: r) (hc : c ≠ '<') : ∃ g', Gap g' ∧ g' ++ '<' :: r = s := by
  rcases List.cons_eq_append_iff.1 hs with ⟨-, hr⟩ | ⟨g', rfl, hg'⟩
  · exact absurd (List.cons.inj hr).1.symm hc
  · exact ⟨g', h.of_cons hc, hg'.symm⟩

/-- A spelling without a character of text at its front is still one. -/
theorem Spelled.of_cons {es : List Element} {c : Char} {s : List Char} (h : Spelled es (c :: s))
    (hc : c ≠ '<') : Spelled es s := by
  generalize hs : c :: s = s' at h
  cases h with
  | nil gap =>
    subst hs
    exact .nil (gap.of_cons hc)
  | empty t gap rest =>
    obtain ⟨g', hg', rfl⟩ := gap.exists_of_cons_eq hs hc
    exact .empty t hg' rest
  | element t gap inside rest =>
    obtain ⟨g', hg', rfl⟩ := gap.exists_of_cons_eq hs hc
    exact .element t hg' inside rest

/-! ### Up to a character -/

variable {α : Type} {p : α → Bool} {front : List α} {x : α}

theorem takeWhile_upTo (hfront : ∀ a ∈ front, p a = true) (hx : p x = false) (s : List α) :
    (front ++ x :: s).takeWhile p = front := by
  rw [List.takeWhile_append_of_pos hfront, List.takeWhile_cons_of_neg (by simp [hx]),
    List.append_nil]

theorem dropWhile_upTo (hfront : ∀ a ∈ front, p a = true) (hx : p x = false) (s : List α) :
    (front ++ x :: s).dropWhile p = x :: s := by
  rw [List.dropWhile_append_of_pos hfront, List.dropWhile_cons_of_neg (by simp [hx])]

theorem dropWhile_isBlank_cons {c : Char} (hc : isBlank c = false) (s : List Char) :
    (c :: s).dropWhile isBlank = c :: s := List.dropWhile_cons_of_neg (by simp [hc])

/-! ### References -/

/-- A named reference is read as its character. -/
theorem unescapeFrom_reference {name : List Char} {c : Char}
    (hname : ∀ d ∈ name, (d ≠ '&' && d ≠ ';') = true) (hhash : name.head? ≠ some '#')
    (hc : entities.lookup (String.ofList name) = some c) (last : Nat) (s : List Char) :
    unescapeFrom last ('&' :: (name ++ ';' :: s)) = (unescapeFrom last s).map (c :: ·) := by
  rw [unescapeFrom, if_pos rfl]
  split
  · rename_i r h
    rw [dropWhile_upTo hname (by decide)] at h
    cases h
    rw [takeWhile_upTo hname (by decide)]
    dsimp only
    split
    · exact absurd rfl hhash
    · rw [hc]
      cases unescapeFrom last s <;> rfl
  · rename_i h
    exact absurd (dropWhile_upTo hname (by decide) s) (h _)

theorem unescapeFrom_escapeChar (last : Nat) (c : Char) (s : List Char) :
    unescapeFrom last (escapeChar c ++ s) = (unescapeFrom last s).map (c :: ·) := by
  have hreference : ∀ (name : List Char) (c : Char), (∀ d ∈ name, (d ≠ '&' && d ≠ ';') = true) →
      name.head? ≠ some '#' → entities.lookup (String.ofList name) = some c →
      unescapeFrom last (('&' :: name ++ [';']) ++ s) = (unescapeFrom last s).map (c :: ·) := by
    intro name c hname hhash hc
    simpa using unescapeFrom_reference hname hhash hc last s
  unfold escapeChar
  split
  · subst_vars
    exact hreference ['a', 'm', 'p'] '&' (by simp) (by decide) (by decide)
  split
  · subst_vars
    exact hreference ['l', 't'] '<' (by simp) (by decide) (by decide)
  split
  · subst_vars
    exact hreference ['g', 't'] '>' (by simp) (by decide) (by decide)
  split
  · subst_vars
    exact hreference ['q', 'u', 'o', 't'] '"' (by simp) (by decide) (by decide)
  · rename_i hampersand _ _ _
    rw [List.singleton_append, unescapeFrom, if_neg hampersand]

/-- Every text is read back from its escaped form. -/
theorem unescape_escape (s : List Char) : unescape (escape s) = .ok s := by
  rw [unescape]
  generalize Text.byteCount (escape s) = last
  induction s with
  | nil => rw [escape, List.flatMap_nil, unescapeFrom]
  | cons c s ih =>
    rw [escape, List.flatMap_cons, ← escape, unescapeFrom_escapeChar, ih]
    rfl

/-- An escaped character is written without angle brackets and double quotes. -/
theorem mem_escapeChar (d : Char) : ∀ c ∈ escapeChar d, c ≠ '<' ∧ c ≠ '>' ∧ c ≠ '"' := by
  unfold escapeChar
  split
  · simp
  split
  · simp
  split
  · simp
  split
  · simp
  · intro c hc
    obtain rfl := List.mem_singleton.1 hc
    tauto

theorem doubleQuote_notMem_escape (s : List Char) : '"' ∉ escape s := by
  intro h
  obtain ⟨d, -, hc⟩ := List.mem_flatMap.1 h
  exact (mem_escapeChar d _ hc).2.2 rfl

/-! ### Attributes -/

theorem isBlank_of_mem {name : String} (h : Name.IsIdentifier name) {c : Char}
    (hc : c ∈ name.toList) : isBlank c = false := by
  have hne : ∀ d, ¬ (d.isAlphanum = true ∨ d = '_') → c ≠ d :=
    fun d hd hcd => h.notMem hd (hcd ▸ hc)
  simp [isBlank, hne ' ' (by decide), hne '\t' (by decide), hne '\n' (by decide),
    hne '\r' (by decide)]

theorem localPart_of_notMem {name : List Char} (h : ':' ∉ name) :
    localPart name = String.ofList name := by
  have hdrop : name.dropWhile (· ≠ ':') = [] := by
    rw [List.dropWhile_eq_nil_iff]
    intro c hc
    simpa using fun hcolon : c = ':' => h (hcolon ▸ hc)
  rw [localPart, hdrop]

/-- An attribute is read, and then what comes after it. -/
theorem attributesFrom_next {last : Nat} {seen : List (List Char × Nat)}
    {s key r₂ r₃ r₄ value value' : List Char} {c : Char} {r : List Char}
    (hfront : s.dropWhile isBlank = c :: r) (hkey : c :: r.takeWhile inKey = key)
    (hequals : (r.dropWhile inKey).dropWhile isBlank = '=' :: r₂)
    (hseen : seen.lookup key = none) (hquote : r₂.dropWhile isBlank = '"' :: r₃)
    (hvalue : r₃.takeWhile (· ≠ '"') = value) (hclosed : r₃.dropWhile (· ≠ '"') = '"' :: r₄)
    (hunescape : unescape value = .ok value') :
    attributesFrom last seen s =
      (attributesFrom last ((key, last - Text.byteCount (c :: r)) :: seen) r₄).map
        ((localPart key, String.ofList value') :: ·) := by
  subst hkey hvalue
  rw [attributesFrom]
  split
  · rename_i h
    rw [hfront] at h
    cases h
  · rename_i h
    rw [hfront] at h
    cases h
    dsimp only
    split
    · rename_i h
      rw [hequals] at h
      cases h
    · rename_i h
      rw [hequals] at h
      cases h
      rw [if_neg (by simp), hseen]
      dsimp only
      split
      · rename_i h
        rw [hquote] at h
        cases h
      · rename_i h
        rw [hquote] at h
        cases h
        rw [if_pos (.inl rfl)]
        split
        · rename_i h
          rw [hclosed] at h
          cases h
        · rename_i h
          rw [hclosed] at h
          cases h
          rw [hunescape]

/-- A spelled attribute is read back. -/
theorem attributesFrom_attributeText {last : Nat} {seen : List (List Char × Nat)}
    {a : String × String} (hkey : Name.IsIdentifier a.1) (hseen : seen.lookup a.1.toList = none)
    (s : List Char) :
    ∃ place, attributesFrom last seen (attributeText a ++ s) =
      (attributesFrom last ((a.1.toList, place) :: seen) s).map (a :: ·) := by
  obtain ⟨key, value⟩ := a
  obtain ⟨c, r, hcr⟩ := List.exists_cons_of_ne_nil
    (fun h => hkey.ne_empty (String.toList_inj.1 h) : key.toList ≠ [])
  have hin : ∀ d ∈ r, inKey d = true := by
    intro d hd
    have hmem : d ∈ key.toList := hcr ▸ List.mem_cons_of_mem _ hd
    have hne : d ≠ '=' := fun h => hkey.notMem (by decide) (h ▸ hmem)
    simp [inKey, hne, isBlank_of_mem hkey hmem]
  have hc : isBlank c = false := isBlank_of_mem hkey (hcr ▸ List.mem_cons_self)
  have hvalue : ∀ d ∈ escape value.toList, decide (d ≠ '"') = true :=
    fun d hd => decide_eq_true fun h => doubleQuote_notMem_escape _ (h ▸ hd)
  have hfront : (attributeText (key, value) ++ s).dropWhile isBlank =
      c :: (r ++ '=' :: '"' :: (escape value.toList ++ '"' :: s)) := by
    have htext : attributeText (key, value) ++ s =
        ' ' :: c :: (r ++ '=' :: '"' :: (escape value.toList ++ '"' :: s)) := by
      simp [attributeText, hcr]
    rw [htext, List.dropWhile_cons_of_pos (by decide)]
    exact dropWhile_isBlank_cons hc _
  have hequals : ((r ++ '=' :: '"' :: (escape value.toList ++ '"' :: s)).dropWhile
      inKey).dropWhile isBlank = '=' :: '"' :: (escape value.toList ++ '"' :: s) := by
    rw [dropWhile_upTo hin (by decide)]
    exact dropWhile_isBlank_cons (by decide) _
  have hread : attributesFrom last seen (attributeText (key, value) ++ s) = _ :=
    attributesFrom_next hfront (by rw [takeWhile_upTo hin (by decide), hcr]) hequals hseen
      (dropWhile_isBlank_cons (by decide) _) (takeWhile_upTo hvalue (by decide) s)
      (dropWhile_upTo hvalue (by decide) s) (unescape_escape _)
  rw [localPart_of_notMem hkey.colon_notMem, String.ofList_toList, String.ofList_toList] at hread
  exact ⟨_, hread⟩

/-- Spelled attributes are read back, where no key comes twice. -/
theorem attributesFrom_flatMap (last : Nat) {as : List (String × String)}
    (hkeys : ∀ a ∈ as, Name.IsIdentifier a.1) (hnodup : (as.map Prod.fst).Nodup)
    (seen : List (List Char × Nat)) (hseen : ∀ a ∈ as, seen.lookup a.1.toList = none) :
    attributesFrom last seen (as.flatMap attributeText) = .ok as := by
  induction as generalizing seen with
  | nil => simp [attributesFrom]
  | cons a as ih =>
    obtain ⟨place, hread⟩ := attributesFrom_attributeText (hkeys a List.mem_cons_self)
      (hseen a List.mem_cons_self) (as.flatMap attributeText)
    rw [List.map_cons, List.nodup_cons] at hnodup
    have hrest : attributesFrom last ((a.1.toList, place) :: seen) (as.flatMap attributeText) =
        .ok as := by
      refine ih (fun b hb => hkeys b (List.mem_cons_of_mem _ hb)) hnodup.2 _ fun b hb => ?_
      have hne : b.1.toList ≠ a.1.toList := fun h =>
        hnodup.1 (String.toList_inj.1 h ▸ List.mem_map_of_mem hb)
      have hlookup := hseen b (List.mem_cons_of_mem _ hb)
      rwa [List.lookup_cons, beq_eq_false_iff_ne.2 hne]
    rw [List.flatMap_cons, hread, hrest]
    rfl

namespace Tag.Proper

variable {t : Tag} (ht : t.Proper)

include ht

theorem content_eq_cons : ∃ c w, t.content = c :: w ∧ c ≠ '/' ∧ c ≠ '!' ∧ c ≠ '?' := by
  obtain ⟨c, w, hname⟩ := List.exists_cons_of_ne_nil
    (fun h => ht.name_isIdentifier.ne_empty (String.toList_inj.1 h) : t.name.toList ≠ [])
  have hne : ∀ d, ¬ (d.isAlphanum = true ∨ d = '_') → c ≠ d := fun d hd hcd =>
    ht.name_isIdentifier.notMem hd (hcd ▸ hname ▸ List.mem_cons_self)
  exact ⟨c, w ++ t.attributes.flatMap attributeText, by rw [content, hname]; rfl,
    hne _ (by decide), hne _ (by decide), hne _ (by decide)⟩

/-- The content of an opening tag ends in its name or in a quote. -/
theorem getLast?_content : t.content.getLast? ≠ some '/' := by
  intro h
  rw [content] at h
  cases hattributes : t.attributes using List.reverseRecOn with
  | nil =>
    rw [hattributes, List.flatMap_nil, List.append_nil] at h
    exact ht.name_isIdentifier.notMem (by decide) (List.mem_of_getLast? h)
  | append_singleton as a =>
    have hquote : attributeText a = (' ' :: (a.1.toList ++ '=' :: '"' :: escape a.2.toList)) ++
        ['"'] := by simp [attributeText]
    rw [hattributes, List.flatMap_append, List.flatMap_singleton, hquote, ← List.append_assoc,
      ← List.append_assoc, List.getLast?_concat] at h
    exact absurd h (by decide)

/-- The name of a spelled tag ends at the first blank. -/
theorem tagName_content : tagName t.content = t.name.toList ∧
    t.content.dropWhile (!isBlank ·) = t.attributes.flatMap attributeText := by
  have hname : ∀ c ∈ t.name.toList, (!isBlank c) = true :=
    fun c hc => by simp [isBlank_of_mem ht.name_isIdentifier hc]
  rw [tagName, content, List.takeWhile_append_of_pos hname, List.dropWhile_append_of_pos hname]
  cases t.attributes with
  | nil => simp
  | cons a as =>
    have hblank : (!isBlank ' ') = false := by decide
    simp [attributeText, hblank]

/-- A tag is read back from its content. -/
theorem ofContent_content : Tag.ofContent t.content = .ok t := by
  obtain ⟨hname, hattributes⟩ := ht.tagName_content
  rw [Tag.ofContent, hname, hattributes, attributesFrom_flatMap _ ht.key_isIdentifier ht.keys_nodup
    [] (fun _ _ => rfl), localPart_of_notMem ht.name_isIdentifier.colon_notMem,
    String.ofList_toList]
  rfl

end Tag.Proper

/-! ### Constructs -/

/-- Reading some characters from one state ends at none of them and comes to another state. -/
inductive Passes {σ : Type} (ends : σ → Char → Bool) (next : σ → Char → σ) :
    σ → List Char → σ → Prop
  | nil (q : σ) : Passes ends next q [] q
  | cons {q q' : σ} {c : Char} {w : List Char} (here : ends q c = false)
      (rest : Passes ends next (next q c) w q') : Passes ends next q (c :: w) q'

namespace Passes

variable {σ : Type} {ends : σ → Char → Bool} {next : σ → Char → σ} {q q' q'' : σ}
  {w w' : List Char}

theorem append (h : Passes ends next q w q') (h' : Passes ends next q' w' q'') :
    Passes ends next q (w ++ w') q'' := by
  induction h with
  | nil => exact h'
  | cons here _ ih => exact .cons here (ih h')

/-- Characters that change nothing are passed. -/
theorem of_forall (h : ∀ c ∈ w, ends q c = false ∧ next q c = q) : Passes ends next q w q := by
  induction w with
  | nil => exact .nil q
  | cons c w ih =>
    obtain ⟨hends, hnext⟩ := h c List.mem_cons_self
    have hw : Passes ends next q w q := ih fun d hd => h d (List.mem_cons_of_mem _ hd)
    exact .cons hends (hnext.symm ▸ hw)

/-- What was passed is the text up to the character that ends it. -/
theorem splitWhen_eq (h : Passes ends next q w q') {c : Char} (hc : ends q' c = true)
    (rest : List Char) : splitWhen ends next q (w ++ c :: rest) = some (w, rest) := by
  induction h with
  | nil => exact if_pos hc
  | cons here _ ih =>
    rw [List.cons_append, splitWhen, here, if_neg Bool.false_ne_true, ih hc]
    rfl

end Passes

/-- No bracket, no end: what was read is remembered backwards. -/
theorem passes_backwards {n : Nat} {v w : List Char} (hw : '>' ∉ w) (read : List Char) :
    Passes (fun read c => c = '>' && n ≤ read.length && (Text.after? v read).isSome)
      (fun read c => c :: read) read w (w.reverse ++ read) := by
  induction w generalizing read with
  | nil => exact .nil read
  | cons c w ih =>
    rw [List.reverse_cons, List.append_assoc]
    have hc : c ≠ '>' := fun h => hw (h ▸ List.mem_cons_self)
    exact .cons (by simp [hc]) (ih (fun h => hw (List.mem_cons_of_mem _ h)) (c :: read))

/-- A comment ends at its own bracket. -/
theorem splitAfter_comment {w : List Char} (hw : ∀ c ∈ w, c ≠ '-' ∧ c ≠ '>') (rest : List Char) :
    Construct.split? .comment ('!' :: '-' :: '-' :: (w ++ ['-', '-']) ++ '>' :: rest) =
      some ('!' :: '-' :: '-' :: (w ++ ['-', '-']), rest) := by
  have hbracket : '>' ∉ '!' :: '-' :: '-' :: (w ++ ['-', '-']) := by
    simpa using fun h => (hw '>' h).2 rfl
  have hpasses := passes_backwards (n := 5) (v := ['-', '-']) hbracket []
  refine hpasses.splitWhen_eq ?_ rest
  simp [Text.after?]

/-- How reading goes through a part of a tag, with the quotes that are open before and after it. -/
abbrev PassesQuoted : Option Char → List Char → Option Char → Prop :=
  Passes (fun quote c => c = '>' && quote = none) fun quote c =>
    match quote with
    | none => if c = '"' ∨ c = '\'' then some c else none
    | some q => if c = q then none else some q

theorem passesQuoted_plain {w : List Char} (hw : ∀ c ∈ w, c ≠ '>' ∧ c ≠ '"' ∧ c ≠ '\'') :
    PassesQuoted none w none :=
  Passes.of_forall fun c hc => by simp [hw c hc]

theorem passesQuoted_value {w : List Char} (hw : '"' ∉ w) :
    PassesQuoted none ('"' :: (w ++ ['"'])) none := by
  have hin : PassesQuoted (some '"') w (some '"') :=
    Passes.of_forall fun c hc => by
      have hne : c ≠ '"' := fun h => hw (h ▸ hc)
      simp [hne]
  exact .cons (by decide) (hin.append (.cons (by decide) (.nil _)))

theorem passesQuoted_name {name : String} (h : Name.IsIdentifier name) :
    PassesQuoted none name.toList none :=
  passesQuoted_plain fun c hc =>
    ⟨fun hne => h.notMem (by decide) (hne ▸ hc), fun hne => h.notMem (by decide) (hne ▸ hc),
      fun hne => h.notMem (by decide) (hne ▸ hc)⟩

theorem passesQuoted_content {t : Tag} (ht : t.Proper) : PassesQuoted none t.content none := by
  have hattribute : ∀ a ∈ t.attributes, PassesQuoted none (attributeText a) none := by
    intro a ha
    have hspace : PassesQuoted none [' '] none := passesQuoted_plain (by simp)
    have hequals : PassesQuoted none ['='] none := passesQuoted_plain (by simp)
    have hvalue := passesQuoted_value (doubleQuote_notMem_escape a.2.toList)
    exact hspace.append ((passesQuoted_name (ht.key_isIdentifier a ha)).append
      (hequals.append hvalue))
  refine (passesQuoted_name ht.name_isIdentifier).append ?_
  generalize t.attributes = as at hattribute
  induction as with
  | nil => exact .nil none
  | cons a as ih =>
    rw [List.flatMap_cons]
    exact (hattribute a List.mem_cons_self).append
      (ih fun b hb => hattribute b (List.mem_cons_of_mem _ hb))

/-! ### Reading a spelling -/

/-- Reading a piece of a text gives some events, with some tags open before it and some after it,
wherever it stands and whatever comes next. -/
def Reads (opened opened' : OpenNames) (s : List Char) (events : List Event) : Prop :=
  ∀ place rest, ∃ place', streamFrom opened place (s ++ rest) =
    ⟨events ++ (streamFrom opened' place' rest).events, (streamFrom opened' place' rest).fault⟩

/-- One construct is read, and reading goes on behind it. -/
theorem streamFrom_next {opened opened' : OpenNames} {place : Nat} {body content rest : List Char}
    {k : Construct} {event : Event} (hk : Construct.begins body = some k)
    (hsplit : k.split? body = some (content, rest))
    (hevent : ∀ place, k.event opened place content = .ok (event, opened')) :
    ∃ place', streamFrom opened place ('<' :: body) =
      ⟨event :: (streamFrom opened' place' rest).events, (streamFrom opened' place' rest).fault⟩ := by
  have hbody : ('<' :: body).dropWhile (· ≠ '<') = '<' :: body := rfl
  rw [streamFrom]
  split
  · rename_i h
    rw [hbody] at h
    cases h
  · rename_i h
    rw [hbody] at h
    cases h
    simp only [hk]
    split
    · rename_i h
      rw [hsplit] at h
      cases h
    · rename_i h
      rw [hsplit] at h
      cases h
      simp only [hevent]
      exact ⟨_, rfl⟩

/-- Text before the next bracket is passed over. -/
theorem streamFrom_text {c : Char} (hc : c ≠ '<') (opened : OpenNames) (place : Nat)
    (s : List Char) :
    streamFrom opened place (c :: s) = streamFrom opened (place + c.utf8Size) s := by
  have hdrop : (c :: s).dropWhile (· ≠ '<') = s.dropWhile (· ≠ '<') :=
    List.dropWhile_cons_of_pos (by simpa using hc)
  have htake : (c :: s).takeWhile (· ≠ '<') = c :: s.takeWhile (· ≠ '<') :=
    List.takeWhile_cons_of_pos (by simpa using hc)
  rw [streamFrom.eq_def]
  split
  · rename_i h
    rw [hdrop] at h
    rw [streamFrom.eq_def]
    split
    · rfl
    · rename_i h'
      rw [h] at h'
      cases h'
  · rename_i h
    rw [hdrop] at h
    rw [streamFrom.eq_def opened (place + c.utf8Size) s, htake, Text.byteCount_cons, ← Nat.add_assoc]
    refine Eq.symm ?_
    split
    · rename_i h'
      rw [h] at h'
      cases h'
    · rename_i h'
      rw [h] at h'
      cases h'
      rfl

namespace Reads

variable {opened opened' opened'' : OpenNames} {s s' : List Char} {events events' : List Event}

theorem nil (opened : OpenNames) : Reads opened opened [] [] := fun place _ => ⟨place, rfl⟩

theorem append (h : Reads opened opened' s events) (h' : Reads opened' opened'' s' events') :
    Reads opened opened'' (s ++ s') (events ++ events') := by
  intro place rest
  obtain ⟨place', hs⟩ := h place (s' ++ rest)
  obtain ⟨place'', hs'⟩ := h' place' rest
  exact ⟨place'', by rw [List.append_assoc, hs, hs', List.append_assoc]⟩

/-- A piece that is one construct. -/
theorem of_construct (k : Construct) {content : List Char} {event : Event}
    (hk : ∀ rest, Construct.begins (content ++ '>' :: rest) = some k)
    (hsplit : ∀ rest, k.split? (content ++ '>' :: rest) = some (content, rest))
    (hevent : ∀ place, k.event opened place content = .ok (event, opened')) :
    Reads opened opened' ('<' :: (content ++ ['>'])) [event] := by
  intro place rest
  rw [List.cons_append, List.append_assoc]
  exact streamFrom_next (hk rest) (hsplit rest) hevent

theorem text {c : Char} (hc : c ≠ '<') (opened : OpenNames) : Reads opened opened [c] [] :=
  fun place rest => ⟨_, streamFrom_text hc opened place rest⟩

theorem comment {w : List Char} (hw : ∀ c ∈ w, c ≠ '-' ∧ c ≠ '>') (opened : OpenNames) :
    Reads opened opened ('<' :: ('!' :: '-' :: '-' :: (w ++ ['-', '-']) ++ ['>'])) [.other] :=
  of_construct .comment (fun _ => rfl) (splitAfter_comment hw) fun _ => rfl

/-- A tag that neither closes nor begins like other constructs. -/
theorem of_tag {t : Tag} (ht : t.Proper) {w : List Char} {event : Event}
    (hw : PassesQuoted none w none)
    (hevent : ∀ content, content = t.content ++ w →
      (if content.getLast? = some '/' then
        (Tag.ofContent content.dropLast).map fun tag => (Event.empty tag, opened)
      else (Tag.ofContent content).map fun tag => (.opening tag, tagName content :: opened)) =
        .ok (event, opened')) :
    Reads opened opened' ('<' :: (t.content ++ w ++ ['>'])) [event] := by
  obtain ⟨c, v, hcontent, hslash, hbang, hquestion⟩ := ht.content_eq_cons
  refine of_construct .tag (fun rest => ?_) (fun rest => ?_) fun place => ?_
  · rw [hcontent]
    unfold Construct.begins
    split <;> simp_all
  · exact ((passesQuoted_content ht).append hw).splitWhen_eq (by decide) rest
  · rw [← hevent _ rfl, Construct.event, tagEvent]
    intro name hname
    rw [hcontent] at hname
    exact hslash (List.cons.inj hname).1

theorem opening {t : Tag} (ht : t.Proper) (opened : OpenNames) :
    Reads opened (t.name.toList :: opened) ('<' :: (t.content ++ ['>'])) [.opening t] := by
  have hread : Reads opened (t.name.toList :: opened) ('<' :: (t.content ++ [] ++ ['>']))
      [.opening t] := by
    refine of_tag ht (.nil none) ?_
    rintro content rfl
    rw [List.append_nil, if_neg ht.getLast?_content, ht.ofContent_content, ht.tagName_content.1]
    rfl
  rwa [List.append_nil] at hread

theorem empty {t : Tag} (ht : t.Proper) (opened : OpenNames) :
    Reads opened opened ('<' :: (t.content ++ ['/'] ++ ['>'])) [.empty t] := by
  refine of_tag ht (passesQuoted_plain (by simp)) ?_
  rintro content rfl
  rw [if_pos List.getLast?_concat, List.dropLast_concat, ht.ofContent_content]
  rfl

theorem closing {name : String} (h : Name.IsIdentifier name) (opened : OpenNames) :
    Reads (name.toList :: opened) opened ('<' :: ('/' :: name.toList ++ ['>']))
      [.closing name] := by
  refine of_construct .tag (fun rest => rfl) (fun rest => ?_) fun place => ?_
  · have hslash : PassesQuoted none ['/'] none := passesQuoted_plain (by simp)
    exact (hslash.append (passesQuoted_name h)).splitWhen_eq (by decide) rest
  · have hblank : closingName name.toList = name.toList :=
      closingName_of_not_blank fun c hc => isBlank_of_mem h hc
    simp only [Construct.event, tagEvent, hblank, if_true, localPart_of_notMem h.colon_notMem,
      String.ofList_toList]

end Reads

/-- Reading a gap gives no event that counts. -/
theorem Gap.reads {g : List Char} (h : Gap g) :
    ∃ events, events.filter (· ≠ .other) = [] ∧ ∀ opened, Reads opened opened g events := by
  induction h with
  | nil => exact ⟨[], rfl, Reads.nil⟩
  | text plain _ ih =>
    obtain ⟨events, hother, hreads⟩ := ih
    exact ⟨events, hother, fun opened => (Reads.text plain opened).append (hreads opened)⟩
  | comment plain _ ih =>
    obtain ⟨events, hother, hreads⟩ := ih
    refine ⟨.other :: events, by simpa using hother, fun opened => ?_⟩
    simpa using (Reads.comment plain opened).append (hreads opened)

theorem Element.Proper.tag {name : String} {attributes : List (String × String)}
    {children : List Element} (h : Element.Proper ⟨name, attributes, children⟩) :
    Tag.Proper ⟨name, attributes⟩ := by
  obtain ⟨t, ht, -⟩ := h
  exact ht

theorem Element.Proper.inside {e : Element} (h : e.Proper) : ∀ c ∈ e.children, c.Proper := by
  obtain ⟨t, -, hinside⟩ := h
  exact hinside

/-- Reading a spelling gives the events of the elements that it spells. -/
theorem Spelled.reads {es : List Element} {s : List Char} (h : Spelled es s)
    (hes : ∀ e ∈ es, e.Proper) :
    ∃ events, Written es (events.filter (· ≠ .other)) ∧
      ∀ opened, Reads opened opened s events := by
  induction h with
  | nil gap =>
    obtain ⟨events, hother, hreads⟩ := gap.reads
    exact ⟨events, hother ▸ .nil, hreads⟩
  | empty t gap _ ih =>
    obtain ⟨he, hes⟩ := List.forall_mem_cons.1 hes
    obtain ⟨between, hother, hgap⟩ := gap.reads
    obtain ⟨events, hwritten, hreads⟩ := ih hes
    refine ⟨between ++ .empty t :: events, ?_, fun opened => ?_⟩
    · rw [List.filter_append, hother]
      simpa using Written.empty t hwritten
    · simpa using (hgap opened).append ((Reads.empty he.tag opened).append (hreads opened))
  | element t gap _ _ ih ih' =>
    obtain ⟨he, hes⟩ := List.forall_mem_cons.1 hes
    obtain ⟨between, hother, hgap⟩ := gap.reads
    obtain ⟨within, hwithin, hinner⟩ := ih he.inside
    obtain ⟨events, hwritten, hreads⟩ := ih' hes
    refine ⟨between ++ .opening t :: (within ++ .closing t.name :: events), ?_, fun opened => ?_⟩
    · rw [List.filter_append, hother]
      simpa using Written.element t t.name hwithin hwritten
    · have hopening := (hgap opened).append (Reads.opening he.tag opened)
      have hclosing := Reads.closing he.tag.name_isIdentifier opened
      simpa using hopening.append ((hinner _).append (hclosing.append (hreads opened)))

/-- A mark at the front of a spelling belongs to the first gap, which goes on without it. -/
theorem Spelled.withoutMark {es : List Element} {s : List Char} (h : Spelled es s) :
    Spelled es (Text.withoutMark s) := by
  cases s with
  | nil => exact h
  | cons c s =>
    rw [Text.withoutMark]
    split
    · rename_i hmark
      have hc : c ≠ '<' := fun hc => by simp [hc] at hmark
      exact h.of_cons hc
    · exact h

/-- Every list of elements has a spelling. -/
theorem exists_spelled : ∀ es : List Element, ∃ s, Spelled es s
  | [] => ⟨[], .nil .nil⟩
  | ⟨name, attributes, children⟩ :: es =>
    have ⟨_, hinner⟩ := exists_spelled children
    have ⟨_, hs⟩ := exists_spelled es
    ⟨_, .element ⟨name, attributes⟩ .nil hinner hs⟩

/-- The tree that is spelled is the tree that is read. -/
theorem Element.parse_of_spelled {t : Element} (ht : t.Proper) {text : String}
    (h : Spelled [t] text.toList) : Element.parse text = .ok t := by
  obtain ⟨events, hwritten, hreads⟩ := h.withoutMark.reads (List.forall_mem_singleton.2 ht)
  obtain ⟨place, hstream⟩ := hreads [] 0 []
  have hend : streamFrom [] place [] = ⟨[], none⟩ := by
    rw [streamFrom]
    rfl
  rw [hend, List.append_nil, List.append_nil] at hstream
  rw [Element.parse, Stream.ofText, hstream]
  exact Stream.ofStream_of_written hwritten rfl

end Xml

namespace Document

open Xml (Element Tag Gap Spelled)

/-- A tree whose names are identifiers can be spelled, and whatever spelling of it a text is, the
document of the text is the tree. -/
theorem parse_spelling {t : Element} (ht : t.Proper) :
    (∃ text : String, Spelled [t] text.toList) ∧
      ∀ label text, Spelled [t] text.toList → parse label text = .ok ⟨label, t⟩ := by
  refine ⟨?_, fun label text h => ?_⟩
  · obtain ⟨s, hs⟩ := Xml.exists_spelled [t]
    exact ⟨String.ofList s, String.toList_ofList.symm ▸ hs⟩
  · rw [parse, Element.parse_of_spelled ht h]

/-- Two elements without children in a third, a comment before it, text and a comment in it. -/
theorem parse_spelling_types :
    parse "a.xml" ("\n<!--<types--><types note=\"&lt; &amp;gt;&quot;&gt;\">/> &amp; <enum/>" ++
        "<x_1><!----></x_1></types>") =
      .ok ⟨"a.xml", ⟨"types", [("note", "< &gt;\">")], [⟨"enum", [], []⟩, ⟨"x_1", [], []⟩]⟩⟩ := by
  have hchild : ∀ name, Name.IsIdentifier name → Element.Proper ⟨name, [], []⟩ := fun name hname =>
    .intro ⟨name, []⟩ ⟨hname, by simp, by simp⟩ (by simp)
  have hproper : Element.Proper
      ⟨"types", [("note", "< &gt;\">")], [⟨"enum", [], []⟩, ⟨"x_1", [], []⟩]⟩ := by
    refine .intro ⟨"types", [("note", "< &gt;\">")]⟩ ⟨by decide, by decide, by decide⟩ ?_
    simpa using ⟨hchild "enum" (by decide), hchild "x_1" (by decide)⟩
  have hbefore : Gap ('\n' :: '<' :: '!' :: '-' :: '-' :: ("<types".toList ++ ['-', '-', '>'])) :=
    .text (by decide) (.comment (by simp) .nil)
  have htext : Gap "/> &amp; ".toList := Gap.of_forall (by simp)
  have hcomment : Gap "<!---->".toList := Gap.comment (w := []) (by simp) .nil
  have hspelled := Spelled.element ⟨"types", [("note", "< &gt;\">")]⟩ hbefore
    (.empty ⟨"enum", []⟩ htext (.element ⟨"x_1", []⟩ .nil (.nil hcomment) (.nil .nil))) (.nil .nil)
  refine (parse_spelling hproper).2 "a.xml" _ (Eq.subst ?_ hspelled)
  decide

end Document

end TypeCorpus
