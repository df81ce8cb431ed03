import Mathlib.Data.List.Infix
import Mathlib.Data.List.TakeWhile
import TypeCorpus.Wire.Scan

/-! Where the name of a documented wire structure stands. The scan takes the earliest place for each
part of what it looks for, so from the name on it passes every end of a comment that no definition
follows. One end of a comment lies between the name and the definition exactly where the first one
after the name has a definition after it; the comment that gives the name is then the one right
before the definition. Elsewhere the name is that of a comment further up. -/

namespace TypeCorpus

open Text

namespace WireStruct

theorem exists_of_firstPlace? {α : Type} {read? : List Char → Option α} {s : List Char} {x : α}
    (h : firstPlace? read? s = some x) : ∃ p r, s = p ++ r ∧ read? r = some x ∧
      ∀ p' r', s = p' ++ r' → p'.length < p.length → read? r' = none := by
  induction s with
  | nil => exact ⟨[], [], rfl, h, fun p' r' _ hlt => absurd hlt (Nat.not_lt_zero _)⟩
  | cons c s ih =>
    cases hr : read? (c :: s) with
    | some y =>
      simp only [firstPlace?, hr] at h
      cases h
      exact ⟨[], c :: s, rfl, hr, fun p' r' _ hlt => absurd hlt (Nat.not_lt_zero _)⟩
    | none =>
      simp only [firstPlace?, hr] at h
      obtain ⟨p, r, rfl, hread, hmin⟩ := ih h
      refine ⟨c :: p, r, rfl, hread, fun p' r' hp' hlt => ?_⟩
      cases p' with
      | nil => rw [← hr, hp', List.nil_append]
      | cons a p' =>
        simp only [List.cons_append, List.cons.injEq] at hp'
        exact hmin p' r' hp'.2 (Nat.lt_of_succ_lt_succ hlt)

/-- The text in front of a canonical name. -/
def nameStart : List Char := "Wire struct for ".toList

def commentEnd : List Char := "*/".toList

/-- A name and a definition in a header, with what stands around them: before the name's text,
between the name and the last end of a comment before the definition, blank after that, and after
the definition. -/
structure Attribution where
  before : List Char
  canonical : List Char
  gap : List Char
  blanks : List Char
  base : List Char
  after : List Char

namespace Attribution

variable {a : Attribution} {s : List Char}

def definition (a : Attribution) : List Char := definitionStart ++ a.base ++ a.after

/-- What lies between the name and the definition. -/
def between (a : Attribution) : List Char := a.gap ++ commentEnd ++ a.blanks

def afterName (a : Attribution) : List Char := a.between ++ a.definition

def text (a : Attribution) : List Char := a.before ++ (nameStart ++ a.canonical ++ a.afterName)

/-- The text up to the end of the definition's base. -/
def upToBase (a : Attribution) : List Char :=
  a.before ++ (nameStart ++ a.canonical ++ (a.between ++ (definitionStart ++ a.base)))

theorem text_eq_upToBase (a : Attribution) : a.text = a.upToBase ++ a.after := by
  simp [text, afterName, definition, upToBase]

def wire (header : String) (a : Attribution) : WireStruct :=
  documented (String.ofList a.base) header (String.ofList a.canonical)

/-- The name and the definition stand in a text as the parts say, after a comment was begun. -/
structure StandsIn (a : Attribution) (s : List Char) : Prop where
  text_eq : a.text = s
  opened : "/**".toList <:+: a.before
  canonical_read :
    canonical? (nameStart ++ a.canonical ++ a.afterName) = some (a.canonical, a.afterName)
  blanks_blank : ∀ c ∈ a.blanks, isBlank c = true
  definition_read : definition? a.definition = some (a.base, a.after)

/-- The definition is the first one after the name that follows an end of a comment. -/
def Nearest (a : Attribution) : Prop :=
  ∀ p r, a.afterName = p ++ commentEnd ++ r → p.length < a.gap.length →
    definition? (skipBlanks r) = none

/-- Exactly one end of a comment lies between the name and the definition. -/
def OneEnd (a : Attribution) : Prop :=
  ∃! p : List Char × List Char, a.between = p.1 ++ commentEnd ++ p.2

/-- The first end of a comment after the name has a definition after it. -/
def FirstEndDefines (a : Attribution) : Prop :=
  ∃ r, firstAfter? commentEnd a.afterName = some r ∧ (definition? (skipBlanks r)).isSome = true

/-- Ends of comments do not overlap. -/
theorem commentEnd_apart {u v p q : List Char}
    (h : u ++ commentEnd ++ v = p ++ commentEnd ++ q) :
    p = u ∧ q = v ∨ (∃ m, u = p ++ commentEnd ++ m) ∨ ∃ m, v = m ++ commentEnd ++ q := by
  have hend : commentEnd = ['*', '/'] := by decide
  rw [hend, List.append_assoc, List.append_assoc, List.append_eq_append_iff] at h
  rcases h with ⟨m, rfl, hm⟩ | ⟨m, rfl, hm⟩
  · rcases m with _ | ⟨x, _ | ⟨y, m⟩⟩
    · simp_all
    · simp_all
    · simp only [List.cons_append, List.nil_append, List.cons.injEq] at hm
      exact .inr (.inr ⟨m, by rw [hm.2.2, hend, List.append_assoc]; rfl⟩)
  · rcases m with _ | ⟨x, _ | ⟨y, m⟩⟩
    · simp_all
    · simp_all
    · simp only [List.cons_append, List.nil_append, List.cons.injEq] at hm
      exact .inr (.inl ⟨m, by rw [hend, ← hm.1, ← hm.2.1, List.append_assoc]; rfl⟩)

theorem commentEnd_notMem (hb : ∀ c ∈ a.blanks, isBlank c = true) (m q : List Char) :
    a.blanks ≠ m ++ commentEnd ++ q := by
  intro h
  have hstar : isBlank '*' = true := hb '*' (by rw [h]; simp [commentEnd])
  exact absurd hstar (by decide)

/-- The end of a comment right before the definition is the only one in between exactly where none
lies in the gap. -/
theorem oneEnd_iff_gap (hb : ∀ c ∈ a.blanks, isBlank c = true) :
    a.OneEnd ↔ ∀ p m, a.gap ≠ p ++ commentEnd ++ m := by
  constructor
  · rintro ⟨⟨u, v⟩, -, huniq⟩ p m hgap
    have hlast : (a.gap, a.blanks) = (u, v) := huniq _ rfl
    have hfirst : (p, m ++ commentEnd ++ a.blanks) = (u, v) := by
      refine huniq _ ?_
      simp [between, hgap]
    have hlen := congrArg (fun x => x.1.length) (hlast.trans hfirst.symm)
    rw [hgap] at hlen
    simp [commentEnd] at hlen
  · intro hgap
    refine ⟨(a.gap, a.blanks), rfl, ?_⟩
    rintro ⟨p, q⟩ hpq
    rcases commentEnd_apart hpq with ⟨hp, hq⟩ | ⟨m, hm⟩ | ⟨m, hm⟩
    · exact Prod.ext hp hq
    · exact absurd hm (hgap p m)
    · exact absurd hm (commentEnd_notMem hb m q)

theorem skipBlanks_definition (hb : ∀ c ∈ a.blanks, isBlank c = true) :
    skipBlanks (a.blanks ++ a.definition) = a.definition := by
  have hhead : a.definition.dropWhile isBlank = a.definition := by
    have hstart : definitionStart = 't' :: definitionStart.tail := by decide
    have ht : isBlank 't' = false := by decide
    rw [definition, List.append_assoc, hstart, List.cons_append,
      List.dropWhile_cons_of_neg (by simp [ht])]
  rw [skipBlanks, List.dropWhile_append_of_pos hb, hhead]

/-- Where one end of a comment lies between them, it is the first after the name. -/
theorem StandsIn.firstEndDefines (h : a.StandsIn s) (hone : a.OneEnd) : a.FirstEndDefines := by
  have hgap := (oneEnd_iff_gap h.blanks_blank).1 hone
  refine ⟨a.blanks ++ a.definition, ?_, ?_⟩
  · refine firstAfter?_eq_some_iff.2 ⟨a.gap, by simp [afterName, between], fun p r hp => ?_⟩
    have hsplit : a.gap ++ commentEnd ++ (a.blanks ++ a.definition) = p ++ commentEnd ++ r := by
      rw [← hp]; simp [afterName, between]
    rcases commentEnd_apart hsplit with ⟨hpg, -⟩ | ⟨m, hm⟩ | ⟨m, hm⟩
    · rw [hpg]
    · exact absurd hm (hgap p m)
    · have hlen := congrArg List.length hsplit
      have hlen' := congrArg List.length hm
      simp only [List.length_append] at hlen hlen'
      omega
  · rw [skipBlanks_definition h.blanks_blank, h.definition_read]
    rfl

/-- Exactly one end of a comment lies between the name and the nearest definition exactly where the
first end after the name has a definition after it. -/
theorem StandsIn.oneEnd_iff (h : a.StandsIn s) (hnear : a.Nearest) :
    a.OneEnd ↔ a.FirstEndDefines := by
  refine ⟨h.firstEndDefines, ?_⟩
  rintro ⟨r, hr, hdef⟩
  obtain ⟨p, hp, hmin⟩ := firstAfter?_eq_some_iff.1 hr
  have hle : a.gap.length ≤ p.length := by
    by_contra hlt
    rw [hnear p r hp (Nat.lt_of_not_le hlt)] at hdef
    cases hdef
  refine (oneEnd_iff_gap h.blanks_blank).2 fun p' m hgap => ?_
  have hearly : p.length ≤ p'.length :=
    hmin p' (m ++ commentEnd ++ a.blanks ++ a.definition) (by simp [afterName, between, hgap])
  have hlen := congrArg List.length hgap
  have hend : commentEnd.length = 2 := by decide
  simp only [List.length_append] at hlen
  omega

/-- The same parts in a text with more in front. -/
def behind (p : List Char) (a : Attribution) : Attribution := { a with before := p ++ a.before }

theorem before_behind (p : List Char) (a : Attribution) : (a.behind p).before = p ++ a.before := rfl

theorem upToBase_behind (p : List Char) (a : Attribution) :
    (a.behind p).upToBase = p ++ a.upToBase := List.append_assoc _ _ _

theorem StandsIn.behind (h : a.StandsIn s) (p : List Char) : (a.behind p).StandsIn (p ++ s) where
  text_eq := by rw [← h.text_eq, text, text, ← List.append_assoc p]; rfl
  opened := h.opened.trans (List.suffix_append p a.before).isInfix
  canonical_read := h.canonical_read
  blanks_blank := h.blanks_blank
  definition_read := h.definition_read

end Attribution

theorem eq_of_canonical? {s w r : List Char} (h : canonical? s = some (w, r)) :
    s = nameStart ++ w ++ r := by
  simp only [canonical?] at h
  split at h
  · cases h
  · rename_i q hq
    split at h
    · cases h
    · cases h
      rw [List.append_assoc, List.takeWhile_append_dropWhile]
      exact after?_eq_some_iff.1 hq

theorem eq_of_definition? {s w r : List Char} (h : definition? s = some (w, r)) :
    s = definitionStart ++ w ++ r := by
  simp only [definition?] at h
  split at h
  · cases h
  · rename_i q hq
    split at h
    · cases h
    · cases h
      rw [List.append_assoc, List.takeWhile_append_dropWhile]
      exact after?_eq_some_iff.1 hq

theorem commented?_commentEnd (r : List Char) :
    commented? (commentEnd ++ r) = definition? (skipBlanks r) := by
  simp only [commented?, show "*/".toList = commentEnd from rfl, after?_append]

theorem eq_of_commented? {s w r : List Char} (h : commented? s = some (w, r)) :
    ∃ blanks, (∀ c ∈ blanks, isBlank c = true) ∧
      s = commentEnd ++ blanks ++ (definitionStart ++ w ++ r) ∧
      definition? (definitionStart ++ w ++ r) = some (w, r) := by
  simp only [commented?] at h
  split at h
  · cases h
  · rename_i q hq
    have hdef := eq_of_definition? h
    have hsplit : q = q.takeWhile isBlank ++ skipBlanks q :=
      List.takeWhile_append_dropWhile.symm
    refine ⟨q.takeWhile isBlank, fun c hc => List.mem_takeWhile_imp hc, ?_, hdef ▸ h⟩
    rw [← hdef, List.append_assoc, ← hsplit]
    exact after?_eq_some_iff.1 hq

/-- What the scan for a documented definition finds stands in the text, nearest to the name. -/
theorem exists_of_firstDocumented? {s canonical base r : List Char}
    (h : firstDocumented? s = some (canonical, base, r)) :
    ∃ a : Attribution, a.canonical = canonical ∧ a.base = base ∧ a.after = r ∧
      a.StandsIn s ∧ a.Nearest := by
  simp only [firstDocumented?] at h
  split at h
  · cases h
  · rename_i s₁ hopen
    split at h
    · cases h
    · rename_i c s₂ hname
      obtain ⟨⟨b, r'⟩, hdef, he⟩ := Option.map_eq_some_iff.1 h
      cases he
      obtain ⟨p₀, rfl⟩ := exists_of_firstAfter? hopen
      obtain ⟨p₁, q₁, rfl, hcanonical, -⟩ := exists_of_firstPlace? hname
      obtain ⟨gap, q₂, rfl, hcommented, hmin⟩ := exists_of_firstPlace? hdef
      obtain ⟨blanks, hblank, rfl, hread⟩ := eq_of_commented? hcommented
      have hstart := eq_of_canonical? hcanonical
      let a : Attribution := ⟨p₀ ++ "/**".toList ++ p₁, canonical, gap, blanks, base, r⟩
      have hafter : a.afterName =
          gap ++ (commentEnd ++ blanks ++ (definitionStart ++ base ++ r)) := by
        simp [a, Attribution.afterName, Attribution.between, Attribution.definition]
      refine ⟨a, rfl, rfl, rfl, ⟨?_, ⟨p₀, p₁, rfl⟩, ?_, hblank, hread⟩, fun p t ht hlt => ?_⟩
      · rw [Attribution.text, hafter, hstart, List.append_assoc _ p₁]
      · rw [hafter, ← hstart]; exact hcanonical
      · rw [← commented?_commentEnd]
        refine hmin p (commentEnd ++ t) ?_ hlt
        rw [← hafter, ht, List.append_assoc]

/-- The documented definitions of a text in order, each with what stands around it; one ends before
the name of the next. -/
theorem exists_apart_of_documentedIn (s : List Char) : ∃ as : List Attribution,
    documentedIn s = as.map (fun a => (a.canonical, a.base)) ∧
      (∀ a ∈ as, a.StandsIn s ∧ a.Nearest) ∧
      as.Pairwise fun a b => a.upToBase.length ≤ b.before.length := by
  induction s using documentedIn.induct with
  | case1 s h => exact ⟨[], by rw [documentedIn, h]; rfl, by simp, .nil⟩
  | case2 s canonical base r h ih =>
    obtain ⟨as, hdocumented, has, hapart⟩ := ih
    obtain ⟨a, rfl, rfl, rfl, hstands, hnear⟩ := exists_of_firstDocumented? h
    have hsplit : a.upToBase ++ a.after = s := by rw [← a.text_eq_upToBase, hstands.text_eq]
    refine ⟨a :: as.map (Attribution.behind a.upToBase), ?_, ?_, List.pairwise_cons.2 ⟨?_, ?_⟩⟩
    · rw [documentedIn, h]
      simp only [hdocumented, List.map_cons, List.map_map]
      rfl
    · intro b hb
      rcases List.mem_cons.1 hb with rfl | hb
      · exact ⟨hstands, hnear⟩
      · obtain ⟨c, hc, rfl⟩ := List.mem_map.1 hb
        exact ⟨hsplit ▸ (has c hc).1.behind a.upToBase, (has c hc).2⟩
    · intro b hb
      obtain ⟨c, -, rfl⟩ := List.mem_map.1 hb
      rw [Attribution.before_behind, List.length_append]
      exact Nat.le_add_right _ _
    · refine List.pairwise_map.2 (hapart.imp fun hle => ?_)
      rw [Attribution.upToBase_behind, Attribution.before_behind, List.length_append,
        List.length_append]
      exact Nat.add_le_add_left hle _

/-- The documented definitions of a text, each with what stands around it. -/
theorem exists_of_documentedIn (s : List Char) : ∃ as : List Attribution,
    documentedIn s = as.map (fun a => (a.canonical, a.base)) ∧
      ∀ a ∈ as, a.StandsIn s ∧ a.Nearest := by
  obtain ⟨as, hdocumented, has, -⟩ := exists_apart_of_documentedIn s
  exact ⟨as, hdocumented, has⟩

/-- Every wire structure that a header documents has the name and the definition that some places of
the header give, the definition being the nearest after the name that follows an end of a comment.
Exactly one end of a comment lies between the two, so that the name stands in the comment right
before the definition, where the first end after the name has a definition after it, and only
there. -/
theorem scan_documented (header content : String) : ∃ as : List Attribution,
    documentedIn content.toList = as.map (fun a => (a.canonical, a.base)) ∧
    (as ≠ [] → scan header content = as.map (Attribution.wire header)) ∧
    ∀ a ∈ as, a.StandsIn content.toList ∧ a.Nearest ∧ (a.OneEnd ↔ a.FirstEndDefines) := by
  obtain ⟨as, hdocumented, has⟩ := exists_of_documentedIn content.toList
  refine ⟨as, hdocumented, fun hne => ?_, fun a ha => ?_⟩
  · rw [scan, hdocumented]
    cases as with
    | nil => exact absurd rfl hne
    | cons a as => simp [Attribution.wire, Function.comp_def]
  · obtain ⟨hstands, hnear⟩ := has a ha
    exact ⟨hstands, hnear, hstands.oneEnd_iff hnear⟩

/-- The comment of a structure that is no wire structure gives its name to the next one that is,
whose own comment gives another. -/
theorem documented_under_foreign_name :
    let content := "/** Wire struct for Nav::C_Fix */ struct Fix;" ++
      "/** Wire struct for Car::C_Speed */ typedef struct Wire_Car_C_Speed s;"
    let w := documented "Car_C_Speed" "fix.h" "Nav::C_Fix"
    documentedIn content.toList ≠ [] ∧ scan "fix.h" content = [w] ∧
      ∀ a : Attribution, a.StandsIn content.toList → a.wire "fix.h" = w → ¬ a.OneEnd := by
  intro content w
  refine ⟨by decide +kernel, by decide +kernel, fun a ha hw hone => ?_⟩
  -- wherever the name stands, the first end of a comment after it has no definition after it
  have hnone : ∀ t ∈ content.toList.tails, ∀ q ∈ after? (nameStart ++ "Nav::C_Fix".toList) t,
      ∀ r ∈ firstAfter? commentEnd q, definition? (skipBlanks r) = none := by decide +kernel
  have hname : a.canonical = "Nav::C_Fix".toList := by
    have htype : String.ofList a.canonical = "Nav::C_Fix" := congrArg typeName hw
    rw [← htype, String.toList_ofList]
  obtain ⟨r, hr, hdef⟩ := ha.firstEndDefines hone
  have htext := ha.text_eq
  rw [Attribution.text, hname] at htext
  have hplace : nameStart ++ "Nav::C_Fix".toList ++ a.afterName ∈ content.toList.tails :=
    (List.mem_tails _ _).2 ⟨a.before, htext⟩
  rw [hnone _ hplace a.afterName (after?_append _ _) r hr] at hdef
  cases hdef

end WireStruct

end TypeCorpus
