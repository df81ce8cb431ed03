import Mathlib.Data.List.Pairwise
import Mathlib.Data.List.Sort
import TypeCorpus.Proofs.Name
import TypeCorpus.Proofs.Wire.Comment

/-! The definitions in a text. A definition stands wherever its fixed text is followed by a word,
and it takes the whole word. One may begin in the word of another, so of those in a text the scan
takes the leftmost that do not overlap: each ends before the next begins, and every definition
begins in one that is taken. There is one such list only. A header has its plain definitions guessed
where no comment with a name ends right before one. The names of a wire structure come from its
base, which is a word, or from the comment, and in both the topic is the type name flattened. -/

namespace TypeCorpus

open Text

namespace WireStruct

/-! ### Reading at a place -/

theorem firstPlace?_eq_none_iff {α : Type} {read? : List Char → Option α} {s : List Char} :
    firstPlace? read? s = none ↔ ∀ p r, s = p ++ r → read? r = none := by
  induction s with
  | nil =>
    rw [firstPlace?]
    exact ⟨fun h p r hpr => by rwa [(List.append_eq_nil_iff.1 hpr.symm).2], fun h => h [] [] rfl⟩
  | cons c s ih =>
    cases hread : read? (c :: s) with
    | some a =>
      simp only [firstPlace?, hread]
      exact iff_of_false (Option.some_ne_none a)
        fun h => Option.some_ne_none a (hread.symm.trans (h [] _ rfl))
    | none =>
      simp only [firstPlace?, hread, ih]
      refine ⟨fun h p r hpr => ?_, fun h p r hpr => h (c :: p) r (by rw [hpr, List.cons_append])⟩
      cases p with
      | nil => rw [← hread, hpr, List.nil_append]
      | cons a p => exact h p r (List.cons.inj hpr).2

/-- Where something can be read, it or something before it is found. -/
theorem exists_firstPlace?_of_read {α : Type} {read? : List Char → Option α} (p : List Char)
    {r : List Char} {a : α} (h : read? r = some a) : ∃ p' r' a', p ++ r = p' ++ r' ∧
      read? r' = some a' ∧ firstPlace? read? (p ++ r) = some a' ∧ p'.length ≤ p.length := by
  cases hfirst : firstPlace? read? (p ++ r) with
  | none => exact absurd (h.symm.trans (firstPlace?_eq_none_iff.1 hfirst p r rfl)) nofun
  | some a' =>
    obtain ⟨p', r', hsplit, hread, hmin⟩ := exists_of_firstPlace? hfirst
    refine ⟨p', r', a', hsplit, hread, rfl, Nat.le_of_not_lt fun hlt => ?_⟩
    exact absurd (h.symm.trans (hmin p r rfl hlt)) nofun

theorem firstAfter?_eq_firstPlace? (w s : List Char) :
    firstAfter? w s = firstPlace? (after? w) s := by
  induction s with
  | nil => rfl
  | cons c s ih =>
    rw [firstAfter?, firstPlace?, ih]
    cases after? w (c :: s) <;> rfl

/-- Reads a fixed text and the longest run of some characters after it, which is not empty. -/
def run? (w : List Char) (p : Char → Bool) (s : List Char) : Option (List Char × List Char) :=
  match after? w s with
  | none => none
  | some r => if r.takeWhile p = [] then none else some (r.takeWhile p, r.dropWhile p)

theorem run?_eq_some_iff {w s found r : List Char} {p : Char → Bool} :
    run? w p s = some (found, r) ↔ s = w ++ found ++ r ∧ found ≠ [] ∧
      (∀ c ∈ found, p c = true) ∧ ∀ c ∈ r.head?, p c = false := by
  constructor
  · intro h
    rw [run?] at h
    split at h
    · cases h
    · rename_i r' hr
      split at h
      · cases h
      · rename_i hne
        cases h
        refine ⟨?_, hne, fun c hc => List.mem_takeWhile_imp hc, fun c hc => ?_⟩
        · rw [List.append_assoc, List.takeWhile_append_dropWhile]
          exact after?_eq_some_iff.1 hr
        · have hstop := List.head?_dropWhile_not p r'
          rwa [Option.mem_def.1 hc] at hstop
  · rintro ⟨rfl, hne, hfound, hwhole⟩
    have hstop : r.takeWhile p = [] ∧ r.dropWhile p = r := by
      cases r with
      | nil => exact ⟨rfl, rfl⟩
      | cons c r => simp [hwhole c rfl]
    simp only [run?, List.append_assoc, after?_append]
    rw [List.takeWhile_append_of_pos hfound, List.dropWhile_append_of_pos hfound, hstop.1, hstop.2,
      List.append_nil, if_neg hne]

theorem definition?_eq_some_iff {s base r : List Char} : definition? s = some (base, r) ↔
    s = definitionStart ++ base ++ r ∧ base ≠ [] ∧ (∀ c ∈ base, isWord c = true) ∧
      ∀ c ∈ r.head?, isWord c = false := run?_eq_some_iff

theorem canonical?_eq_some_iff {s canonical r : List Char} :
    canonical? s = some (canonical, r) ↔ s = nameStart ++ canonical ++ r ∧ canonical ≠ [] ∧
      (∀ c ∈ canonical, inCanonical c = true) ∧ ∀ c ∈ r.head?, inCanonical c = false :=
  run?_eq_some_iff

/-- A run is read wherever the fixed text is followed by some of the characters. -/
theorem exists_of_run? {w front : List Char} {p : Char → Bool} (hne : front ≠ [])
    (hfront : ∀ c ∈ front, p c = true) (r : List Char) :
    ∃ found r', run? w p (w ++ (front ++ r)) = some (found, r') := by
  have htake : (front ++ r).takeWhile p = front ++ r.takeWhile p :=
    List.takeWhile_append_of_pos hfront
  have hfound : (front ++ r).takeWhile p ≠ [] := by
    rw [htake]
    exact fun h => hne (List.append_eq_nil_iff.1 h).1
  exact ⟨_, _, by rw [run?, after?_append]; exact if_neg hfound⟩

/-! ### The leftmost definitions -/

/-- A definition in a text, with what stands before and after it. -/
structure Definition where
  before : List Char
  base : List Char
  after : List Char

namespace Definition

variable {d e : Definition} {s : List Char}

def text (d : Definition) : List Char := d.before ++ (definitionStart ++ d.base ++ d.after)

/-- The number of characters before the definition. -/
def start (d : Definition) : ℕ := d.before.length

/-- The number of characters up to the end of the base. -/
def stop (d : Definition) : ℕ := (d.before ++ definitionStart ++ d.base).length

theorem start_lt_stop (d : Definition) : d.start < d.stop := by
  have hlen : definitionStart.length = 20 := by decide
  simp only [start, stop, List.length_append, hlen]
  omega

/-- The definition stands in a text and its base is the whole word. -/
structure StandsIn (d : Definition) (s : List Char) : Prop where
  text_eq : d.text = s
  base_ne_nil : d.base ≠ []
  base_word : ∀ c ∈ d.base, isWord c = true
  whole : ∀ c ∈ d.after.head?, isWord c = false

theorem standsIn_iff : d.StandsIn s ↔ d.text = s ∧
    definition? (definitionStart ++ d.base ++ d.after) = some (d.base, d.after) := by
  rw [definition?_eq_some_iff]
  exact ⟨fun h => ⟨h.text_eq, rfl, h.base_ne_nil, h.base_word, h.whole⟩,
    fun h => ⟨h.1, h.2.2.1, h.2.2.2.1, h.2.2.2.2⟩⟩

/-- At one place of a text stands one definition. -/
theorem StandsIn.eq_of_start (hd : d.StandsIn s) (he : e.StandsIn s) (h : d.start = e.start) :
    d = e := by
  obtain ⟨hdtext, hdread⟩ := standsIn_iff.1 hd
  obtain ⟨hetext, heread⟩ := standsIn_iff.1 he
  obtain ⟨hbefore, hrest⟩ := List.append_inj (hdtext.trans hetext.symm) h
  rw [hrest, heread, Option.some.injEq, Prod.mk.injEq] at hdread
  cases d
  cases e
  simp_all

/-- The same definition in a text with more in front. -/
def behind (p : List Char) (d : Definition) : Definition := { d with before := p ++ d.before }

@[simp] theorem start_behind (p : List Char) (d : Definition) :
    (d.behind p).start = p.length + d.start := List.length_append

@[simp] theorem stop_behind (p : List Char) (d : Definition) :
    (d.behind p).stop = p.length + d.stop := by
  simp only [behind, stop, List.length_append, Nat.add_assoc]

theorem standsIn_behind_iff {p : List Char} :
    (d.behind p).StandsIn (p ++ s) ↔ d.StandsIn s := by
  have htext : (d.behind p).text = p ++ d.text := List.append_assoc _ _ _
  rw [standsIn_iff, standsIn_iff, htext, List.append_cancel_left_eq]
  rfl

/-- A definition that begins behind the front of a text stands in the rest. -/
theorem StandsIn.exists_behind {p : List Char} (h : d.StandsIn (p ++ s)) (hp : p.length ≤ d.start) :
    ∃ e : Definition, d = e.behind p ∧ e.StandsIn s := by
  obtain ⟨q, hq⟩ : p <+: d.before :=
    List.prefix_of_prefix_length_le ⟨s, rfl⟩ ⟨_, h.text_eq⟩ hp
  have hd : d = (Definition.mk q d.base d.after).behind p := by rw [behind, hq]
  exact ⟨_, hd, standsIn_behind_iff.1 (hd ▸ h)⟩

end Definition

/-- The leftmost definitions of a text that do not overlap. -/
structure Leftmost (ds : List Definition) (s : List Char) : Prop where
  stands : ∀ d ∈ ds, d.StandsIn s
  apart : ds.Pairwise fun d e => d.stop ≤ e.start
  leftmost : ∀ d : Definition, d.StandsIn s → ∃ e ∈ ds, e.start ≤ d.start ∧ d.start < e.stop

namespace Leftmost

variable {ds es : List Definition} {d e : Definition} {s : List Char}

theorem nil (h : firstPlace? definition? s = none) : Leftmost [] s where
  stands := by simp
  apart := .nil
  leftmost d hd := by
    obtain ⟨htext, hread⟩ := Definition.standsIn_iff.1 hd
    rw [firstPlace?_eq_none_iff.1 h d.before _ htext.symm] at hread
    cases hread

/-- The first definition and the leftmost ones after it. -/
theorem cons (hd : d.StandsIn s) (hfirst : ∀ e : Definition, e.StandsIn s → d.start ≤ e.start)
    (h : Leftmost ds d.after) :
    Leftmost (d :: ds.map (Definition.behind (d.before ++ definitionStart ++ d.base))) s where
  stands e he := by
    rcases List.mem_cons.1 he with rfl | he
    · exact hd
    · obtain ⟨f, hf, rfl⟩ := List.mem_map.1 he
      rw [← hd.text_eq, Definition.text, ← List.append_assoc, ← List.append_assoc]
      exact Definition.standsIn_behind_iff.2 (h.stands f hf)
  apart := by
    refine List.pairwise_cons.2 ⟨fun e he => ?_, List.pairwise_map.2 (h.apart.imp fun hlt => ?_)⟩
    · obtain ⟨e, -, rfl⟩ := List.mem_map.1 he
      rw [Definition.start_behind]
      exact Nat.le_add_right _ _
    · rw [Definition.stop_behind, Definition.start_behind]
      exact Nat.add_le_add_left hlt _
  leftmost e he := by
    by_cases hstop : e.start < d.stop
    · exact ⟨d, List.mem_cons_self, hfirst e he, hstop⟩
    · have hsplit : s = d.before ++ definitionStart ++ d.base ++ d.after := by
        rw [← hd.text_eq, Definition.text, ← List.append_assoc, ← List.append_assoc]
      obtain ⟨e', rfl, he'⟩ := (hsplit ▸ he).exists_behind (Nat.le_of_not_lt hstop)
      obtain ⟨f, hf, hle, hlt⟩ := h.leftmost e' he'
      refine ⟨_, List.mem_cons_of_mem _ (List.mem_map_of_mem hf), ?_, ?_⟩
      · rw [Definition.start_behind, Definition.start_behind]
        exact Nat.add_le_add_left hle _
      · rw [Definition.start_behind, Definition.stop_behind]
        exact Nat.add_lt_add_left hlt _

theorem stop_le_start (h : Leftmost ds s) (hd : d ∈ ds) (he : e ∈ ds) (hlt : d.start < e.start) :
    d.stop ≤ e.start := by
  have hsymm : Std.Symm fun d e : Definition => d.stop ≤ e.start ∨ e.stop ≤ d.start :=
    ⟨fun _ _ => Or.symm⟩
  have hne : d ≠ e := fun heq => Nat.ne_of_lt hlt (congrArg Definition.start heq)
  have heither : ds.Pairwise fun d e => d.stop ≤ e.start ∨ e.stop ≤ d.start := h.apart.imp Or.inl
  refine (heither.forall hd he hne).resolve_right fun hle => ?_
  have hstart := d.start_lt_stop
  have hstop := e.start_lt_stop
  omega

/-- What stands in one such list stands in the other: it begins in a definition of that list, which
by induction is in both, and no two of one list overlap. -/
theorem mem_of_mem (hds : Leftmost ds s) (hes : Leftmost es s) (h : d ∈ ds) : d ∈ es := by
  induction hn : d.start using Nat.strong_induction_on generalizing d ds es with
  | _ n ih =>
    obtain ⟨e, he, hle, hlt⟩ := hes.leftmost d (hds.stands d h)
    rcases Nat.eq_or_lt_of_le hle with heq | hbefore
    · rwa [(hds.stands d h).eq_of_start (hes.stands e he) heq.symm]
    · have heds : e ∈ ds := ih e.start (hn ▸ hbefore) hes hds he rfl
      exact absurd (hds.stop_le_start heds h hbefore) (Nat.not_le_of_lt hlt)

theorem unique (hds : Leftmost ds s) (hes : Leftmost es s) : ds = es := by
  have hirrefl : Std.Irrefl fun d e : Definition => d.stop ≤ e.start :=
    ⟨fun d => Nat.not_le_of_lt d.start_lt_stop⟩
  have hantisymm : Std.Antisymm fun d e : Definition => d.stop ≤ e.start :=
    ⟨fun d e hle hle' => by
      have hd := d.start_lt_stop
      have he := e.start_lt_stop
      omega⟩
  exact hds.apart.eq_of_mem_iff hes.apart fun d => ⟨hds.mem_of_mem hes, hes.mem_of_mem hds⟩

end Leftmost

/-- The scan for definitions takes the leftmost. -/
theorem exists_leftmost (s : List Char) :
    ∃ ds, Leftmost ds s ∧ basesIn s = ds.map Definition.base := by
  induction s using basesIn.induct with
  | case1 s h => exact ⟨[], .nil h, by rw [basesIn, h]; rfl⟩
  | case2 s base r h ih =>
    obtain ⟨ds, hds, hbases⟩ := ih
    obtain ⟨p, q, rfl, hread, hmin⟩ := exists_of_firstPlace? h
    let d : Definition := ⟨p, base, r⟩
    have hq := eq_of_definition? hread
    have hd : d.StandsIn (p ++ q) :=
      Definition.standsIn_iff.2 ⟨by rw [hq]; rfl, by rw [← hread, hq]⟩
    have hfirst : ∀ e : Definition, e.StandsIn (p ++ q) → d.start ≤ e.start := by
      intro e he
      obtain ⟨htext, heread⟩ := Definition.standsIn_iff.1 he
      by_contra hlt
      rw [hmin _ _ htext.symm (Nat.lt_of_not_le hlt)] at heread
      cases heread
    refine ⟨_, .cons hd hfirst hds, ?_⟩
    rw [basesIn, h]
    simp only [hbases, List.map_cons, List.map_map]
    rfl

theorem Leftmost.basesIn_eq {ds : List Definition} {s : List Char} (h : Leftmost ds s) :
    basesIn s = ds.map Definition.base := by
  obtain ⟨es, hes, hbases⟩ := exists_leftmost s
  rw [hbases, h.unique hes]

/-! ### Comments with a name -/

/-- Somewhere in a text a comment begins and gives a canonical name, and right before a definition,
but for blanks, one ends. -/
def Documents (s : List Char) : Prop :=
  ∃ before opening canonical gap blanks base after : List Char,
    s = before ++ "/**".toList ++ opening ++ (nameStart ++ canonical ++ gap ++
      (commentEnd ++ blanks ++ (definitionStart ++ base ++ after))) ∧
    canonical ≠ [] ∧ (∀ c ∈ canonical, inCanonical c = true) ∧
    (∀ c ∈ blanks, isBlank c = true) ∧ base ≠ [] ∧ ∀ c ∈ base, isWord c = true

theorem documents_of_firstDocumented? {s : List Char} {d : List Char × List Char × List Char}
    (h : firstDocumented? s = some d) : Documents s := by
  obtain ⟨canonical, base, r⟩ := d
  obtain ⟨a, -, -, -, hstands, -⟩ := exists_of_firstDocumented? h
  obtain ⟨before, opening, hopened⟩ := hstands.opened
  obtain ⟨-, hne, hcanonical, -⟩ := canonical?_eq_some_iff.1 hstands.canonical_read
  obtain ⟨-, hbase, hword, -⟩ := definition?_eq_some_iff.1 hstands.definition_read
  refine ⟨before, opening, a.canonical, a.gap, a.blanks, a.base, a.after, ?_, hne, hcanonical,
    hstands.blanks_blank, hbase, hword⟩
  rw [hopened, ← hstands.text_eq]
  simp [Attribution.text, Attribution.afterName, Attribution.between, Attribution.definition]

/-- The first occurrence of a text leaves what stands behind a later one. -/
theorem exists_of_firstAfter?_append (w front back : List Char) :
    ∃ more, firstAfter? w (front ++ (w ++ back)) = some (more ++ back) := by
  obtain ⟨p, q, r, hsplit, hread, hfirst, hle⟩ :=
    exists_firstPlace?_of_read front (after?_append w back)
  have hlen := congrArg List.length hsplit
  rw [after?_eq_some_iff.1 hread] at hsplit hlen
  obtain ⟨more, rfl⟩ : back <:+ r := by
    refine List.suffix_of_suffix_length_le ⟨front ++ w, List.append_assoc _ _ _⟩
      (hsplit ▸ ⟨p ++ w, List.append_assoc _ _ _⟩) ?_
    simp only [List.length_append] at hlen
    omega
  exact ⟨more, by rw [firstAfter?_eq_firstPlace?, hfirst]⟩

/-- A canonical name that is read ends before any end of a comment. -/
theorem exists_of_canonical_append {p c r q m : List Char} (hc : ∀ x ∈ c, inCanonical x = true)
    (h : p ++ c ++ r = q ++ (commentEnd ++ m)) (hp : p.length ≤ q.length) :
    ∃ gap, r = gap ++ (commentEnd ++ m) := by
  rcases List.append_eq_append_iff.1 h with ⟨gap, -, hr⟩ | ⟨gap, hq, hm⟩
  · exact ⟨gap, hr⟩
  · cases gap with
    | nil => exact ⟨[], hm.symm⟩
    | cons x gap =>
      -- the end of the comment would begin in the name
      have hlen := congrArg List.length hq
      simp only [List.length_append] at hlen
      have hsuffix : x :: gap <:+ c :=
        List.suffix_of_suffix_length_le ⟨q, hq.symm⟩ ⟨p, rfl⟩ (by omega)
      have hstar : x = '*' := (List.cons.inj hm).1.symm
      have hx : inCanonical x = true := hc x (hsuffix.subset List.mem_cons_self)
      rw [hstar] at hx
      cases hx

/-- The first canonical name in a text leaves the end of a comment behind a later one. -/
theorem exists_of_firstPlace?_canonical? {canonical : List Char} (hne : canonical ≠ [])
    (hcanonical : ∀ c ∈ canonical, inCanonical c = true) (front gap m : List Char) :
    ∃ c more, firstPlace? canonical? (front ++
      (nameStart ++ (canonical ++ (gap ++ (commentEnd ++ m))))) =
        some (c, more ++ (commentEnd ++ m)) := by
  obtain ⟨c₀, r₀, hname⟩ := exists_of_run? (w := nameStart) hne hcanonical
    (gap ++ (commentEnd ++ m))
  have hread₀ : canonical? (nameStart ++ (canonical ++ (gap ++ (commentEnd ++ m)))) =
      some (c₀, r₀) := hname
  obtain ⟨p, q, ⟨c, r⟩, hsplit, hread, hfirst, hle⟩ := exists_firstPlace?_of_read front hread₀
  obtain ⟨rfl, -, hc, -⟩ := canonical?_eq_some_iff.1 hread
  have hparts : p ++ nameStart ++ c ++ r = front ++ nameStart ++ canonical ++ gap ++
      (commentEnd ++ m) := by
    simp only [List.append_assoc] at hsplit ⊢
    exact hsplit.symm
  obtain ⟨more, rfl⟩ := exists_of_canonical_append hc hparts (by
    simp only [List.length_append]
    omega)
  exact ⟨c, more, hfirst⟩

/-- Where the parts of such a comment stand, each is found in turn. -/
theorem Documents.firstDocumented?_ne_none {s : List Char} (h : Documents s) :
    firstDocumented? s ≠ none := by
  obtain ⟨before, opening, canonical, gap, blanks, base, after, rfl, hne, hcanonical, hblanks,
    hbase, hword⟩ := h
  let a : Attribution := ⟨before, canonical, gap, blanks, base, after⟩
  obtain ⟨b, r, hdefinition⟩ := exists_of_run? (w := definitionStart) hbase hword after
  have hcommented : commented? (commentEnd ++ (blanks ++ a.definition)) = some (b, r) := by
    rw [commented?_commentEnd, a.skipBlanks_definition hblanks, ← hdefinition]
    exact congrArg definition? (List.append_assoc _ _ _)
  obtain ⟨front, hopen⟩ := exists_of_firstAfter?_append "/**".toList before
    (opening ++ (nameStart ++ (canonical ++ (gap ++ (commentEnd ++ (blanks ++ a.definition))))))
  obtain ⟨c, more, hname⟩ := exists_of_firstPlace?_canonical? hne hcanonical (front ++ opening) gap
    (blanks ++ a.definition)
  obtain ⟨-, -, found, -, -, hfirst, -⟩ := exists_firstPlace?_of_read more hcommented
  have hdocumented : firstDocumented? (before ++ ("/**".toList ++ (opening ++ (nameStart ++
      (canonical ++ (gap ++ (commentEnd ++ (blanks ++ a.definition)))))))) = some (c, found) := by
    rw [firstDocumented?, hopen]
    simp only [← List.append_assoc front opening, hname, hfirst, Option.map_some]
  have htext : a.definition = definitionStart ++ base ++ after := rfl
  simp only [htext] at hdocumented
  simp only [List.append_assoc] at hdocumented ⊢
  rw [hdocumented]
  exact Option.some_ne_none _

/-- A header documents a definition exactly where the parts of such a comment stand in its text. -/
theorem documentedIn_eq_nil_iff {s : List Char} : documentedIn s = [] ↔ ¬ Documents s := by
  rw [documentedIn]
  split
  · rename_i hnone
    exact iff_of_true rfl fun h => h.firstDocumented?_ne_none hnone
  · rename_i hsome
    exact iff_of_false nofun fun h => h (documents_of_firstDocumented? hsome)

/-- What the scan of a header finds in its text. Where comments document definitions, these alone,
each after the one before; else every definition, the leftmost that do not overlap. -/
structure ScansText (header content : String) : Prop where
  documented : Documents content.toList → ∃ as : List Attribution, as ≠ [] ∧
    (∀ a ∈ as, a.StandsIn content.toList) ∧
    as.Pairwise (fun a b => a.upToBase.length ≤ b.before.length) ∧
    scan header content = as.map (Attribution.wire header)
  guessed : ¬ Documents content.toList → (∃ ds, Leftmost ds content.toList) ∧
    ∀ ds, Leftmost ds content.toList →
      scan header content = ds.map fun d => WireStruct.guessed (String.ofList d.base) header

theorem scansText (header content : String) : ScansText header content where
  documented h := by
    obtain ⟨as, hdocumented, has, hapart⟩ := exists_apart_of_documentedIn content.toList
    have hne : as ≠ [] := by
      rintro rfl
      exact documentedIn_eq_nil_iff.1 hdocumented h
    refine ⟨as, hne, fun a ha => (has a ha).1, hapart, ?_⟩
    rw [scan, hdocumented]
    cases as with
    | nil => exact absurd rfl hne
    | cons a as => simp [Attribution.wire, Function.comp_def]
  guessed h := by
    obtain ⟨ds, hds, -⟩ := exists_leftmost content.toList
    refine ⟨⟨ds, hds⟩, fun es hes => ?_⟩
    rw [scan, documentedIn_eq_nil_iff.2 h]
    simp only [hes.basesIn_eq, List.map_map]
    rfl

/-! ### Names -/

/-- A wire structure is named by a base, a word, and its topic is its type name flattened. -/
structure Named (w : WireStruct) : Prop where
  full_eq : w.full = "Wire_" ++ w.base
  base_ne_empty : w.base ≠ ""
  base_word : ∀ c ∈ w.base.toList, isWord c = true
  topicName_eq : w.topicName = Name.flatten "__" w.typeName

theorem replaceFirst_of_notMem {a : Char} {s : List Char} (w : List Char) (h : a ∉ s) :
    replaceFirst a w s = s := by
  induction s with
  | nil => rfl
  | cons c s ih =>
    obtain ⟨hc, hs⟩ := not_or.1 (mt List.mem_cons.2 h)
    rw [replaceFirst, if_neg (Ne.symm hc), ih hs]

theorem replaceFirst_append {a : Char} {p : List Char} (w s : List Char) (h : a ∉ p) :
    replaceFirst a w (p ++ a :: s) = p ++ w ++ s := by
  induction p with
  | nil => rw [List.nil_append, replaceFirst, if_pos rfl, List.nil_append]
  | cons c p ih =>
    obtain ⟨hc, hp⟩ := not_or.1 (mt List.mem_cons.2 h)
    rw [List.cons_append, replaceFirst, if_neg (Ne.symm hc), ih hp]
    rfl

/-- A text without colons, parted by a pair of them and flattened, is parted by underscores. -/
theorem replacePairs_replaceFirst {s : List Char} (w : List Char) (h : ':' ∉ s) :
    Name.replacePairs w (replaceFirst '_' [':', ':'] s) = replaceFirst '_' w s := by
  by_cases hmem : '_' ∈ s
  · obtain ⟨front, back, rfl, hfront⟩ := List.eq_append_cons_of_mem hmem
    obtain ⟨hf, hb⟩ : ':' ∉ front ∧ ':' ∉ back := by simpa using h
    rw [replaceFirst_append _ _ hfront, replaceFirst_append _ _ hfront, List.append_assoc]
    exact (Name.replacePairs_append w back hf).trans (by rw [Name.replacePairs_of_notMem w hb])
  · rw [replaceFirst_of_notMem _ hmem, replaceFirst_of_notMem _ hmem,
      Name.replacePairs_of_notMem _ h]

theorem named_documented {base : List Char} (hne : base ≠ [])
    (hword : ∀ c ∈ base, isWord c = true) (header canonical : String) :
    (documented (String.ofList base) header canonical).Named where
  full_eq := rfl
  base_ne_empty h := hne (String.ofList_eq_empty_iff.1 h)
  base_word := by simpa [documented] using hword
  topicName_eq := rfl

theorem named_guessed {base : List Char} (hne : base ≠ []) (hword : ∀ c ∈ base, isWord c = true)
    (header : String) : (guessed (String.ofList base) header).Named where
  full_eq := rfl
  base_ne_empty h := hne (String.ofList_eq_empty_iff.1 h)
  base_word := by simpa [guessed] using hword
  topicName_eq := by
    have hcolon : ':' ∉ base := fun h => absurd (hword _ h) (by decide)
    have hunderscores : "__".toList = ['_', '_'] := rfl
    have hcolons : "::".toList = [':', ':'] := rfl
    simp only [guessed, parted, Name.flatten, String.toList_ofList, hunderscores, hcolons,
      replacePairs_replaceFirst _ hcolon]

/-- Every wire structure that a scan finds is so named. -/
theorem named_of_mem_scan {header content : String} {w : WireStruct}
    (h : w ∈ scan header content) : w.Named := by
  rw [scan] at h
  split at h
  · obtain ⟨ds, hds, hbases⟩ := exists_leftmost content.toList
    rw [hbases] at h
    obtain ⟨base, hbase, rfl⟩ := List.mem_map.1 h
    obtain ⟨d, hd, rfl⟩ := List.mem_map.1 hbase
    exact named_guessed (hds.stands d hd).base_ne_nil (hds.stands d hd).base_word header
  · obtain ⟨as, hdocumented, has⟩ := exists_of_documentedIn content.toList
    rw [hdocumented] at h
    obtain ⟨found, hfound, rfl⟩ := List.mem_map.1 h
    obtain ⟨a, ha, rfl⟩ := List.mem_map.1 hfound
    obtain ⟨-, hne, hword, -⟩ := definition?_eq_some_iff.1 (has a ha).1.definition_read
    exact named_documented hne hword header (String.ofList a.canonical)

end WireStruct

end TypeCorpus
