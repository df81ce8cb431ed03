import TypeCorpus.Proofs.Name
import TypeCorpus.Text.Case

/-! Lines. A text made of lines that hold no line break has these lines. No part of a name and no
upper case has a line break that the name or the text does not have. -/

namespace TypeCorpus

namespace Text

/-- A text without line breaks. -/
def OneLine (s : String) : Prop := '\n' ∉ s.toList

instance (s : String) : Decidable (OneLine s) := inferInstanceAs (Decidable ('\n' ∉ s.toList))

/-- The lines of a text: what stands before each line break, and what follows the last one, if
anything does. -/
def linesOf (text : String) : List String :=
  let pieces := text.toList.splitOn '\n'
  (if pieces.getLast? = some [] then pieces.dropLast else pieces).map String.ofList

@[simp] theorem oneLine_append {s t : String} : OneLine (s ++ t) ↔ OneLine s ∧ OneLine t := by
  simp [OneLine]

theorem linesOf_join {lines : List String} (h : ∀ line ∈ lines, OneLine line) :
    linesOf (String.join (lines.map (· ++ "\n"))) = lines := by
  have hpieces : (String.join (lines.map (· ++ "\n"))).toList.splitOn '\n' =
      lines.map String.toList ++ [[]] := by
    rw [String.toList_join]
    induction lines with
    | nil => rfl
    | cons line lines ih =>
      have hrest := ih fun line' hline' => h line' (List.mem_cons_of_mem _ hline')
      have hline : '\n' ∉ line.toList := h line List.mem_cons_self
      have hbreak : (line ++ "\n").toList = line.toList ++ ['\n'] := String.toList_append
      rw [List.map_cons, List.flatMap_cons, hbreak, List.append_assoc, List.singleton_append,
        List.splitOn_append_cons_self_of_not_mem hline, hrest]
      rfl
  rw [linesOf, hpieces]
  simp [Function.comp_def]

/-! ### Upper case -/

theorem toNat_of_ofNat {n : ℕ} {c : Char} (h : Char.ofNat n = c) (hc : c.toNat ≠ 0) :
    n = c.toNat := by
  by_cases hn : n.isValidChar
  · rw [← h, Char.ofNat, dif_pos hn]
    rfl
  · rw [← h, Char.ofNat, dif_neg hn] at hc
    exact absurd rfl hc

/-- No character but a line break has a line break for its upper case. -/
theorem eq_of_mem_upperChar {c : Char} (h : '\n' ∈ upperChar c) : c = '\n' := by
  have hruns : ∀ run ∈ upperRuns, (10 : Int) < run.first + run.offset := by decide +kernel
  have hsequences : ∀ p ∈ upperSequences, 10 ∉ p.2 := by decide
  have hascii : ∀ n < 128, (Char.ofNat n).toUpper = '\n' → Char.ofNat n = '\n' := by decide
  have hofNat : ∀ {n : ℕ}, Char.ofNat n = '\n' → n = 10 := fun hn => toNat_of_ofNat hn (by decide)
  rw [upperChar] at h
  split at h
  · next hc =>
    have := hascii c.toNat hc
    rw [Char.ofNat_toNat] at this
    exact this (List.mem_singleton.1 h).symm
  · rw [mapCase] at h
    split at h
    · next d hd =>
      obtain ⟨run, hrun, hmap⟩ := List.exists_of_findSome?_eq_some hd
      simp only [CaseRun.map?] at hmap
      split at hmap
      · next hcovers =>
        have hd := hofNat ((Option.some.inj hmap).trans (List.mem_singleton.1 h).symm)
        have := hruns run hrun
        omega
      · cases hmap
    · cases hlookup : upperSequences.lookup c.toNat with
      | none =>
        rw [hlookup] at h
        exact (List.mem_singleton.1 h).symm
      | some codes =>
        rw [hlookup] at h
        obtain ⟨n, hn, heq⟩ := List.mem_map.1 h
        obtain ⟨l₁, l₂, hsplit, -⟩ := List.lookup_eq_some_iff.1 hlookup
        have hmem : (c.toNat, codes) ∈ upperSequences := by simp [hsplit]
        exact absurd (hofNat heq ▸ hn) (hsequences _ hmem)

theorem OneLine.uppercase {s : String} (h : OneLine s) :
    OneLine (String.ofList (uppercase s.toList)) := by
  intro hmem
  rw [String.toList_ofList, Text.uppercase, List.mem_flatMap] at hmem
  obtain ⟨c, hc, hbreak⟩ := hmem
  exact h (eq_of_mem_upperChar hbreak ▸ hc)

end Text

/-! ### Names -/

namespace Name

open Text (OneLine)

theorem OneLine.short {name : String} (h : OneLine name) : OneLine (short name) := by
  rw [OneLine, toList_short]
  exact fun hmem => h ((lastSegment_suffix _).subset hmem)

theorem OneLine.inScope {scope : Option String} {name : String}
    (hscope : ∀ s, scope = some s → OneLine s) (hname : OneLine name) :
    OneLine (inScope scope name) := by
  cases scope with
  | none => exact hname
  | some s =>
    rw [Name.inScope]
    split
    · exact hname
    · simpa [hname] using ⟨hscope s rfl, by decide⟩

theorem mem_replacePairs {w s : List Char} {c : Char} (h : c ∈ replacePairs w s) :
    c ∈ w ∨ c ∈ s := by
  induction s using replacePairs.induct with
  | case1 => exact .inr h
  | case2 d => exact .inr h
  | case3 a b s hab ih =>
    rw [replacePairs, if_pos hab] at h
    rcases List.mem_append.1 h with h | h
    · exact .inl h
    · exact (ih h).imp_right fun hs => List.mem_cons_of_mem _ (List.mem_cons_of_mem _ hs)
  | case4 a b s hab ih =>
    rw [replacePairs, if_neg hab] at h
    rcases List.mem_cons.1 h with rfl | h
    · exact .inr List.mem_cons_self
    · exact (ih h).imp_right (List.mem_cons_of_mem _)

theorem OneLine.flatten {w name : String} (hw : OneLine w) (h : OneLine name) :
    OneLine (flatten w name) := by
  rw [OneLine, toList_flatten]
  exact fun hmem => (mem_replacePairs hmem).elim hw h

end Name

end TypeCorpus
