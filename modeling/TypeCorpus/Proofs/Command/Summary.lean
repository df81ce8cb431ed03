import Mathlib.Data.Finset.Card
import TypeCorpus.Proofs.Command.Account

/-! The last line of a run that writes samples. Its number counts the samples of the inputs that
went well: one for each write, also where a later one goes over it, and none for the files that an
input left before it broke off. The number of files that were written is smaller by the first and
larger by the second. -/

namespace TypeCorpus.SampleCommand

open FileSystem

variable {c : SampleCommand} {settings : Settings} {fs : FileSystem}

/-- How many names come again later. -/
def overwritten : List String → ℕ
  | [] => 0
  | name :: names => (if name ∈ names then 1 else 0) + overwritten names

theorem card_add_overwritten (names : List String) :
    names.toFinset.card + overwritten names = names.length := by
  induction names with
  | nil => rfl
  | cons name names ih =>
    rw [List.toFinset_cons, overwritten, List.length_cons, ← ih]
    by_cases h : name ∈ names
    · rw [if_pos h, Finset.insert_eq_of_mem (List.mem_toFinset.2 h)]
      omega
    · rw [if_neg h, Finset.card_insert_of_notMem fun hmem => h (List.mem_toFinset.1 hmem)]
      omega

theorem counted_add_uncounted (ps : List Part) :
    (ps.map Part.counted).sum + (ps.map Part.uncounted).sum =
      (ps.flatMap Part.written).length := by
  induction ps with
  | nil => rfl
  | cons p ps ih =>
    have hp : p.counted + p.uncounted = p.written.length := by
      rw [Part.counted, Part.uncounted]
      split_ifs
      · exact Nat.add_zero _
      · exact Nat.zero_add _
    rw [List.map_cons, List.map_cons, List.sum_cons, List.sum_cons, List.flatMap_cons,
      List.length_append, ← ih, ← hp]
    omega

/-- The last line of a run that comes to its end counts the samples of the inputs that went well.
With those that it leaves out it counts every write, and so every file that was written once, and
once more for each time it was written over. It is the number of files that were written if and only
if as many writes went over an earlier sample as were left out. -/
theorem summary_balance {status : Status} (h : (c.run settings fs).value.result = .ok status) :
    ∃ out n, (c.made settings fs).outputPlace (c.directory settings) = .ok out ∧
      (c.run settings fs).events.getLast? =
        some (.line (summary n (c.existing fs).length (c.directory settings))) ∧
      let after := (c.run settings fs).value.files
      let names := (c.written settings fs out).map fileName
      let left := ((c.account settings fs out).map Part.uncounted).sum
      (∀ name ∈ names, ∃ q ∈ c.written settings fs out, fileName q = name ∧
        after.get? (out ++ [name]) = some (.file (content (c.registry settings fs) q))) ∧
      (∀ place, (∀ name ∈ names, place ≠ out ++ [name]) → ∀ bytes,
        after.get? place = some (.file bytes) ↔ fs.get? place = some (.file bytes)) ∧
      n + left = names.toFinset.card + overwritten names ∧
      (n = names.toFinset.card ↔ overwritten names = left) := by
  obtain ⟨out, hends⟩ := exists_ends h
  have hbalance := (counted_add_uncounted (c.account settings fs out)).trans <|
    (List.length_map fileName).symm.trans
      (card_add_overwritten ((c.written settings fs out).map fileName)).symm
  refine ⟨out, _, hends.outputPlace_eq, hends.summary_eq, fun name hname => ?_,
    fun place hplace bytes => hends.get?_file_iff fun q hq => ?_, hbalance, ?_⟩
  · obtain ⟨front, q, back, hsplit, hq, -, hget⟩ :=
      exists_get?_stored (c.registry settings fs) out (c.made settings fs) hname
    refine ⟨q, by rw [hsplit]; simp, hq, ?_⟩
    rw [hends.files_eq]
    exact hget
  · exact (hplace _ (List.mem_map_of_mem hq)).symm
  · omega

/-! ### Runs that miscount -/

/-- A document with two structures whose modules have the same innermost name, and a document with
two structures where a directory stands in the place of the second one's sample. -/
def troubled : FileSystem :=
  let documents := FileSystem.oneDirectory
    [("n.xml", "<types><module name='A'><module name='M'><struct name='C_A'/></module></module>" ++
      "<module name='B'><module name='M'><struct name='C_A'/></module></module></types>"),
     ("b.xml", "<types><module name='M'><struct name='C_A'/><struct name='C_B'/></module></types>")]
  (documents.put ["w", "o"] .directory).put ["w", "o", "M__C_B.json"] .directory

def sharedName : SampleCommand := { inputs := ["n.xml"], output := some "p" }

def blockedName : SampleCommand := { inputs := ["b.xml"], output := some "o" }

theorem ends_sharedName : sharedName.Ends {} troubled ["w", "p"] := by
  have hmade : (troubled.makeOutput (sharedName.directory {})).result = .ok () := by decide +kernel
  exact ends_of_ok hmade (by decide +kernel)

theorem ends_blockedName : blockedName.Ends {} troubled ["w", "o"] := by
  have hmade : (troubled.makeOutput (blockedName.directory {})).result = .ok () := by decide +kernel
  exact ends_of_ok hmade (by decide +kernel)

theorem account_sharedName : sharedName.account {} troubled ["w", "p"] =
    [⟨[.ofScope (some "A::M") "C_A", .ofScope (some "B::M") "C_A"], true⟩] := by decide +kernel

theorem account_blockedName : blockedName.account {} troubled ["w", "o"] =
    [⟨[.ofScope (some "M") "C_A"], false⟩] := by decide +kernel

theorem result_sharedName : (sharedName.run {} troubled).value.result = .ok .succeeded := by
  rw [ends_sharedName.result_eq, account_sharedName]
  decide +kernel

/-- The structures with one file name are counted as two samples. -/
theorem summary_balance_shared : (sharedName.run {} troubled).value.result = .ok .succeeded ∧
    ∃ out n, (sharedName.made {} troubled).outputPlace (sharedName.directory {}) = .ok out ∧
      (sharedName.run {} troubled).events.getLast? =
        some (.line (summary n (sharedName.existing troubled).length (sharedName.directory {}))) ∧
      let names := (sharedName.written {} troubled out).map fileName
      let left := ((sharedName.account {} troubled out).map Part.uncounted).sum
      n + left = names.toFinset.card + overwritten names ∧
      (n = names.toFinset.card ↔ overwritten names = left) := by
  obtain ⟨out, n, hout, hsummary, -, -, hbalance⟩ := summary_balance result_sharedName
  exact ⟨result_sharedName, out, n, hout, hsummary, hbalance⟩

/-- Two samples are counted where one file was written, and none where one was. -/
theorem summary_miscounts :
    ((sharedName.run {} troubled).value.result = .ok .succeeded ∧
      (sharedName.run {} troubled).events.getLast? =
        some (.line "Generated 2 sample(s) from 1 document(s) in p") ∧
      ∀ place bytes, (sharedName.run {} troubled).value.files.get? place = some (.file bytes) →
        troubled.get? place = some (.file bytes) ∨ place = ["w", "p", "M__C_A.json"]) ∧
    (blockedName.run {} troubled).value.result = .ok .failed ∧
      (blockedName.run {} troubled).events.getLast? =
        some (.line "Generated 0 sample(s) from 1 document(s) in o") ∧
      troubled.get? ["w", "o", "M__C_A.json"] = none ∧
      ∃ bytes, (blockedName.run {} troubled).value.files.get? ["w", "o", "M__C_A.json"] =
        some (.file bytes) := by
  refine ⟨⟨result_sharedName, ?_, fun place bytes hplace => ?_⟩, ?_, ?_, by decide, ?_⟩
  · rw [ends_sharedName.summary_eq, account_sharedName]
    exact congrArg (fun text => some (Remark.line text)) (by decide +kernel)
  · by_contra hnot
    rw [not_or] at hnot
    have hname : ∀ q ∈ sharedName.written {} troubled ["w", "p"],
        ["w", "p"] ++ [fileName q] = ["w", "p", "M__C_A.json"] := by
      rw [written, account_sharedName]
      decide
    exact hnot.1 <| (ends_sharedName.get?_file_iff fun q hq hq' =>
      hnot.2 (hq'.symm.trans (hname q hq))).1 hplace
  · rw [ends_blockedName.result_eq, account_blockedName]
    decide +kernel
  · rw [ends_blockedName.summary_eq, account_blockedName]
    exact congrArg (fun text => some (Remark.line text)) (by decide +kernel)
  · rw [ends_blockedName.files_eq, written, account_blockedName]
    exact ⟨_, get?_put_self _ (List.cons_ne_nil _ _) _⟩

end TypeCorpus.SampleCommand
