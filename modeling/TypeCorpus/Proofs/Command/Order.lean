import TypeCorpus.Proofs.Command.Contents
import TypeCorpus.Proofs.Files.Enumeration

/-! Runs over the same inputs in another order, some of them perhaps more than once. The registry is
read from the directories of the inputs, each once and in the order of their paths, so it is the
same; and where structures with one file name have one full name, the samples that go over each
other are the same, so the order of the writes makes no difference. -/

namespace TypeCorpus

/-! ### Sorted paths -/

namespace Path

theorem pairwise_withoutRepeats {paths : List String}
    (h : paths.Pairwise fun p q => Text.notAfter (orderKey p) (orderKey q) = true) :
    (withoutRepeats paths).Pairwise Before := by
  induction paths using withoutRepeats.induct with
  | case1 => exact .nil
  | case2 q => exact List.pairwise_singleton _ q
  | case3 q q' rest heq ih =>
    rw [withoutRepeats, if_pos heq]
    exact ih (List.pairwise_cons.1 h).2
  | case4 q q' rest hne ih =>
    obtain ⟨hq, hrest⟩ := List.pairwise_cons.1 h
    rw [withoutRepeats, if_neg hne]
    refine List.pairwise_cons.2 ⟨fun p hp => ?_, ih hrest⟩
    have hp := mem_of_mem_withoutRepeats hp
    refine ⟨hq p hp, fun heq => hne ?_⟩
    -- a path with the components of the first would come between it and the second
    rcases List.mem_cons.1 hp with rfl | hp
    · exact heq
    · have hbefore := (List.pairwise_cons.1 hrest).1 p hp
      rw [← heq] at hbefore
      exact Text.notAfter_antisymm (hq q' List.mem_cons_self) hbefore

theorem pairwise_sortedSet (paths : List String) : (sortedSet paths).Pairwise Before := by
  have htrans : ∀ p q q' : String, Text.notAfter (orderKey p) (orderKey q) = true →
      Text.notAfter (orderKey q) (orderKey q') = true →
        Text.notAfter (orderKey p) (orderKey q') = true := fun _ _ _ => Text.notAfter_trans
  have htotal : ∀ p q : String, (Text.notAfter (orderKey p) (orderKey q) ||
      Text.notAfter (orderKey q) (orderKey p)) = true := fun _ _ => Text.notAfter_total _ _
  exact pairwise_withoutRepeats (List.pairwise_mergeSort htrans htotal paths)

/-- Paths that are told apart by their components make the same set in any order. -/
theorem sortedSet_eq {paths paths' : List String}
    (hinj : ∀ p ∈ paths, ∀ q ∈ paths, orderKey p = orderKey q → p = q)
    (h : ∀ p, p ∈ paths' ↔ p ∈ paths) : sortedSet paths' = sortedSet paths := by
  have hirrefl : Std.Irrefl Before := ⟨fun _ hbefore => hbefore.2 rfl⟩
  have hantisymm : Std.Antisymm Before := ⟨fun _ _ hbefore hafter =>
    absurd (Text.notAfter_antisymm hbefore.1 hafter.1) hbefore.2⟩
  have hmem : ∀ {l : List String}, (∀ p, p ∈ l ↔ p ∈ paths) → ∀ p, p ∈ sortedSet l ↔ p ∈ l := by
    intro l hl p
    refine ⟨mem_of_mem_sortedSet, fun hp => ?_⟩
    obtain ⟨q, hq, hkey⟩ := exists_mem_sortedSet hp
    rwa [← hinj q ((hl q).1 (mem_of_mem_sortedSet hq)) p ((hl p).1 hp) hkey]
  refine (pairwise_sortedSet paths').eq_of_mem_iff (pairwise_sortedSet paths) fun p => ?_
  rw [hmem h, h, hmem fun _ => Iff.rfl]

end Path

/-! ### The registry -/

namespace FileSystem

variable {fs : FileSystem} {inputs inputs' : List String}

theorem value_expandInputs (fs : FileSystem)
    (h : ∀ input ∈ inputs, isPattern input = false) : (fs.expandInputs inputs).value = inputs := by
  induction inputs with
  | nil => rfl
  | cons input inputs ih =>
    obtain ⟨hinput, hinputs⟩ := List.forall_mem_cons.1 h
    have hone : fs.expandInput input = pure [input] := by
      rw [expandInput, if_neg (by simp [hinput])]
    simp only [expandInputs, hone, Traced.value_bind, Traced.value_pure, ih hinputs,
      List.singleton_append]

/-- The documents beside inputs depend on what inputs there are only. -/
theorem WellFormed.documentsBeside_eq (hfs : fs.WellFormed)
    (hfiles : ∀ input ∈ inputs, fs.isFile input = true)
    (hmem : ∀ input, input ∈ inputs' ↔ input ∈ inputs) :
    fs.documentsBeside inputs' = fs.documentsBeside inputs := by
  have hdirectory : ∀ input ∈ inputs, ∃ here, fs.containingDirectory input = absolutePath here ∧
      ∀ n ∈ here, IsName n := by
    intro input hinput
    obtain ⟨place, bytes, hfile⟩ := isFile_iff.1 (hfiles input hinput)
    have hsome : (fs.get? place).isSome = true := by rw [hfile.get?_eq]; rfl
    cases place using List.reverseRecOn with
    | nil => exact absurd hfile.get?_eq nofun
    | append_singleton here name =>
      exact ⟨here, hfs.containingDirectory_eq hfile.locate_eq hsome,
        fun n hn => hfs.isName_of_get? hsome (List.mem_append_left _ hn)⟩
  rw [documentsBeside, documentsBeside, Path.sortedSet_eq]
  · intro p hp q hq hkey
    obtain ⟨input, hinput, rfl⟩ := List.mem_map.1 hp
    obtain ⟨input', hinput', rfl⟩ := List.mem_map.1 hq
    obtain ⟨here, hhere, hnames⟩ := hdirectory input hinput
    obtain ⟨here', hhere', hnames'⟩ := hdirectory input' hinput'
    rw [hhere, hhere'] at hkey ⊢
    rw [orderKey_absolutePath_inj hnames hnames' hkey]
  · intro p
    simp only [List.mem_map, hmem]

end FileSystem

namespace SampleCommand

open FileSystem

variable {r : Registry} {fs : FileSystem} {out place : Location} {c : SampleCommand}
  {settings : Settings} {inputs' : List String}

/-! ### The samples -/

/-- Samples that agree where they have one place can be stored in any order, and more than once. -/
theorem get?_stored_eq {qs qs' : List QualifiedName} (hmem : ∀ q, q ∈ qs' ↔ q ∈ qs)
    (hsame : ∀ q ∈ qs, ∀ q' ∈ qs, fileName q = fileName q' → content r q = content r q') :
    (stored r out fs qs').get? place = (stored r out fs qs).get? place := by
  by_cases h : ∃ q ∈ qs, out ++ [fileName q] = place
  · obtain ⟨q, hq, rfl⟩ := h
    obtain ⟨front, q₁, back, hsplit, hname, -, hget⟩ :=
      exists_get?_stored r out fs (List.mem_map_of_mem (f := fileName) hq)
    obtain ⟨front', q₂, back', hsplit', hname', -, hget'⟩ :=
      exists_get?_stored r out fs (List.mem_map_of_mem (f := fileName) ((hmem q).2 hq))
    have hq₁ : q₁ ∈ qs := by rw [hsplit]; simp
    have hq₂ : q₂ ∈ qs := (hmem q₂).1 (by rw [hsplit']; simp)
    rw [hget, hget', hsame q₂ hq₂ q₁ hq₁ (hname'.trans hname.symm)]
  · have hplace : ∀ q ∈ qs, out ++ [fileName q] ≠ place := fun q hq heq => h ⟨q, hq, heq⟩
    rw [get?_stored_of_notMem hplace, get?_stored_of_notMem fun q hq => hplace q ((hmem q).1 hq)]

/-! ### Runs -/

theorem existing_eq_inputs (hplain : ∀ input ∈ c.inputs, isPattern input = false)
    (hfiles : ∀ input ∈ c.inputs, fs.isFile input = true) :
    c.existing fs = c.inputs ∧ c.missing fs = [] := by
  rw [existing, missing, value_expandInputs fs hplain, List.filter_eq_self, List.filter_eq_nil_iff]
  exact ⟨hfiles, fun input hinput => by simp [hfiles input hinput]⟩

theorem isFile_of_missing (hplain : ∀ input ∈ c.inputs, isPattern input = false)
    (h : c.missing fs = []) : ∀ input ∈ c.inputs, fs.isFile input = true := by
  rw [missing, value_expandInputs fs hplain, List.filter_eq_nil_iff] at h
  simpa using h

/-- The command with other inputs. -/
def withInputs (c : SampleCommand) (inputs : List String) : SampleCommand := { c with inputs }

/-- The inputs of a command in any order, some perhaps more than once; all of them are files, and
none is a pattern. -/
structure Reorders (fs : FileSystem) (c : SampleCommand) (inputs' : List String) : Prop where
  mem_iff : ∀ input, input ∈ inputs' ↔ input ∈ c.inputs
  plain : ∀ input ∈ c.inputs, isPattern input = false
  isFile : ∀ input ∈ c.inputs, fs.isFile input = true

namespace Reorders

variable (h : Reorders fs c inputs')

include h

theorem existing_eq : c.existing fs = c.inputs := (existing_eq_inputs h.plain h.isFile).1

theorem existing_withInputs : (c.withInputs inputs').existing fs = inputs' ∧
    (c.withInputs inputs').missing fs = [] :=
  existing_eq_inputs (fun input hinput => h.plain input ((h.mem_iff input).1 hinput))
    fun input hinput => h.isFile input ((h.mem_iff input).1 hinput)

/-- With the documents beside the inputs there is one registry for all orders. -/
theorem registry_eq (hfs : fs.WellFormed) (hscan : settings.scanSiblings = true) :
    (c.withInputs inputs').registry settings fs = c.registry settings fs := by
  rw [registry, registry, h.existing_withInputs.1, h.existing_eq, hscan, Corpus.registry_ofInputs,
    Corpus.registry_ofInputs, if_pos rfl, if_pos rfl, hfs.documentsBeside_eq h.isFile h.mem_iff]

theorem mem_plan_iff {p : Part} :
    p ∈ (c.withInputs inputs').plan settings fs ↔ p ∈ c.plan settings fs := by
  rw [plan, plan, h.existing_withInputs.1, h.existing_eq, List.mem_map, List.mem_map]
  simp only [h.mem_iff]
  rfl

theorem mem_planned_iff {q : QualifiedName} :
    q ∈ (c.withInputs inputs').planned settings fs ↔ q ∈ c.planned settings fs := by
  rw [planned, planned, List.mem_flatMap, List.mem_flatMap]
  simp only [h.mem_plan_iff]

theorem apart (hapart : c.Apart settings fs) : (c.withInputs inputs').Apart settings fs := by
  intro out hout input hinput q hq
  rw [h.existing_withInputs.1, h.mem_iff, ← h.existing_eq] at hinput
  exact hapart out hout input hinput q (h.mem_planned_iff.1 hq)

end Reorders

/-- A run that succeeds over some inputs succeeds over the same inputs in another order and with
repetitions, and leaves the same behind: the documents beside the inputs are read in any case, and
where structures with one file name have one full name it does not matter whose sample is the last.
No input may be a pattern or lie in the place of a sample. -/
theorem run_same_inputs (hfs : fs.WellFormed) (hscan : settings.scanSiblings = true)
    (hinputs : ∀ input, input ∈ inputs' ↔ input ∈ c.inputs)
    (hplain : ∀ input ∈ c.inputs, isPattern input = false)
    (hrun : (c.run settings fs).value.result = .ok .succeeded)
    (hnames : ∀ q ∈ c.planned settings fs, ∀ q' ∈ c.planned settings fs,
      fileName q = fileName q' → q.qualified = q'.qualified)
    (hapart : c.Apart settings fs) :
    let c' := c.withInputs inputs'
    (c'.run settings fs).value.result = .ok .succeeded ∧
      ∀ place, (c'.run settings fs).value.files.get? place =
        (c.run settings fs).value.files.get? place := by
  intro c'
  obtain ⟨out, hends⟩ := exists_ends hrun
  obtain ⟨hmissing, hcomplete⟩ := hends.succeeds_iff.1 hrun
  have h : Reorders fs c inputs' := ⟨hinputs, hplain, isFile_of_missing hplain hmissing⟩
  have hmade := makeOutput_of_result hrun
  have hends' : c'.Ends settings fs out := ends_of_ok (c := c') hmade hends.outputPlace_eq
  have haccount := hapart.account_eq hends.outputPlace_eq
  have haccount' := (h.apart hapart).account_eq hends'.outputPlace_eq
  constructor
  · refine hends'.succeeds_iff.2 ⟨h.existing_withInputs.2, ?_⟩
    rw [haccount] at hcomplete
    rw [haccount']
    exact fun p hp => hcomplete p (h.mem_plan_iff.1 hp)
  · intro place
    rw [hends'.files_eq, hends.files_eq, written, written, haccount, haccount',
      h.registry_eq hfs hscan]
    refine get?_stored_eq (fun q => h.mem_planned_iff) fun q hq q' hq' hname => ?_
    rw [content, content, hnames q hq q' hq' hname]

/-! ### Two documents with one structure in common -/

def sharedStructure : FileSystem :=
  .oneDirectory
    [("a.xml", "<types><module name='P'><struct name='C_A'/></module></types>"),
     ("b.xml", "<types><module name='P'><struct name='C_A'/><struct name='C_B'/></module></types>")]

def inOrder : SampleCommand := { inputs := ["a.xml", "b.xml"], output := some "o" }

theorem plan_inOrder : inOrder.plan {} sharedStructure =
    [⟨[.ofScope (some "P") "C_A"], true⟩,
      ⟨[.ofScope (some "P") "C_A", .ofScope (some "P") "C_B"], true⟩] := by decide +kernel

theorem ends_inOrder : inOrder.Ends {} sharedStructure ["w", "o"] := by
  have hmade : (sharedStructure.makeOutput (inOrder.directory {})).result = .ok () := by
    decide +kernel
  exact ends_of_ok hmade (by decide +kernel)

/-- The other way round, and the second document once more. -/
theorem run_same_inputs_repeated :
    (inOrder.run {} sharedStructure).value.result = .ok .succeeded ∧
    let again := inOrder.withInputs ["b.xml", "a.xml", "b.xml"]
    (again.run {} sharedStructure).value.result = .ok .succeeded ∧
      ∀ place, (again.run {} sharedStructure).value.files.get? place =
        (inOrder.run {} sharedStructure).value.files.get? place := by
  have hplanned : inOrder.planned {} sharedStructure = [.ofScope (some "P") "C_A",
      .ofScope (some "P") "C_A", .ofScope (some "P") "C_B"] := by
    rw [planned, plan_inOrder]
    rfl
  have hapart : inOrder.Apart {} sharedStructure := by
    intro out hout
    rw [← Except.ok.inj (ends_inOrder.outputPlace_eq.symm.trans hout), hplanned]
    decide +kernel
  have hrun : (inOrder.run {} sharedStructure).value.result = .ok .succeeded := by
    rw [ends_inOrder.result_eq, hapart.account_eq ends_inOrder.outputPlace_eq, plan_inOrder]
    decide +kernel
  refine ⟨hrun, run_same_inputs ?_ rfl ?_ (by decide) hrun ?_ hapart⟩
  · exact wellFormed_oneDirectory (by decide) (by decide)
  · intro input
    simp only [inOrder, List.mem_cons]
    tauto
  · rw [hplanned]
    decide

end SampleCommand

end TypeCorpus
