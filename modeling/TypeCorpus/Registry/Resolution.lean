import TypeCorpus.Registry.Basic
import TypeCorpus.Traced

/-! Resolution of type references. A reference denotes a typedef when it is the name of one, or else
when its short name stands for one; it then goes on as what the typedef stands for. Otherwise it has
settled, on the full name its short name stands for, or on itself. A walk that comes to a typedef a
second time never settles and is reported as a cycle. The number of typedefs not met yet bounds the
walk. -/

namespace TypeCorpus

/-- A walk that came back to a typedef: where it began, what it went through, the typedef met again.
-/
structure TypedefCycle where
  start : String
  chain : List String
  deriving DecidableEq

namespace TypedefCycle

def message (c : TypedefCycle) : String :=
  "cyclic typedef starting at '" ++ c.start ++ "': " ++ " -> ".intercalate c.chain

/-- The typedef that was met twice. -/
def point (c : TypedefCycle) : String := c.chain.getLast?.getD c.start

end TypedefCycle

/-- What a reader is told of a cycle: resolution stopped there, or a placeholder stands for a
reference. -/
inductive CycleNotice where
  | stopped (cycle : TypedefCycle)
  | placeholder (ref : String) (cycle : TypedefCycle)

namespace Registry

/-- The typedef that a reference denotes, with what it stands for. -/
def denoted? (r : Registry) (ref : String) : Option (String × String) :=
  match r.typedefs.get? ref with
  | some underlying => some (ref, underlying)
  | none =>
    match r.fullName? (Name.short ref) with
    | some full => (r.typedefs.get? full).map (full, ·)
    | none => none

/-- The name on which a reference that denotes no typedef settles. -/
def settled (r : Registry) (ref : String) : String := (r.fullName? (Name.short ref)).getD ref

/-- The typedefs that a walk has not met. -/
def unmet (r : Registry) (met : List String) : List String := r.typedefs.keys.filter (· ∉ met)

theorem mem_keys_of_denoted? {r : Registry} {ref name underlying : String}
    (h : r.denoted? ref = some (name, underlying)) : name ∈ r.typedefs.keys := by
  rw [Table.mem_keys_iff]
  simp only [denoted?] at h
  split at h
  · cases h; simp [*]
  · split at h
    · obtain ⟨u, hu, he⟩ := Option.map_eq_some_iff.1 h
      cases he; simp [hu]
    · cases h

/-- Leaving out one more element that was there makes a list shorter. -/
theorem length_filter_notMem_lt {l taken : List String} {a : String} (ha : a ∈ l) (hn : a ∉ taken) :
    (l.filter (· ∉ a :: taken)).length < (l.filter (· ∉ taken)).length := by
  have h : l.filter (· ∉ a :: taken) = (l.filter (· ∉ taken)).filter (· ≠ a) := by
    rw [List.filter_filter]
    congr 1; funext x; simp
  rw [h, List.length_filter_lt_length_iff_exists]
  exact ⟨a, by simp [ha, hn], by simp⟩

/-- Goes on from `current`, having met some typedefs and gone through `chain`. -/
def walk (r : Registry) (start : String) (met chain : List String) (current : String) :
    Except TypedefCycle String :=
  match _h : r.denoted? current with
  | none => .ok (r.settled current)
  | some (name, underlying) =>
    if name ∈ met then .error ⟨start, chain ++ [name]⟩
    else r.walk start (name :: met) (chain ++ [underlying]) underlying
termination_by (r.unmet met).length
decreasing_by exact length_filter_notMem_lt (mem_keys_of_denoted? _h) ‹_›

/-- The name that a reference resolves to, or the cycle it runs into. -/
def resolve? (r : Registry) (ref : String) : Except TypedefCycle String := r.walk ref [] [ref] ref

/-- The name that a reference resolves to; on a cycle, the typedef met twice, with a notice. -/
def resolve (r : Registry) (ref : String) : Traced CycleNotice String :=
  match r.resolve? ref with
  | .ok name => pure name
  | .error cycle => ⟨cycle.point, [.stopped cycle]⟩

/-- Looks a resolved reference up in a table, then under the full name of its short name. -/
def lookup? {α : Type} (r : Registry) (table : Table String α) (ref : String) : Option α :=
  match r.resolve? ref with
  | .error _ => none
  | .ok name =>
    match table.get? name with
    | some a => some a
    | none => (r.fullName? (Name.short name)).bind table.get?

/-- The enumerators of the enumeration that a reference names. -/
def enum? (r : Registry) (ref : String) : Option (List String) := r.lookup? r.enums ref

/-- The structure that a reference names. -/
def struct? (r : Registry) (ref : String) : Option StructDecl := r.lookup? r.structs ref

end Registry

end TypeCorpus
