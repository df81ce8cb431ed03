import TypeCorpus.Document
import TypeCorpus.Proofs.Name
import TypeCorpus.Wire.Scan

/-! Topics of one type on the two ways of publishing. A topic is named by the innermost module of
its structure and a documented wire structure by the whole canonical name, so the two ways agree on
the types whose path is one segment and on no others: both names keep the length of what they come
from, and the path is longer than its last segment where there is more to it. -/

namespace TypeCorpus

variable {t : Topic} {w : WireStruct} {header content : String}

namespace QualifiedName

theorem logical_eq_qualified {q : QualifiedName} (h : q.innermost = q.scope) :
    q.logical = q.qualified := by
  rw [logical, qualified, h]

/-- Leaving out the outer modules shortens a name that has any. -/
theorem innermost_eq_scope_of_length {q : QualifiedName}
    (h : q.qualified.toList.length ≤ q.logical.toList.length) : q.innermost = q.scope := by
  obtain ⟨scope, name, hne⟩ := q
  cases scope with
  | none => rfl
  | some scope =>
    have hscope : scope ≠ "" := fun hs => hne (by rw [hs])
    have hq : (Name.inScope (some scope) name).toList.length =
        scope.toList.length + (name.toList.length + 2) := by
      simp [Name.toList_inScope_of_ne hscope]
    have hl : (Name.inScope (some (Name.short scope)) name).toList.length ≤
        (Name.short scope).toList.length + (name.toList.length + 2) := by
      by_cases hs : Name.short scope = ""
      · simp [hs]
      · simp [Name.toList_inScope_of_ne hs]
    have hlen : scope.toList.length ≤ (Name.short scope).toList.length := by
      have hqual : (Name.inScope (some scope) name).toList.length ≤
          (Name.inScope (some (Name.short scope)) name).toList.length := h
      omega
    exact congrArg some (Name.short_eq_self hlen)

end QualifiedName

namespace WireStruct

/-- A wire structure found through a comment takes its topic from its type name. -/
theorem topicName_of_documented (hdoc : documentedIn content.toList ≠ [])
    (hw : w ∈ scan header content) : w.topicName = Name.flatten "__" w.typeName := by
  rw [scan] at hw
  split at hw
  · rename_i hnone; exact absurd hnone hdoc
  · obtain ⟨d, -, rfl⟩ := List.mem_map.1 hw
    rfl

/-- Publishing a type as JSON and as a documented wire structure uses one topic exactly where the
path of the type is its innermost module; a deeper path shows on the wire for the structure only. -/
theorem documented_topicName_eq_iff (hdoc : documentedIn content.toList ≠ [])
    (hw : w ∈ scan header content) (htype : w.typeName = t.typeName) :
    w.topicName = t.topicName ↔ t.name.innermost = t.name.scope := by
  rw [topicName_of_documented hdoc hw, htype]
  constructor
  · intro h
    have hlist := congrArg String.toList h
    simp only [Topic.typeName, Topic.topicName, Name.toList_flatten] at hlist
    have hlen := congrArg List.length hlist
    rw [Name.length_replacePairs rfl, Name.length_replacePairs rfl] at hlen
    exact QualifiedName.innermost_eq_scope_of_length hlen.le
  · intro h
    rw [Topic.typeName, Topic.topicName, QualifiedName.logical_eq_qualified h]

/-- A type in a module of its own, and a wire structure whose comment names it. -/
theorem documented_topicName_of_one_module :
    let content := "/** Wire struct for P::C_Speed */ typedef struct Wire_P_C_Speed s;"
    let t : Topic := ⟨.ofScope (some "P") "C_Speed"⟩
    let w := documented "P_C_Speed" "speed.h" "P::C_Speed"
    documentedIn content.toList ≠ [] ∧ w ∈ scan "speed.h" content ∧ w.typeName = t.typeName ∧
      w.topicName = t.topicName := by
  intro content t w
  have hdoc : documentedIn content.toList ≠ [] := by decide +kernel
  have hw : w ∈ scan "speed.h" content := by decide +kernel
  have htype : w.typeName = t.typeName := by decide
  exact ⟨hdoc, hw, htype, (documented_topicName_eq_iff hdoc hw htype).2 (by decide)⟩

/-- A type two modules deep: published as JSON on one topic, as a structure on another. -/
theorem nested_topicNames_differ :
    let text := "<types><module name='Outer'><module name='P'>" ++
      "<struct name='C_Speed'/></module></module></types>"
    let content := "/** Wire struct for Outer::P::C_Speed */ typedef struct Wire_P_C_Speed s;"
    ∃ d t w, Document.parse "types.xml" text = .ok d ∧ t ∈ d.topics ∧
      documentedIn content.toList ≠ [] ∧ w ∈ scan "speed.h" content ∧
      w.typeName = t.typeName ∧ w.topicName ≠ t.topicName := by
  intro text content
  have hread : (Document.parse "types.xml" text).toOption.map Document.topics =
      some [⟨.ofScope (some "Outer::P") "C_Speed"⟩] := by decide +kernel
  have hdoc : documentedIn content.toList ≠ [] := by decide +kernel
  have hw : documented "P_C_Speed" "speed.h" "Outer::P::C_Speed" ∈ scan "speed.h" content := by
    decide +kernel
  cases hparse : Document.parse "types.xml" text with
  | error e => rw [hparse] at hread; cases hread
  | ok d =>
    rw [hparse] at hread
    have htopic : (⟨.ofScope (some "Outer::P") "C_Speed"⟩ : Topic) ∈ d.topics :=
      Option.some.inj hread ▸ List.mem_singleton_self _
    exact ⟨d, _, _, rfl, htopic, hdoc, hw, by decide +kernel, by decide +kernel⟩

end WireStruct

end TypeCorpus
