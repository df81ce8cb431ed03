import TypeCorpus.Proofs.Stub
import TypeCorpus.Proofs.Text.Line

/-! The header and the source of the stubs, line by line. Where no name brings a line break along,
the lines of each file are the ones it was made from. Only the signatures begin like a function of
C, so the header declares what the source defines, in the same order; and what follows a function's
first line in the source is its check for null, the call that forwards its payload, and its end. -/

namespace TypeCorpus

open Text (OneLine linesOf)

/-- The names that make up a topic have no line break. -/
structure Topic.OneLine (t : Topic) : Prop where
  scope : ∀ scope, t.name.scope = some scope → Text.OneLine scope
  name : Text.OneLine t.name.name

/-- The texts of a wire structure that show in the stubs have no line break. -/
structure WireStruct.OneLine (w : WireStruct) : Prop where
  full : Text.OneLine w.full
  base : Text.OneLine w.base
  topicName : Text.OneLine w.topicName
  typeName : Text.OneLine w.typeName

namespace Topic

variable {t : Topic}

theorem OneLine.logical (h : t.OneLine) : Text.OneLine t.name.logical := by
  refine Name.OneLine.inScope (fun scope hscope => ?_) h.name
  obtain ⟨path, hpath, rfl⟩ := Option.map_eq_some_iff.1 hscope
  exact Name.OneLine.short (h.scope path hpath)

theorem OneLine.topicName (h : t.OneLine) : Text.OneLine t.topicName :=
  Name.OneLine.flatten (by decide) h.logical

theorem OneLine.apiSuffix (h : t.OneLine) : Text.OneLine t.apiSuffix :=
  Name.OneLine.flatten (by decide) h.logical

theorem OneLine.typeName (h : t.OneLine) : Text.OneLine t.typeName :=
  Name.OneLine.inScope h.scope h.name

end Topic

namespace Stub

variable {pre : String} {topics : List Topic} {wires : List WireStruct} {headers : List String}
  {stubs : List Stub} {s : Stub}

/-! ### Lines without line breaks -/

def OneLine : Stub → Prop
  | json topic => topic.OneLine
  | bytes wire => wire.OneLine

theorem oneLine_of_mem_all (htopics : ∀ t ∈ topics, t.OneLine) (hwires : ∀ w ∈ wires, w.OneLine)
    (h : s ∈ all topics wires) : s.OneLine := by
  rcases List.mem_append.1 h with h | h
  · obtain ⟨t, ht, rfl⟩ := List.mem_map.1 h
    exact htopics t ht
  · obtain ⟨w, hw, rfl⟩ := List.mem_map.1 h
    exact hwires w hw

theorem OneLine.signature (hpre : Text.OneLine pre) (h : s.OneLine) :
    Text.OneLine (s.signature pre) := by
  cases s with
  | json t =>
    simp only [Stub.signature, functionName, payload, Text.oneLine_append, hpre, h.apiSuffix]
    decide +kernel
  | bytes w =>
    simp only [Stub.signature, functionName, payload, Text.oneLine_append, hpre, h.base, h.full]
    decide +kernel

theorem OneLine.subject (h : s.OneLine) : Text.OneLine s.subject := by
  cases s with
  | json t =>
    have htext : (json t).subject =
      "JSON on topic " ++ t.topicName ++ " (" ++ t.typeName ++ ")" := rfl
    simp only [htext, Text.oneLine_append, h.topicName, h.typeName]
    decide +kernel
  | bytes w =>
    have htext : (bytes w).subject =
      w.full ++ " on topic " ++ w.topicName ++ " (" ++ w.typeName ++ ")" := rfl
    simp only [htext, Text.oneLine_append, h.full, h.topicName, h.typeName]
    decide +kernel

theorem OneLine.forward (hpre : Text.OneLine pre) (h : s.OneLine) :
    Text.OneLine (s.forward pre) := by
  cases s with
  | json t =>
    simp only [Stub.forward, Text.oneLine_append, hpre, h.topicName]
    decide +kernel
  | bytes w =>
    simp only [Stub.forward, Text.oneLine_append, hpre, h.full, h.topicName, h.typeName]
    decide +kernel

theorem OneLine.declarationLines (hpre : Text.OneLine pre) (h : s.OneLine) :
    ∀ line ∈ s.declarationLines pre, Text.OneLine line := by
  simp only [Stub.declarationLines, List.forall_mem_cons, Text.oneLine_append, h.signature hpre,
    h.subject]
  decide +kernel

theorem OneLine.definitionLines (hpre : Text.OneLine pre) (h : s.OneLine) :
    ∀ line ∈ s.definitionLines pre, Text.OneLine line := by
  have hpayload : Text.OneLine s.payloadName := by
    cases s with
    | json t => exact (by decide : Text.OneLine "json_data")
    | bytes w => exact (by decide : Text.OneLine "data")
  simp only [Stub.definitionLines, List.forall_mem_cons, Text.oneLine_append, h.signature hpre,
    h.forward hpre, hpayload]
  decide +kernel

theorem oneLine_guard (hpre : Text.OneLine pre) : Text.OneLine (guard pre) :=
  Text.oneLine_append.2 ⟨hpre.uppercase, by decide⟩

theorem oneLine_headerLines (hpre : Text.OneLine pre) (hstubs : ∀ s ∈ stubs, s.OneLine)
    (hheaders : ∀ header ∈ headers, Text.OneLine header) :
    ∀ line ∈ headerLines pre stubs headers, Text.OneLine line := by
  have hbefore : ∀ line ∈ ["/**", " * @file " ++ pre ++ "_api.h",
      " * @brief JSON publish API, one function per topic.", " *",
      " * Generated by idlgen. Do not edit.", " */", "",
      "#ifndef " ++ guard pre, "#define " ++ guard pre, "",
      "#ifdef __cplusplus", "extern \"C\" \x7b", "#endif", "",
      "#include \"" ++ pre ++ "_agent.h\""], Text.OneLine line := by
    simp only [List.forall_mem_cons, Text.oneLine_append, hpre, oneLine_guard hpre]
    decide +kernel
  have hafter : ∀ line ∈ ["", "#ifdef __cplusplus", "\x7d", "#endif", "",
      "#endif /* " ++ guard pre ++ " */"], Text.OneLine line := by
    simp only [List.forall_mem_cons, Text.oneLine_append, oneLine_guard hpre]
    decide +kernel
  intro line hline
  simp only [headerLines, List.mem_append] at hline
  rcases hline with ((hline | hline) | hline) | hline
  · exact hbefore line hline
  · obtain ⟨header, hheader, rfl⟩ := List.mem_map.1 hline
    simp only [Text.oneLine_append, hheaders header hheader]
    decide +kernel
  · obtain ⟨s, hs, hline⟩ := List.mem_flatMap.1 hline
    exact (hstubs s hs).declarationLines hpre line hline
  · exact hafter line hline

theorem oneLine_sourceLines (hpre : Text.OneLine pre) (hstubs : ∀ s ∈ stubs, s.OneLine) :
    ∀ line ∈ sourceLines pre stubs, Text.OneLine line := by
  have hbefore : ∀ line ∈ ["/* Generated by idlgen. Do not edit. */", "",
      "#include \"" ++ pre ++ "_api.h\""], Text.OneLine line := by
    simp only [List.forall_mem_cons, Text.oneLine_append, hpre]
    decide +kernel
  intro line hline
  rcases List.mem_append.1 hline with hline | hline
  · exact hbefore line hline
  · obtain ⟨s, hs, hline⟩ := List.mem_flatMap.1 hline
    exact (hstubs s hs).definitionLines hpre line hline

/-! ### Functions line by line -/

/-- A header declares one function for each stub, in order, with the stub's signature. -/
theorem openingLines_headerLines (pre : String) (stubs : List Stub) (headers : List String) :
    openingLines (headerLines pre stubs headers) = stubs.map fun s => s.signature pre ++ ";" := by
  have hheaders :
      openingLines (headers.map fun header => "#include \"" ++ header ++ "\"") = [] := by
    simp [openingLines]
  have hstub : ∀ s : Stub, openingLines (s.declarationLines pre) = [s.signature pre ++ ";"] := by
    intro s
    simp [openingLines, declarationLines, signature]
  rw [headerLines, openingLines_append, openingLines_append, openingLines_append, hheaders,
    openingLines_flatMap hstub]
  simp [openingLines]

/-- What follows the first line of a stub's function: a check for null, one call that takes the
payload on, and the end. -/
inductive Body (pre : String) : Stub → List String → Prop where
  | json (topic : Topic) : Body pre (json topic)
      ["    if (!agent || !json_data) return -1;",
        "    return " ++ pre ++ "_agent_publish_json(agent, \"" ++ topic.topicName ++
          "\", json_data);",
        "\x7d"]
  | bytes (wire : WireStruct) : Body pre (bytes wire)
      ["    if (!agent || !data) return -1;",
        "    return " ++ pre ++ "_agent_publish_struct(agent, \"" ++ wire.topicName ++ "\", \"" ++
          wire.typeName ++ "\", data, sizeof(" ++ wire.full ++ "));",
        "\x7d"]

theorem exists_definitionLines_eq (pre : String) (s : Stub) :
    ∃ body, s.definitionLines pre = "" :: (s.signature pre ++ " \x7b") :: body ∧ Body pre s body ∧
      openingLines body = [] := by
  cases s with
  | json t =>
    refine ⟨_, rfl, ?_, by simp [openingLines, payloadName]⟩
    simpa [payloadName, forward, String.append_assoc] using (Body.json t : Body pre _ _)
  | bytes w =>
    refine ⟨_, rfl, ?_, by simp [openingLines, payloadName]⟩
    simpa [payloadName, forward, String.append_assoc] using (Body.bytes w : Body pre _ _)

theorem openingLines_eq_nil_iff {lines : List String} :
    openingLines lines = [] ↔ ∀ line ∈ lines, ¬ "int ".toList <+: line.toList := by
  simp [openingLines, List.filter_eq_nil_iff]

/-- A line at which a function begins lies behind lines at which none does. -/
theorem exists_of_notOpening {front rest before after : List String} {line : String}
    (hfront : openingLines front = []) (hline : "int ".toList <+: line.toList)
    (h : front ++ rest = before ++ line :: after) :
    ∃ before', before = front ++ before' ∧ rest = before' ++ line :: after := by
  rcases List.append_eq_append_iff.1 h with ⟨before', hbefore, hrest⟩ | ⟨front', rfl, hafter⟩
  · exact ⟨before', hbefore, hrest⟩
  · cases front' with
    | nil => exact ⟨[], by simp, hafter.symm⟩
    | cons line' front' =>
      obtain ⟨rfl, -⟩ := List.cons.inj hafter
      exact absurd hline (openingLines_eq_nil_iff.1 hfront line (by simp))

/-- Where a function begins among the functions of some stubs, it is that of the stub with as many
before it as functions begin before that line, and its body follows. -/
theorem exists_of_opening {before after : List String} {line : String}
    (hline : "int ".toList <+: line.toList)
    (h : stubs.flatMap (definitionLines pre) = before ++ line :: after) :
    ∃ s body rest, stubs[(openingLines before).length]? = some s ∧
      line = s.signature pre ++ " \x7b" ∧ Body pre s body ∧ after = body ++ rest := by
  induction stubs generalizing before with
  | nil => simp at h
  | cons s stubs ih =>
    obtain ⟨body, hlines, hbody, hnone⟩ := exists_definitionLines_eq pre s
    have hopening : openingLines [s.signature pre ++ " \x7b"] = [s.signature pre ++ " \x7b"] := by
      simp [openingLines, signature]
    have hblank : openingLines [""] = [] := by decide
    rw [List.flatMap_cons, hlines] at h
    obtain ⟨before', rfl, hfunction⟩ := exists_of_notOpening hblank hline h
    cases before' with
    | nil =>
      obtain ⟨rfl, rfl⟩ := List.cons.inj hfunction
      exact ⟨s, body, _, by simp [hblank], rfl, hbody, rfl⟩
    | cons first before' =>
      obtain ⟨rfl, hbodies⟩ := List.cons.inj hfunction
      obtain ⟨before', rfl, hrest⟩ := exists_of_notOpening hnone hline hbodies
      obtain ⟨s', body', rest, hs', hfound⟩ := ih hrest
      have hcount : openingLines ([""] ++ ([s.signature pre ++ " \x7b"] ++ (body ++ before'))) =
          (s.signature pre ++ " \x7b") :: openingLines before' := by
        rw [openingLines_append, openingLines_append, openingLines_append, hblank, hopening, hnone]
        rfl
      exact ⟨s', body', rest, hcount ▸ hs', hfound⟩

/-- The two files agree. The lines of the header that begin like a function are the signatures of
all stubs, each with a semicolon, and those of the source are the same signatures in the same order,
each with an opening brace: one for each topic, then one for each wire structure. In the source the
body of the stub follows each of them. -/
theorem header_declares_source (hpre : Text.OneLine pre) (htopics : ∀ t ∈ topics, t.OneLine)
    (hwires : ∀ w ∈ wires, w.OneLine) (hheaders : ∀ header ∈ headers, Text.OneLine header) :
    let signatures :=
      topics.map (fun t =>
        "int " ++ pre ++ "_send_" ++ t.apiSuffix ++ "_json(void* agent, const char* json_data)") ++
      wires.map (fun w =>
        "int " ++ pre ++ "_send_" ++ w.base ++ "_struct(void* agent, const " ++ w.full ++ "* data)")
    let source := linesOf (renderSource pre topics wires)
    openingLines (linesOf (renderHeader pre topics wires headers)) = signatures.map (· ++ ";") ∧
    openingLines source = signatures.map (· ++ " \x7b") ∧
    ∀ before line after, source = before ++ line :: after → "int ".toList <+: line.toList →
      ∃ s body rest, (all topics wires)[(openingLines before).length]? = some s ∧
        line = s.signature pre ++ " \x7b" ∧ Body pre s body ∧ after = body ++ rest := by
  intro signatures source
  have hstubs : ∀ s ∈ all topics wires, s.OneLine := fun s hs =>
    oneLine_of_mem_all htopics hwires hs
  have hheader : linesOf (renderHeader pre topics wires headers) =
      headerLines pre (all topics wires) headers :=
    Text.linesOf_join (oneLine_headerLines hpre hstubs hheaders)
  have hsource : source = sourceLines pre (all topics wires) :=
    Text.linesOf_join (oneLine_sourceLines hpre hstubs)
  have hsignatures : (all topics wires).map (signature pre) = signatures := by
    rw [all, List.map_append, List.map_map, List.map_map]
    refine congrArg₂ (· ++ ·) (List.map_congr_left fun t _ => ?_)
      (List.map_congr_left fun w _ => ?_)
    · simp [signature, functionName, payload, String.append_assoc]
    · simp [signature, functionName, payload, ← String.toList_inj]
  rw [hheader, hsource, openingLines_headerLines, openingLines_sourceLines, ← hsignatures,
    List.map_map, List.map_map]
  refine ⟨rfl, rfl, fun before line after h hline => ?_⟩
  have hpreamble : openingLines ["/* Generated by idlgen. Do not edit. */", "",
      "#include \"" ++ pre ++ "_api.h\""] = [] := by
    simp [openingLines]
  obtain ⟨before', rfl, hrest⟩ := exists_of_notOpening hpreamble hline h
  rw [openingLines_append, hpreamble, List.nil_append]
  exact exists_of_opening hline hrest

/-- A topic of a nested module and a wire structure. -/
theorem header_declares_source_speed :
    let t : Topic := ⟨.ofScope (some "Car::P") "C_Speed"⟩
    let w := WireStruct.documented "P_C_Speed" "speed.h" "Car::P::C_Speed"
    let source := linesOf (renderSource "legacy" [t] [w])
    Text.OneLine "legacy" ∧ t.OneLine ∧ w.OneLine ∧ Text.OneLine "speed.h" ∧
      openingLines (linesOf (renderHeader "legacy" [t] [w] ["speed.h"])) =
        ["int legacy_send_P_C_Speed_json(void* agent, const char* json_data);",
          "int legacy_send_P_C_Speed_struct(void* agent, const Wire_P_C_Speed* data);"] ∧
      ∀ before line after, source = before ++ line :: after → "int ".toList <+: line.toList →
        ∃ s body rest, [json t, bytes w][(openingLines before).length]? = some s ∧
          line = s.signature "legacy" ++ " \x7b" ∧ Body "legacy" s body ∧ after = body ++ rest := by
  intro t w source
  have ht : t.OneLine :=
    ⟨fun scope hscope => (Option.some.inj hscope) ▸ (by decide : Text.OneLine "Car::P"), by decide⟩
  have hw : w.OneLine := ⟨by decide, by decide, by decide, by decide⟩
  have hpre : Text.OneLine "legacy" := by decide
  have hheader : Text.OneLine "speed.h" := by decide
  have htopics : ∀ t' ∈ [t], t'.OneLine := fun t' h => List.mem_singleton.1 h ▸ ht
  have hwires : ∀ w' ∈ [w], w'.OneLine := fun w' h => List.mem_singleton.1 h ▸ hw
  have hheaders : ∀ header ∈ ["speed.h"], Text.OneLine header :=
    fun header h => List.mem_singleton.1 h ▸ hheader
  obtain ⟨hdeclared, -, hbodies⟩ := header_declares_source hpre htopics hwires hheaders
  exact ⟨hpre, ht, hw, hheader, hdeclared.trans (by decide), hbodies⟩

end Stub

end TypeCorpus
