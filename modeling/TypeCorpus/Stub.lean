import TypeCorpus.Document
import TypeCorpus.Text.Case
import TypeCorpus.Wire.Basic

/-! The publish stubs: a C header and a C source with one function for each topic, which publishes
JSON, and one for each wire structure, which publishes its bytes. Both files are lists of lines made
from one list of functions, so that each declared function is defined under the same signature. -/

namespace TypeCorpus

/-- What a stub publishes. -/
inductive Stub where
  | json (topic : Topic)
  | bytes (wire : WireStruct)

namespace Stub

/-- The stubs for topics and wire structures, topics first. -/
def all (topics : List Topic) (wires : List WireStruct) : List Stub :=
  topics.map json ++ wires.map bytes

def functionName (pre : String) : Stub → String
  | json topic => pre ++ "_send_" ++ topic.apiSuffix ++ "_json"
  | bytes wire => pre ++ "_send_" ++ wire.base ++ "_struct"

/-- The C declarator of a stub's payload. -/
def payload : Stub → String
  | json _ => "const char* json_data"
  | bytes wire => "const " ++ wire.full ++ "* data"

/-- The name of a stub's payload. -/
def payloadName : Stub → String
  | json _ => "json_data"
  | bytes _ => "data"

def signature (pre : String) (s : Stub) : String :=
  "int " ++ s.functionName pre ++ "(void* agent, " ++ s.payload ++ ")"

/-- What a stub's comment says that it publishes. -/
def subject : Stub → String
  | json topic => "JSON on topic " ++ topic.topicName ++ " (" ++ topic.typeName ++ ")"
  | bytes wire => wire.full ++ " on topic " ++ wire.topicName ++ " (" ++ wire.typeName ++ ")"

/-- The call that a stub forwards to. -/
def forward (pre : String) : Stub → String
  | json topic => pre ++ "_agent_publish_json(agent, \"" ++ topic.topicName ++ "\", json_data)"
  | bytes wire =>
    pre ++ "_agent_publish_struct(agent, \"" ++ wire.topicName ++ "\", \"" ++ wire.typeName ++
      "\", data, sizeof(" ++ wire.full ++ "))"

def declarationLines (pre : String) (s : Stub) : List String :=
  ["", "/** Publish " ++ s.subject ++ ". */", s.signature pre ++ ";"]

def definitionLines (pre : String) (s : Stub) : List String :=
  ["", s.signature pre ++ " \x7b",
    "    if (!agent || !" ++ s.payloadName ++ ") return -1;",
    "    return " ++ s.forward pre ++ ";",
    "\x7d"]

/-- The macro that keeps a header from being read twice. -/
def guard (pre : String) : String :=
  String.ofList (Text.uppercase pre.toList) ++ "_API_GENERATED_H"

def headerLines (pre : String) (stubs : List Stub) (headers : List String) : List String :=
  ["/**", " * @file " ++ pre ++ "_api.h",
    " * @brief JSON publish API, one function per topic.", " *",
    " * Generated by idlgen. Do not edit.", " */", "",
    "#ifndef " ++ guard pre, "#define " ++ guard pre, "",
    "#ifdef __cplusplus", "extern \"C\" \x7b", "#endif", "",
    "#include \"" ++ pre ++ "_agent.h\""] ++
  headers.map (fun header => "#include \"" ++ header ++ "\"") ++
  stubs.flatMap (declarationLines pre) ++
  ["", "#ifdef __cplusplus", "\x7d", "#endif", "", "#endif /* " ++ guard pre ++ " */"]

def sourceLines (pre : String) (stubs : List Stub) : List String :=
  ["/* Generated by idlgen. Do not edit. */", "", "#include \"" ++ pre ++ "_api.h\""] ++
  stubs.flatMap (definitionLines pre)

/-- A text of lines, each ended. -/
def joinLines (lines : List String) : String := String.join (lines.map (· ++ "\n"))

def renderHeader (pre : String) (topics : List Topic) (wires : List WireStruct)
    (headers : List String) : String :=
  joinLines (headerLines pre (all topics wires) headers)

def renderSource (pre : String) (topics : List Topic) (wires : List WireStruct) : String :=
  joinLines (sourceLines pre (all topics wires))

end Stub

end TypeCorpus
