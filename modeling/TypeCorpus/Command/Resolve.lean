import TypeCorpus.Command.Basic
import TypeCorpus.Kind
import TypeCorpus.Sample.Json
import TypeCorpus.Sample.Synthesis

/-! The command that tells what a type reference names in a corpus: the name it resolves to, the
kind of it, and its sample where one is asked for. -/

namespace TypeCorpus

structure ResolveCommand where
  ref : String
  schemaDirectories : List String
  sample : Bool := false

namespace ResolveCommand

/-- Answers from a registry. -/
def answer (c : ResolveCommand) (r : Registry) : Traced Remark Status :=
  match r.resolve? c.ref with
  | .error cycle => do
    say ("ERROR: " ++ cycle.message)
    pure .failed
  | .ok name => do
    say ("type:     " ++ c.ref)
    say ("resolved: " ++ name)
    say ("kind:     " ++ (r.kind c.ref name).text)
    if c.sample then
      let s ← reporting ((r.sample c.ref false).mapEvents .cycle)
      say s.pretty
    pure .succeeded

def run (c : ResolveCommand) (fs : FileSystem) : Traced Remark (Outcome Status) := do
  match ← reporting (Corpus.ofDirectories fs c.schemaDirectories) with
  | .error (dir, e) => pure ⟨fs, .error (.schemaDirectory dir e)⟩
  | .ok corpus => (fun status => ⟨fs, .ok status⟩) <$> c.answer corpus.registry

end ResolveCommand

end TypeCorpus
