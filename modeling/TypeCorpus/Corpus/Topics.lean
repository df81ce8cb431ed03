import TypeCorpus.Corpus.Basic

/-! The topics of a directory of schema documents: those of every document that can be read, in
order; of several with one topic name the first is kept, and the result is sorted by topic name. -/

namespace TypeCorpus

namespace Topic

/-- Leaves out each topic whose name came before. -/
def distinct (seen : List String) : List Topic → List Topic
  | [] => []
  | t :: ts =>
    if t.topicName ∈ seen then distinct seen ts else t :: distinct (t.topicName :: seen) ts

def sorted (ts : List Topic) : List Topic :=
  ts.mergeSort fun t u => Text.ordered t.topicName u.topicName

end Topic

namespace FileSystem

/-- The topics of all documents that can be read, in order. -/
def allTopics (fs : FileSystem) : List String → Traced Event (List Topic)
  | [] => pure []
  | path :: rest =>
    match fs.loadDocument path with
    | .ok d => (d.topics ++ ·) <$> fs.allTopics rest
    | .error e => do
      Traced.note (.documentSkipped path e)
      fs.allTopics rest

/-- The topics of a directory. -/
def collectTopics (fs : FileSystem) (dir : String) :
    Except SchemaError (Traced Event (List Topic)) :=
  match fs.schemaFiles dir with
  | .ok files => .ok ((fun ts => Topic.sorted (Topic.distinct [] ts)) <$> fs.allTopics files)
  | .error e => .error e

end FileSystem

end TypeCorpus
