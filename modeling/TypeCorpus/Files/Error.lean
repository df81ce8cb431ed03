/-! Why a file operation fails, with the messages of the operating system and its error numbers. -/

namespace TypeCorpus

inductive FileError where
  | notFound
  | alreadyThere
  | notADirectory
  | isADirectory
  | nameTooLong
  | nulInName
  | invalidEncoding
  deriving DecidableEq

namespace FileError

/-- The operating system's number of an error; the last two kinds never reach it. -/
def number? : FileError → Option Nat
  | notFound => some 2
  | alreadyThere => some 17
  | notADirectory => some 20
  | isADirectory => some 21
  | nameTooLong => some 36
  | nulInName => none
  | invalidEncoding => none

def text : FileError → String
  | notFound => "No such file or directory"
  | alreadyThere => "File exists"
  | notADirectory => "Not a directory"
  | isADirectory => "Is a directory"
  | nameTooLong => "File name too long"
  | nulInName => "file name contained an unexpected NUL byte"
  | invalidEncoding => "stream did not contain valid UTF-8"

def message (e : FileError) : String :=
  match e.number? with
  | some n => e.text ++ " (os error " ++ toString n ++ ")"
  | none => e.text

end FileError

end TypeCorpus
