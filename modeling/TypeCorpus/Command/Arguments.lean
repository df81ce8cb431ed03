/-! Arguments of a command line. An argument that begins with two dashes is a long option, its value
after an equals sign or in the next argument; one that begins with a single dash holds short
options, of which the last may take what is left of the argument, or the next one, as its value;
after two bare dashes every argument is a word. What is asked for or wrong first ends the reading.
-/

namespace TypeCorpus.Arguments

/-- What an option does. -/
inductive Effect where
  | flag
  | count
  /-- Takes a value, which may have to hold a character. -/
  | value (nonempty : Bool)
  /-- Takes a value each time it comes. -/
  | values
  | help
  | version
  deriving DecidableEq

structure Switch where
  long : String
  short : Option Char := none
  effect : Effect

/-- Where reading ended without arguments to run with. -/
inductive Stop where
  | help
  | version
  | misuse
  deriving DecidableEq

/-- The switches of a command and the most words that it takes; with none given, a word ends its
arguments and begins those of another command. -/
structure Shape where
  switches : List Switch
  words : Option Nat

/-- What was given, in order: options with their values, and words. -/
structure Given where
  options : List (String × String) := []
  words : List String := []

namespace Given

/-- The last value of an option. -/
def value? (g : Given) (long : String) : Option String :=
  ((g.options.filter (·.1 = long)).getLast?).map Prod.snd

def values (g : Given) (long : String) : List String :=
  (g.options.filter (·.1 = long)).map Prod.snd

def has (g : Given) (long : String) : Bool := (g.options.map Prod.fst).contains long

def add (g : Given) (long value : String) : Given :=
  { g with options := g.options ++ [(long, value)] }

end Given

namespace Switch

def takesValue (s : Switch) : Bool :=
  match s.effect with
  | .value _ | .values => true
  | _ => false

/-- Gives a switch its value. A single one cannot be given twice. -/
def set (s : Switch) (g : Given) (value : String) : Except Stop Given :=
  match s.effect with
  | .value nonempty =>
    if (nonempty && value = "") || g.has s.long then .error .misuse else .ok (g.add s.long value)
  | .values => if value = "" then .error .misuse else .ok (g.add s.long value)
  | _ => .error .misuse

/-- Applies a switch that takes no value. -/
def apply (s : Switch) (g : Given) : Except Stop Given :=
  match s.effect with
  | .help => .error .help
  | .version => .error .version
  | .count => .ok (g.add s.long "")
  | .flag => if g.has s.long then .error .misuse else .ok (g.add s.long "")
  | _ => .error .misuse

end Switch

/-- Reads short options of one argument; the last may still need a value. -/
def readShorts (switches : List Switch) (g : Given) :
    List Char → Except Stop (Given × Option Switch)
  | [] => .ok (g, none)
  | c :: rest =>
    match switches.find? (·.short = some c) with
    | none => .error .misuse
    | some s =>
      if s.takesValue then
        match rest with
        | [] => .ok (g, some s)
        | '=' :: value => (s.set g (String.ofList value)).map (·, none)
        | value => (s.set g (String.ofList value)).map (·, none)
      else do readShorts switches (← s.apply g) rest

/-- Reads a long option; it may still need a value. -/
def readLong (switches : List Switch) (g : Given) (argument : List Char) :
    Except Stop (Given × Option Switch) :=
  let name := argument.takeWhile (· ≠ '=')
  match switches.find? (·.long = String.ofList name), argument.drop name.length with
  | none, _ => .error .misuse
  | some s, _ :: value =>
    if s.takesValue then (s.set g (String.ofList value)).map (·, none) else .error .misuse
  | some s, [] => if s.takesValue then .ok (g, some s) else (s.apply g).map (·, none)

/-- Adds a word where one more is taken. -/
def addWord (shape : Shape) (g : Given) (word : String) : Except Stop Given :=
  match shape.words with
  | some most =>
    if g.words.length < most then .ok { g with words := g.words ++ [word] } else .error .misuse
  | none => .error .misuse

def addWords (shape : Shape) (g : Given) : List String → Except Stop Given
  | [] => .ok g
  | word :: words => do addWords shape (← addWord shape g word) words

/-- Whether an argument is an option and not a word; a single dash is a word. -/
def isOption (argument : String) : Bool :=
  argument.toList.head? = some '-' && argument ≠ "-"

/-- Reads the arguments of a command, and gives those of the command that a word begins. -/
def read (shape : Shape) (g : Given) : List String → Except Stop (Given × List String)
  | [] => .ok (g, [])
  | argument :: rest =>
    if argument = "--" then (addWords shape g rest).map (·, [])
    else if isOption argument then do
      let (g, pending) ←
        match argument.toList with
        | '-' :: '-' :: long => readLong shape.switches g long
        | shorts => readShorts shape.switches g (shorts.drop 1)
      match pending with
      | none => read shape g rest
      | some s =>
        match rest with
        | [] => .error .misuse
        | value :: rest =>
          if isOption value then .error .misuse else read shape (← s.set g value) rest
    else if shape.words.isNone then .ok (g, argument :: rest)
    else do read shape (← addWord shape g argument) rest

end TypeCorpus.Arguments
