import TypeCorpus.Declaration
import TypeCorpus.Name
import TypeCorpus.Table

/-! The registry of types: one table for each kind of declaration, and one that sends a short name
to the full name that was entered last with it. A registration writes its own table and the table of
short names; nothing is ever removed. -/

namespace TypeCorpus

structure Registry where
  typedefs : Table String String := []
  enums : Table String (List String) := []
  structs : Table String StructDecl := []
  shortNames : Table String String := []

/-- What is entered under a name; a structure may be entered under a name other than its own. -/
inductive Registration where
  | typedef (name underlying : String)
  | enum (name : String) (enumerators : List String)
  | struct (name : String) (decl : StructDecl)

namespace Registration

def name : Registration → String
  | typedef name _ => name
  | enum name _ => name
  | struct name _ => name

end Registration

/-- A declaration is entered under its own name. -/
def Declaration.registration : Declaration → Registration
  | typedef name underlying => .typedef name underlying
  | enum name enumerators => .enum name enumerators
  | struct decl => .struct decl.name decl

namespace Registry

def empty : Registry := {}

def bindShortName (r : Registry) (name : String) : Registry :=
  { r with shortNames := r.shortNames.insert (Name.short name) name }

/-- Makes one registration. -/
def enter (r : Registry) (g : Registration) : Registry :=
  let r := r.bindShortName g.name
  match g with
  | .typedef name underlying => { r with typedefs := r.typedefs.insert name underlying }
  | .enum name enumerators => { r with enums := r.enums.insert name enumerators }
  | .struct name decl => { r with structs := r.structs.insert name decl }

def enterAll (r : Registry) (gs : List Registration) : Registry := gs.foldl enter r

def register (r : Registry) (d : Declaration) : Registry := r.enter d.registration

def registerAll (r : Registry) (ds : List Declaration) : Registry := ds.foldl register r

def ofDeclarations (ds : List Declaration) : Registry := empty.registerAll ds

/-- The full name that a short name stands for. -/
def fullName? (r : Registry) (short : String) : Option String := r.shortNames.get? short

/-- A registry is empty when nothing of any kind was entered. -/
def isEmpty (r : Registry) : Bool := r.typedefs.isEmpty && r.enums.isEmpty && r.structs.isEmpty

theorem registerAll_eq_enterAll (r : Registry) (ds : List Declaration) :
    r.registerAll ds = r.enterAll (ds.map Declaration.registration) := by
  simp only [registerAll, enterAll, List.foldl_map]
  rfl

end Registry

end TypeCorpus
