import Bluespec.Scope.Visit

namespace Bluespec

/-- The symbol tables of a session. `types` and `values` only ever grow at the end, and a
declaration in `indexed` is never indexed again. -/
structure Symbols where
  typeOf : Table DeclId := ∅
  types : List DeclId := []
  membersOf : Table (List DeclId) := ∅
  enumOf : Table DeclId := ∅
  valueOf : Table DeclId := ∅
  values : List DeclId := []
  indexed : List DeclId := []

namespace Symbols

def empty : Symbols := {}

instance : EmptyCollection Symbols := ⟨empty⟩

def type? (s : Symbols) (name : String) : Option DeclId := s.typeOf.get? name

def membersCalled (s : Symbols) (name : String) : List DeclId := (s.membersOf.get? name).getD []

def enumOfTag? (s : Symbols) (tag : String) : Option DeclId := s.enumOf.get? tag

def value? (s : Symbols) (name : String) : Option DeclId := s.valueOf.get? name

def addTag (s : Symbols) (tag : String) (owner : DeclId) : Symbols :=
  { s with enumOf := s.enumOf.insert tag owner }

def addMember (s : Symbols) (name : String) (id : DeclId) : Symbols :=
  { s with membersOf := s.membersOf.insert name (s.membersCalled name ++ [id]) }

def appendType (s : Symbols) (name : String) (id : DeclId) : Symbols :=
  { s with types := s.types ++ [id], typeOf := s.typeOf.insert name id }

def appendValue (s : Symbols) (name : String) (id : DeclId) : Symbols :=
  { s with values := s.values ++ [id], valueOf := s.valueOf.insert name id }

def mark (s : Symbols) (id : DeclId) : Symbols := { s with indexed := id :: s.indexed }

/-- Enter tags under the enumeration that encloses them, `owner` for a tag that says nothing. -/
def addTags (arena : Arena) (owner : DeclId) : List DeclId → Symbols → Except Error Unit × Symbols
  | [], s => (.ok (), s)
  | tag :: rest, s =>
    match arena.get tag with
    | .error e => (.error e, s)
    | .ok d => addTags arena owner rest (s.addTag d.name (d.parent.getD owner))

def addMembers (arena : Arena) : List DeclId → Symbols → Except Error Unit × Symbols
  | [], s => (.ok (), s)
  | member :: rest, s =>
    match arena.get member with
    | .error e => (.error e, s)
    | .ok d => addMembers arena rest (s.addMember d.name member)

/-- Index a declaration unless that was done before. It counts as indexed from here on, even if
the declaration turns out to be missing. -/
def once (arena : Arena) (id : DeclId) (s : Symbols)
    (index : Declaration → Symbols → Except Error Unit × Symbols) : Except Error Unit × Symbols :=
  if id ∈ s.indexed then (.ok (), s)
  else
    match arena.get id with
    | .error e => (.error e, s.mark id)
    | .ok d => index d (s.mark id)

def indexEnum (arena : Arena) (id : DeclId) (s : Symbols) : Except Error Unit × Symbols :=
  s.once arena id fun d s => addTags arena id d.members s

def indexAggregate (arena : Arena) (id : DeclId) (s : Symbols) : Except Error Unit × Symbols :=
  s.once arena id fun d s => addMembers arena d.members (s.appendType d.name id)

def indexValue (arena : Arena) (id : DeclId) (s : Symbols) : Except Error Unit × Symbols :=
  s.once arena id fun d s => (.ok (), s.appendValue d.name id)

/-- Bare methods live in interfaces only and synonyms are entered by `addSynonym`, so neither
is ever indexed from a scope. -/
def refuse (arena : Arena) (variant : String) (id : DeclId) (s : Symbols) :
    Except Error Unit × Symbols :=
  match arena.get id with
  | .error e => (.error e, s)
  | .ok d => (.error (.refused "package context" variant d.name), s)

def visitor (arena : Arena) : Visitor Symbols
  | .declaration, _, s => (.ok (), s)
  | .enum, id, s => s.indexEnum arena id
  | .struct, id, s | .union, id, s | .interface, id, s => s.indexAggregate arena id
  | .module, id, s | .function, id, s => s.indexValue arena id
  | .method, id, s => s.refuse arena "method" id
  | .synonym, id, s => s.refuse arena "typedef" id

def indexScope (s : Symbols) (arena : Arena) (scopes : Scopes) (scope : ScopeId) :
    Except Error Unit × Symbols :=
  scopes.visit scope arena (visitor arena) s

def enterSynonym (s : Symbols) (name : String) (id : DeclId) : Symbols :=
  { s with valueOf := s.valueOf.insert name id }

def addSynonym (s : Symbols) (arena : Arena) (id : DeclId) : Except Error Symbols := do
  let d ← arena.get id
  return s.enterSynonym d.name id

def addType (s : Symbols) (name : String) (id : DeclId) : Symbols :=
  if id ∈ s.indexed then s else (s.mark id).appendType name id

end Symbols

end Bluespec
