import Bluespec.Config
import Bluespec.Symbols

namespace Bluespec

/-- The state of name resolution. `packages` gives the scope of every package analyzed, and
`requests` the package and path of every source read, oldest first. -/
structure Session where
  config : Config
  arena : Arena := ∅
  scopes : Scopes := ∅
  current : ScopeId
  symbols : Symbols := ∅
  packages : Table ScopeId := ∅
  hasFunctionTypes : Bool := false
  requests : List (String × String) := []

namespace Session

def functionType (arity : Nat) : TypeExpr :=
  .applied ("Function" ++ toString arity)
    ((List.range arity).map fun p => .var ("a" ++ toString p))

def addFunctionType (s : Session) (arity : Nat) : Session :=
  let type := functionType arity
  let (id, arena) := s.arena.push ⟨type.name, type, .global, .value, [], none⟩
  { s with arena, symbols := s.symbols.addType type.name id }

def addFunctionTypes (s : Session) : Session :=
  if s.hasFunctionTypes then s
  else (List.range' 1 (s.config.functionArityLimit - 1)).foldl addFunctionType
    { s with hasFunctionTypes := true }

def start (config : Config) : Session :=
  let (root, scopes) := Scopes.empty.push "<session>" none
  let s : Session := { config, scopes, current := root }
  if config.synthesizeFunctions then s.addFunctionTypes else s

def bind (s : Session) (name : String) (decl : DeclId) : Session :=
  { s with scopes := s.scopes.modify s.current (·.bind name decl) }

/-- Store a declaration and bind it in the current scope. Synonyms are bound in no scope; the
symbol tables alone know them. -/
def declare (s : Session) (spec : Spec) : DeclId × Session :=
  let (id, arena) := s.arena.add spec
  let s := { s with arena }
  if spec.kind.isSynonym then (id, { s with symbols := s.symbols.enterSynonym spec.name id })
  else (id, s.bind spec.name id)

def indexScope (s : Session) : Except Error Unit × Session :=
  let (result, symbols) := s.symbols.indexScope s.arena s.scopes s.current
  (result, { s with symbols })

def lookup (s : Session) (name : String) : Except Error (Option DeclId) :=
  s.scopes.lookup s.current name

def openScope (s : Session) (name : String) : Session :=
  let (scope, scopes) := s.scopes.push name (some s.current)
  { s with scopes, current := scope }

def closeScope (s : Session) : Except Error Session := do
  let scope ← s.scopes.get s.current
  match scope.parent with
  | some parent => return { s with current := parent }
  | none => throw .noEnclosingScope

def scopeOf? (s : Session) (package : String) : Option ScopeId := s.packages.get? package

def hasPackage (s : Session) (package : String) : Bool := s.packages.contains package

end Session

end Bluespec
