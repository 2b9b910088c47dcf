import Bluespec.Arena
import Bluespec.Scope

namespace Bluespec

inductive Callback where
  | declaration
  | enum
  | function
  | interface
  | method
  | module
  | struct
  | synonym
  | union
deriving DecidableEq, Repr

def Kind.callback? : Kind → Option Callback
  | enum => some .enum
  | struct => some .struct
  | union => some .union
  | interface => some .interface
  | method => some .method
  | module => some .module
  | function => some .function
  | synonym _ => some .synonym
  | value => none

/-- Callbacks over a state of type `σ`. A callback that fails may have changed the state before. -/
abbrev Visitor (σ : Type) := Callback → DeclId → σ → Except Error Unit × σ

namespace Visitor

variable {σ : Type}

def idle : Visitor σ := fun _ _ s => (.ok (), s)

def recorder (reply : Callback → DeclId → Except Error Unit) : Visitor (List (Callback × DeclId)) :=
  fun callback id calls => (reply callback id, calls ++ [(callback, id)])

def visitKind (v : Visitor σ) (arena : Arena) (id : DeclId) (s : σ) : Except Error Unit × σ :=
  match arena.get id with
  | .error e => (.error e, s)
  | .ok d =>
    match d.kind.callback? with
    | some callback => v callback id s
    | none => (.ok (), s)

def visitOne (v : Visitor σ) (arena : Arena) (id : DeclId) (s : σ) : Except Error Unit × σ :=
  match v .declaration id s with
  | (.ok (), t) => v.visitKind arena id t
  | (.error e, t) => (.error e, t)

def visitAll (v : Visitor σ) (arena : Arena) : List DeclId → σ → Except Error Unit × σ
  | [], s => (.ok (), s)
  | id :: rest, s =>
    match v.visitOne arena id s with
    | (.ok (), t) => v.visitAll arena rest t
    | (.error e, t) => (.error e, t)

end Visitor

/-- Visit everything ever bound in a scope, oldest first, up to the first failure. -/
def Scopes.visit {σ : Type} (t : Scopes) (id : ScopeId) (arena : Arena) (v : Visitor σ) (s : σ) :
    Except Error Unit × σ :=
  match t.get id with
  | .error e => (.error e, s)
  | .ok scope => v.visitAll arena scope.history s

end Bluespec
