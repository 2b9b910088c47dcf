import Bluespec.Scope

namespace Bluespec

inductive Policy where
  /-- The incoming binding replaces the one that is there. -/
  | permissive
  /-- The merge fails, unless both bindings are of one declaration. -/
  | strict
deriving DecidableEq, Repr

def Scope.accept (s : Scope) : Policy → List (String × DeclId) → Except Error Unit
  | .permissive, _ => .ok ()
  | .strict, [] => .ok ()
  | .strict, (name, decl) :: rest =>
    if (s.lookup name).any (· ≠ decl) then .error (.duplicateBinding s.name name)
    else s.accept .strict rest

namespace Scopes

def bindAll (t : Scopes) (id : ScopeId) : List (String × DeclId) → Scopes
  | [] => t
  | (name, decl) :: rest => (t.modify id (·.bind name decl)).bindAll id rest

/-- Copy the direct bindings of one scope into another, in the order of the names. All of them are
accepted before the first one is written. -/
def merge (t : Scopes) (target source : ScopeId) (policy : Policy) :
    Except Error Unit × Scopes :=
  match t.get source with
  | .error e => (.error e, t)
  | .ok incoming =>
    match t.get target with
    | .error e => (.error e, t)
    | .ok receiving =>
      match receiving.accept policy incoming.bindings.entries with
      | .error e => (.error e, t)
      | .ok () => (.ok (), t.bindAll target incoming.bindings.entries)

end Scopes

end Bluespec
