import Bluespec.Error
import Bluespec.Table

namespace Bluespec

/-- One level of name bindings. `history` holds every declaration ever bound, oldest first,
those whose binding was overwritten included. -/
structure Scope where
  name : String
  bindings : Table DeclId
  history : List DeclId
  parent : Option ScopeId

namespace Scope

def isOutermost (s : Scope) : Bool := s.parent.isNone

def lookup (s : Scope) (name : String) : Option DeclId := s.bindings.get? name

def bind (s : Scope) (name : String) (decl : DeclId) : Scope :=
  { s with bindings := s.bindings.insert name decl, history := s.history ++ [decl] }

end Scope

structure Scopes where
  items : Array Scope

namespace Scopes

def empty : Scopes := ⟨#[]⟩

instance : EmptyCollection Scopes := ⟨empty⟩

def size (t : Scopes) : Nat := t.items.size

def get? (t : Scopes) (id : ScopeId) : Option Scope := t.items[id.index]?

def get (t : Scopes) (id : ScopeId) : Except Error Scope :=
  match t.get? id with
  | some s => .ok s
  | none => .error (.missingScope id)

def push (t : Scopes) (name : String) (parent : Option ScopeId) : ScopeId × Scopes :=
  (⟨t.size⟩, ⟨t.items.push ⟨name, ∅, [], parent⟩⟩)

def set (t : Scopes) (id : ScopeId) (s : Scope) : Scopes := ⟨t.items.setIfInBounds id.index s⟩

def modify (t : Scopes) (id : ScopeId) (f : Scope → Scope) : Scopes := ⟨t.items.modify id.index f⟩

def bind (t : Scopes) (id : ScopeId) (name : String) (decl : DeclId) : Except Error Scopes := do
  let scope ← t.get id
  return t.set id (scope.bind name decl)

def lookupWithin (t : Scopes) (name : String) :
    (steps : Nat) → ScopeId → Except Error (Option DeclId)
  | 0, id => .error (.circularScopes id)
  | steps + 1, id => do
    let scope ← t.get id
    match scope.lookup name, scope.parent with
    | some decl, _ => return some decl
    | none, some parent => t.lookupWithin name steps parent
    | none, none => return none

/-- The innermost declaration bound to a name. A walk through more scopes than there are meets one
of them twice. -/
def lookup (t : Scopes) (id : ScopeId) (name : String) : Except Error (Option DeclId) :=
  t.lookupWithin name (t.size + 1) id

end Scopes

end Bluespec
