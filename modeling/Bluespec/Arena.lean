import Bluespec.Error
import Bluespec.Spec

namespace Bluespec

structure Declaration where
  name : String
  type : TypeExpr
  binding : Binding
  kind : Kind
  members : List DeclId
  parent : Option DeclId
deriving DecidableEq, Repr

structure Arena where
  items : Array Declaration
deriving DecidableEq, Repr

namespace Arena

def empty : Arena := ⟨#[]⟩

instance : EmptyCollection Arena := ⟨empty⟩

def size (a : Arena) : Nat := a.items.size

def isEmpty (a : Arena) : Bool := a.items.isEmpty

def get? (a : Arena) (id : DeclId) : Option Declaration := a.items[id.index]?

def get (a : Arena) (id : DeclId) : Except Error Declaration :=
  match a.get? id with
  | some d => .ok d
  | none => .error (.missingDeclaration id)

/-- Store a declaration under the next index. Only the kinds that list members keep any. -/
def push (a : Arena) (d : Declaration) : DeclId × Arena :=
  (⟨a.size⟩, ⟨a.items.push { d with members := if d.kind.listsMembers then d.members else [] }⟩)

def setParent (a : Arena) (owner member : DeclId) : Arena :=
  ⟨a.items.modify member.index fun d => { d with parent := some owner }⟩

def adopt (a : Arena) (owner : DeclId) (members : List DeclId) : Arena :=
  members.foldl (fun a m => a.setParent owner m) a

mutual

/-- Store a declaration after its members and make it the parent of each of them. -/
def add (a : Arena) : Spec → DeclId × Arena
  | ⟨name, type, binding, kind, members⟩ =>
    let (ids, a) := a.addAll members
    let (id, a) := a.push ⟨name, type, binding, kind, ids, none⟩
    (id, a.adopt id ids)

def addAll (a : Arena) : List Spec → List DeclId × Arena
  | [] => ([], a)
  | spec :: rest =>
    let (id, a) := a.add spec
    let (ids, a) := a.addAll rest
    (id :: ids, a)

end

end Arena

end Bluespec
