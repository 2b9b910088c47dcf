import Bluespec.TypeExpr

namespace Bluespec

inductive Binding where
  | global
  | local
  | module
  | method
deriving DecidableEq, Repr

/-- What a declaration declares. A synonym carries the type expression being defined, whose
meaning is the declaration's own type. -/
inductive Kind where
  | enum
  | struct
  | union
  | interface
  | method
  | module
  | function
  | synonym (defined : TypeExpr)
  | value
deriving DecidableEq, Repr

namespace Kind

def label : Kind → String
  | enum => "enum"
  | struct => "struct"
  | union => "union"
  | interface => "interface"
  | method => "method"
  | module => "module"
  | function => "function"
  | synonym _ => "typedef"
  | value => "value"

def defined? : Kind → Option TypeExpr
  | synonym t => some t
  | _ => none

def isSynonym (k : Kind) : Bool := k.defined?.isSome

def listsMembers : Kind → Bool
  | enum | struct | union | interface => true
  | _ => false

end Kind

structure Spec where
  name : String
  type : TypeExpr
  binding : Binding := .global
  kind : Kind := .value
  members : List Spec := []
deriving Repr, Inhabited

namespace Spec

def enumeration (name : String) (type : TypeExpr) (tags : List String) : Spec :=
  { name, type, kind := .enum, members := tags.map fun tag => { name := tag, type } }

def aggregate (kind : Kind) (name : String) (type : TypeExpr)
    (fields : List (String × TypeExpr)) : Spec :=
  { name, type, kind,
    members := fields.map fun f => { name := f.1, type := f.2, binding := .local } }

def interface (name : String) (type : TypeExpr) (methods : List (String × TypeExpr)) : Spec :=
  { name, type, kind := .interface,
    members := methods.map fun m =>
      { name := m.1, type := m.2, binding := .method, kind := .method } }

/-- Written `typedef target defined;` in a source. -/
def synonym (defined target : TypeExpr) : Spec :=
  { name := defined.name, type := target, kind := .synonym defined }

mutual

def decEq : (s t : Spec) → Decidable (s = t)
  | ⟨n, y, b, k, ms⟩, ⟨n', y', b', k', ms'⟩ =>
    match decEqAll ms ms' with
    | .isTrue hm =>
      if h : n = n' ∧ y = y' ∧ b = b' ∧ k = k' then
        .isTrue (by rw [hm, h.1, h.2.1, h.2.2.1, h.2.2.2])
      else .isFalse fun e => h (by injection e with h1 h2 h3 h4; exact ⟨h1, h2, h3, h4⟩)
    | .isFalse hm => .isFalse fun e => hm (by injection e)

def decEqAll : (ss ts : List Spec) → Decidable (ss = ts)
  | [], [] => .isTrue rfl
  | [], _ :: _ => .isFalse nofun
  | _ :: _, [] => .isFalse nofun
  | s :: ss, t :: ts =>
    match decEq s t, decEqAll ss ts with
    | .isTrue h, .isTrue hs => .isTrue (by rw [h, hs])
    | .isFalse h, _ => .isFalse fun e => h (by injection e)
    | _, .isFalse hs => .isFalse fun e => hs (by injection e)

end

instance : DecidableEq Spec := decEq

end Spec

end Bluespec
