namespace Bluespec

structure Span where
  offset : Nat
  length : Nat
deriving DecidableEq, Repr, Inhabited

/-- The identity of a node across a whole session; ids alone restart in every source unit. -/
structure NodeKey where
  source : String
  id : Nat
deriving DecidableEq, Repr

namespace NodeKey

def le (a b : NodeKey) : Bool := a.source < b.source || (a.source == b.source && a.id ≤ b.id)

end NodeKey

structure Node where
  id : Nat
  source : String
  line : Nat
  column : Nat := 0
  span : Span := ⟨0, 0⟩
  text : String := ""
deriving DecidableEq, Repr

namespace Node

def key (n : Node) : NodeKey := ⟨n.source, n.id⟩

def location (n : Node) : String := n.source ++ ":" ++ toString n.line

end Node

end Bluespec
