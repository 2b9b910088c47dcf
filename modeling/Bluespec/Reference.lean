namespace Bluespec

/-- Declarations and scopes are known by their index. As long as a session has no more than 2 ^ 32 of
either, an index cut to 32 bits is the same. -/
structure DeclId where
  index : Nat
deriving DecidableEq, Repr

def DeclId.render (id : DeclId) : String := "decl#" ++ toString id.index

structure ScopeId where
  index : Nat
deriving DecidableEq, Repr

def ScopeId.render (id : ScopeId) : String := "scope#" ++ toString id.index

end Bluespec
