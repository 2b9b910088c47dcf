import Bluespec.Scope.Merge

namespace Bluespec

structure Config where
  /-- The directories searched for packages, in this order. -/
  includePath : List String := []
  /-- The extension of package sources, without its dot. -/
  sourceExtension : String := "bsv"
  importPolicy : Policy := .permissive
  /-- Whether a session starts with the constructors `Function1`, `Function2`, … -/
  synthesizeFunctions : Bool := false
  /-- The arities of these constructors stay below this limit. -/
  functionArityLimit : Nat := 20
deriving DecidableEq, Repr

namespace Config

def addDirectory (c : Config) (dir : String) : Config :=
  { c with includePath := c.includePath ++ [dir] }

def setPolicy (c : Config) (policy : Policy) : Config := { c with importPolicy := policy }

def enableFunctions (c : Config) (limit : Nat) : Config :=
  { c with synthesizeFunctions := true, functionArityLimit := limit }

def hasBareExtension (c : Config) : Bool :=
  !c.sourceExtension.isEmpty && !c.sourceExtension.startsWith "."

def validate (c : Config) : Except Error Unit :=
  if !c.hasBareExtension then
    .error (.configuration
      ("source_extension must be a bare extension, got '" ++ c.sourceExtension ++ "'"))
  else if c.synthesizeFunctions && c.functionArityLimit < 2 then
    .error (.configuration "function_arity_limit must be at least 2")
  else .ok ()

end Config

end Bluespec
