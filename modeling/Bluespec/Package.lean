import Bluespec.Source
import Bluespec.Spec

namespace Bluespec

inductive Entry where
  | requires (package : String)
  | declares (spec : Spec)
deriving DecidableEq, Repr

structure Item where
  entry : Entry
  node : Node
deriving DecidableEq, Repr

structure Package where
  name : String
  source : String
  items : List Item
deriving DecidableEq, Repr

namespace Entry

def text : Entry → String
  | requires _ => ""
  | declares spec => spec.name

def required? : Entry → Option String
  | requires package => some package
  | declares _ => none

end Entry

namespace Package

def imports (p : Package) : List String := p.items.filterMap (·.entry.required?)

/-- Lay entries out one to a line; ids count from zero and lines from one. -/
def ofEntries (name source : String) (entries : List Entry) : Package :=
  { name, source,
    items := entries.zipIdx.map fun (entry, i) =>
      { entry, node := { id := i, source, line := i + 1, text := entry.text } } }

end Package

end Bluespec
