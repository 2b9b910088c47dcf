import Bluespec.Config
import Bluespec.FileTree
import Bluespec.Package

namespace Bluespec

/-- What a parser gives. Where a package or a path is named, the entry is for that one only. -/
structure Reading where
  package : Option String := none
  path : Option String := none
  result : Except Error Package

namespace Reading

def fits (r : Reading) (package path : String) : Bool :=
  r.package.all (· == package) && r.path.all (· == path)

def imports (r : Reading) : List String :=
  match r.result with
  | .ok tree => tree.imports
  | .error _ => []

end Reading

/-- The sources that a session can draw on: which paths lead to a file, and what a parser gives
for it. Of several readings that fit, the last one counts. -/
structure Library where
  isFile : String → Bool := fun _ => false
  readings : List Reading := []

namespace Library

def sourceName (config : Config) (package : String) : String :=
  package ++ "." ++ config.sourceExtension

def candidates (config : Config) (package : String) : List String :=
  config.includePath.map fun dir => FileTree.join dir (sourceName config package)

def locate (lib : Library) (config : Config) (package : String) : Except Error String :=
  match (candidates config package).find? lib.isFile with
  | some path => .ok path
  | none => .error (.packageNotFound package (candidates config package))

def parse (lib : Library) (package path : String) : Except Error Package :=
  match lib.readings.reverse.find? (·.fits package path) with
  | none => .error (.unparsed package "no tree registered")
  | some r => r.result

def imports (lib : Library) : List String := lib.readings.flatMap Reading.imports

end Library

end Bluespec
