import Bluespec.Config
import Bluespec.FileTree
import Bluespec.Toml.Document

namespace Bluespec

namespace Toml.Value

def string? : Value → Option String
  | string s => some s
  | _ => none

def boolean? : Value → Option Bool
  | boolean b => some b
  | _ => none

def natural? : Value → Option Nat
  | integer (.ofNat n) => some n
  | _ => none

def strings? : Value → Option (List String)
  | array elements => elements.mapM string?
  | _ => none

def isVoid : Value → Bool
  | table _ [] | array [] => true
  | _ => false

/-- A choice among names: the name itself, or a table with nothing under its one key. -/
def choice? : Value → Option String
  | string s => some s
  | table _ [(key, v)] => if v.isVoid then some key else none
  | _ => none

end Toml.Value

namespace Policy

def ofName? : String → Option Policy
  | "permissive" => some .permissive
  | "strict" => some .strict
  | _ => none

def name : Policy → String
  | permissive => "permissive"
  | strict => "strict"

end Policy

namespace Config

/-- A key that is absent keeps its default; one with a value of another type is refused. -/
def field {α : Type} (es : Toml.Entries) (key : String) (decode : Toml.Value → Option α)
    (default : α) : Option α :=
  match es.lookup key with
  | none => some default
  | some v => decode v

/-- Keys that are not of a configuration are ignored. -/
def ofEntries? (es : Toml.Entries) : Option Config := do
  let c : Config := {}
  return {
    includePath := ← field es "include_path" Toml.Value.strings? c.includePath
    sourceExtension := ← field es "source_extension" Toml.Value.string? c.sourceExtension
    importPolicy := ← field es "import_policy" (·.choice?.bind Policy.ofName?) c.importPolicy
    synthesizeFunctions :=
      ← field es "synthesize_function_constructors" Toml.Value.boolean? c.synthesizeFunctions
    functionArityLimit :=
      ← field es "function_arity_limit" Toml.Value.natural? c.functionArityLimit }

def ofText (text : String) : Except Error Config :=
  match Toml.read? text >>= ofEntries? with
  | none => .error (.configuration "failed to parse config")
  | some c => do
    c.validate
    return c

def ofFile (files : FileTree) (path : String) : Except Error Config :=
  match files.read path with
  | .error e => .error (.configuration ("failed to read " ++ path ++ ": " ++ e.message))
  | .ok text => ofText text

end Config

end Bluespec
