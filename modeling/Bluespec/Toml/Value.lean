import Bluespec.Toml.Moment
import Bluespec.Toml.Number

namespace Bluespec.Toml

open Reader

inductive Origin where
  /-- A header of its own, or the document itself. -/
  | header
  /-- The header of a table inside it. -/
  | passage
  /-- A dotted key. -/
  | dotted
  /-- Braces, which close it for good. -/
  | braces
deriving DecidableEq, Repr

inductive Value where
  | string (s : String)
  | integer (i : Int)
  | decimal (d : Decimal)
  | boolean (b : Bool)
  | moment (m : Moment)
  | array (elements : List Value)
  | table (origin : Origin) (entries : List (String × Value))
  /-- The tables that headers in double brackets add to. -/
  | tables (elements : List (List (String × Value)))

abbrev Entries := List (String × Value)

namespace Entries

def put (key : String) (v : Value) : Entries → Entries
  | [] => [(key, v)]
  | e :: rest => if e.1 = key then (key, v) :: rest else e :: put key v rest

def updateLast (f : Entries → Option Entries) : List Entries → Option (List Entries)
  | [] => none
  | [es] => do return [← f es]
  | es :: rest => do return es :: (← updateLast f rest)

/-- Give a dotted key its value. Tables on the way are made if need be. A table that has a header
or braces of its own takes no dotted keys, and no key is given a value twice. -/
def assign (v : Value) : List String → Entries → Option Entries
  | [], _ => none
  | [key], es =>
    match es.lookup key with
    | some _ => none
    | none => some (es.put key v)
  | key :: next :: rest, es =>
    match es.lookup key with
    | none => do return es.put key (.table .dotted (← assign v (next :: rest) []))
    | some (.table .dotted inner) => do
      return es.put key (.table .dotted (← assign v (next :: rest) inner))
    | some (.table .passage inner) => do
      if rest.isEmpty then failure
      return es.put key (.table .passage (← assign v (next :: rest) inner))
    | some (.tables elements) => do
      if rest.isEmpty then failure
      return es.put key (.tables (← updateLast (assign v (next :: rest)) elements))
    | some _ => none

def assignAll (assignments : List (List String × Value)) (es : Entries) : Option Entries :=
  assignments.foldlM (fun es (key, v) => assign v key es) es

end Entries

def depthLimit : Nat := 79

def boolean : Reader Bool := (do word "true"; return true) <|> (do word "false"; return false)

def scalar : Reader Value :=
  Value.string <$> string <|> Value.boolean <$> boolean <|> Value.moment <$> moment <|>
    Value.decimal <$> decimal <|> Value.integer <$> integer

def array (element : Reader Value) : Reader Value := do
  char '['
  let elements ← optional do
    let elements ← separated (do gap; let v ← element; gap; return v) (char ',')
    let _ ← optional (char ',')
    return elements
  gap
  char ']'
  return .array (elements.getD [])

def assignment (value : Reader Value) : Reader (List String × Value) := do
  let key ← dottedKey
  char '='
  blanks
  return (key, ← value)

def braced (value : Reader Value) : Reader Value := do
  char '\x7b'
  let assignments ← optional <|
    separated (do let a ← assignment value; blanks; return a) (char ',')
  blanks
  char '\x7d'
  let entries ← Entries.assignAll (assignments.getD []) []
  return .table .braces entries

def value : (depth : Nat) → Reader Value
  | 0 => scalar
  | depth + 1 => do
    match ← peek with
    | some '[' => array (value depth)
    | some '\x7b' => braced (value depth)
    | _ => scalar

end Bluespec.Toml
