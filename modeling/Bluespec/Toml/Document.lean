import Bluespec.Toml.Value

namespace Bluespec.Toml

open Reader

inductive Statement where
  | header (key : List String)
  | arrayHeader (key : List String)
  | assignment (key : List String) (v : Value)

structure Document where
  current : List String := []
  root : Entries := []

namespace Entries

/-- Walk down as a header does, into the last of several tables, and change what is at the end. -/
def walk (change : Option Value → Option Value) : List String → Entries → Option Entries
  | [], _ => none
  | [key], es => do return es.put key (← change (es.lookup key))
  | key :: rest, es =>
    match es.lookup key with
    | none => do return es.put key (.table .passage (← walk change rest []))
    | some (.table origin inner) => do
      if origin = .braces then failure
      return es.put key (.table origin (← walk change rest inner))
    | some (.tables elements) => do
      return es.put key (.tables (← updateLast (walk change rest) elements))
    | some _ => none

/-- A header may name a table that so far was only on the way to others. -/
def openTable : Option Value → Option Value
  | none => some (.table .header [])
  | some (.table .passage inner) => some (.table .header inner)
  | some _ => none

def openElement : Option Value → Option Value
  | none => some (.tables [[]])
  | some (.tables elements) => some (.tables (elements ++ [[]]))
  | some _ => none

def assignWithin (key : List String) (v : Value) : Option Value → Option Value
  | some (.table origin inner) => do return .table origin (← assign v key inner)
  | some (.tables elements) => do return .tables (← updateLast (assign v key) elements)
  | _ => none

end Entries

namespace Document

def perform (d : Document) : Statement → Option Document
  | .header key => do return ⟨key, ← Entries.walk Entries.openTable key d.root⟩
  | .arrayHeader key => do return ⟨key, ← Entries.walk Entries.openElement key d.root⟩
  | .assignment key v => do
    if d.current.isEmpty then return { d with root := ← Entries.assign v key d.root }
    else return { d with root := ← Entries.walk (Entries.assignWithin key v) d.current d.root }

end Document

def tableHeader : Reader Statement :=
  (do word "[["; let key ← dottedKey; word "]]"; return .arrayHeader key) <|>
    (do char '['; let key ← dottedKey; char ']'; return .header key)

def assignmentLine : Reader Statement := do
  let (key, v) ← assignment (value depthLimit)
  return .assignment key v

def line : Reader (Option Statement) := do
  match ← peek with
  | none => failure
  | some '#' => comment; lineEnd; return none
  | some '\n' | some '\r' => newline; return none
  | some '[' => let s ← tableHeader; lineRest; return some s
  | some _ => let s ← assignmentLine; lineRest; return some s

def statements : Reader (List Statement) := do
  let _ ← optional (char '\uFEFF')
  blanks
  let lines ← many (do let s ← line; blanks; return s)
  endOfText
  return lines.reduceOption

def read? (text : String) : Option Entries := do
  let (statements, _) ← statements text.toList
  let document ← statements.foldlM Document.perform {}
  return document.root

end Bluespec.Toml
