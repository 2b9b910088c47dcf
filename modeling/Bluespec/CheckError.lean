import Bluespec.Error

namespace Bluespec

inductive CheckError where
  | resolution (e : Error)
  | emptyDisjunction
  | unknownConstructor (name : String)
  | arityMismatch (name : String) (expected found : Nat)
  | duplicateConstructor (name : String)
  | notBoolean (expr : String)
  /-- A type stands where a number is due, or a number where a type is due. -/
  | illSorted (name : String)
deriving DecidableEq, Repr, Inhabited

namespace CheckError

def message : CheckError → String
  | resolution e => e.message
  | emptyDisjunction => "cannot build a disjunction of zero expressions"
  | unknownConstructor name => "unknown type constructor '" ++ name ++ "'"
  | arityMismatch name expected found =>
    "constructor '" ++ name ++ "' takes " ++ toString expected ++ " argument(s), got " ++
      toString found
  | duplicateConstructor name => "type '" ++ name ++ "' appears more than once in the type universe"
  | notBoolean expr => "expression '" ++ expr ++ "' is not boolean"
  | illSorted name => "'" ++ name ++ "' is applied to an argument of the wrong sort"

def code : CheckError → String
  | resolution e => e.code
  | emptyDisjunction => "bsv::verify::empty_disjunction"
  | unknownConstructor _ => "bsv::verify::unknown_constructor"
  | arityMismatch .. => "bsv::verify::arity"
  | duplicateConstructor _ => "bsv::verify::duplicate_constructor"
  | notBoolean _ => "bsv::verify::not_boolean"
  | illSorted _ => "bsv::verify::sort"

end CheckError

end Bluespec
