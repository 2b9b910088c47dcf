import Bluespec.Source
import Bluespec.Table

namespace Bluespec

inductive Verdict where
  | unsat
  | sat
  | unknown
deriving DecidableEq, Repr

namespace Verdict

def label : Verdict → String
  | unsat => "unsat"
  | sat => "sat"
  | unknown => "unknown"

def all : List Verdict := [unsat, sat, unknown]

end Verdict

/-- A message about one place. The tracker is the one that put the node into the core. -/
structure Diagnostic where
  message : String
  location : String
  span : Span
  tracker : Option String
  node : Option NodeKey
deriving DecidableEq, Repr

namespace Diagnostic

def code : String := "bsv::typecheck"

def render (d : Diagnostic) : String := d.location ++ ": " ++ d.message

def conflictMessage (text : String) : String :=
  if text.isEmpty then "conflicting type constraint"
  else "conflicting type constraint on `" ++ text ++ "`"

def ofNode (tracker : String) (node : Node) : Diagnostic :=
  { message := conflictMessage node.text
    location := node.location
    span := node.span
    tracker := some tracker
    node := some node.key }

end Diagnostic

structure Report where
  verdict : Verdict
  diagnostics : List Diagnostic
deriving DecidableEq, Repr

namespace Report

def sat : Report := ⟨.sat, []⟩

def inconclusive : Option String → String
  | some reason => "type check inconclusive: solver returned unknown (" ++ reason ++ ")"
  | none => "type check inconclusive: solver returned unknown"

/-- Giving up is reported as such, so that it is never taken for success. -/
def unknown (reason : Option String) : Report :=
  ⟨.unknown, [⟨inconclusive reason, "<session>", ⟨0, 0⟩, none, none⟩]⟩

def diagnose (trackers : Table Node) : (seen : List NodeKey) → List String → List Diagnostic
  | _, [] => []
  | seen, name :: rest =>
    match trackers.get? name with
    | none => diagnose trackers seen rest
    | some node =>
      if node.key ∈ seen then diagnose trackers seen rest
      else .ofNode name node :: diagnose trackers (node.key :: seen) rest

/-- The nodes that an unsatisfiable core names. Entries without a node are skipped. -/
def ofCore (core : List String) (trackers : Table Node) : Report :=
  ⟨.unsat, diagnose trackers [] core⟩

def isOk (r : Report) : Bool := r.verdict == .sat

def locations (r : Report) : List String := r.diagnostics.map (·.location)

end Report

end Bluespec
