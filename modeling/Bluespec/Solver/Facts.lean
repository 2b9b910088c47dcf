import Bluespec.Term.Classes
import Bluespec.Universe

namespace Bluespec

structure Literal where
  positive : Bool
  atom : Atom
deriving DecidableEq

def Literal.negate (l : Literal) : Literal := { l with positive := !l.positive }

structure Facts where
  classes : Classes := {}
  equal : List (Nat × Nat) := []
  apart : List (Nat × Nat) := []
  /-- Constructors that nodes are not built by. -/
  barred : List (Nat × String) := []

namespace Facts

/-- A term that is built by a constructor equals its application to something. -/
def add (u : Universe) (f : Facts) : Literal → Facts
  | ⟨true, .eq a b⟩ =>
    let (m, classes) := f.classes.insert a
    let (n, classes) := classes.insert b
    { f with classes, equal := (m, n) :: f.equal }
  | ⟨false, .eq a b⟩ =>
    let (m, classes) := f.classes.insert a
    let (n, classes) := classes.insert b
    { f with classes, apart := (m, n) :: f.apart }
  | ⟨true, .is r t⟩ =>
    let (m, classes) := f.classes.insert t
    let (args, classes) := classes.pushUnknown ((u.arity? r.tests.name).getD 0)
    let (n, classes) := classes.push (some (.app r.tests.name args))
    { f with classes, equal := (m, n) :: f.equal }
  | ⟨false, .is r t⟩ =>
    let (m, classes) := f.classes.insert t
    { f with classes, barred := (m, r.tests.name) :: f.barred }

def ofLiterals (u : Universe) (literals : List Literal) : Facts := literals.foldl (add u) {}

def close (f : Facts) : Option Facts := do
  let classes ← f.classes.equate (fun _ => true) f.equal
  guard classes.acyclic
  guard (f.barred.all fun (n, head) => !classes.builtBy n head)
  guard (f.apart.all fun pair => !classes.same pair)
  return { f with classes }

end Facts

end Bluespec
