import Bluespec.Solver.Branch
import Bluespec.Solver.Domain

namespace Bluespec

namespace Solver

def minimize {α : Type} (p : List α → Bool) (kept : List α) : List α → List α
  | [] => kept
  | a :: rest => if p (kept ++ rest) then minimize p kept rest else minimize p (kept ++ [a]) rest

structure Effort where
  /-- The form in which formulas are looked at. -/
  prepare : Formula → Formula
  /-- Whether literals are seen to contradict each other. -/
  clash : List Literal → Bool
  /-- Whether both sides of a disjunction are tried. -/
  splits : Bool

namespace Effort

def connectives : Effort where
  prepare := Formula.simplify
  clash literals := literals.any fun l => literals.contains l.negate
  splits := false

def closure (u : Universe) : Effort where
  prepare := Formula.simplify
  clash literals := !(Facts.ofLiterals u literals).close.isSome
  splits := false

def cases (u : Universe) : Effort where
  prepare f := u.narrow true f.simplify
  clash literals := !((Facts.ofLiterals u literals).close.any fun f => f.possible u)
  splits := true

def explain (e : Effort) (literals : List (Literal × List Nat)) : List Nat :=
  let (chosen, given) := literals.partition fun (_, reasons) => !reasons.isEmpty
  let clashing := minimize (fun ls => e.clash ((ls ++ given).map Prod.fst)) [] chosen
  (clashing.flatMap Prod.snd).eraseDups

/-- Look for a contradiction on a branch and return the choices it rests on. They are numbered by
`depth`. If the left side of a disjunction fails and its choice has no part in that, nor would the
right side help. -/
def refute (e : Effort) (depth : Nat) (b : Branch) : Option (List Nat) :=
  if e.clash (b.literals.map Prod.fst) then some (e.explain b.literals)
  else
    match h : b.next? e.splits with
    | none => none
    | some (c, rest) =>
      have := Branch.weight_of_next? h
      let left :=
        match hl : rest.require true (depth :: c.reasons) c.left with
        | .error why => some why
        | .ok b => e.refute (depth + 1) b
      match left with
      | none => none
      | some why =>
        if depth ∈ why then
          match hr : rest.require true (c.reasons ++ why.erase depth).eraseDups c.right with
          | .error why => some why
          | .ok b => e.refute (depth + 1) b
        else some why
termination_by b.weight
decreasing_by
  · have := Branch.weight_require_le hl
    omega
  · have := Branch.weight_require_le hr
    omega

def refutes (e : Effort) (formulas : List Formula) : Bool :=
  match formulas.foldlM (fun b f => Branch.require true [] b (e.prepare f)) {} with
  | .error _ => true
  | .ok b => (e.refute 0 b).isSome

end Effort

def satisfiable (u : Universe) (formulas : List Formula) : Bool :=
  !(Effort.cases u).refutes formulas

def decide? (u : Universe) (f : Formula) : Option Bool :=
  if !satisfiable u [f] then some false
  else if !satisfiable u [.not f] then some true
  else none

inductive Outcome where
  | sat
  | unsat (core : List String)
  | unknown (reason : Option String)
deriving DecidableEq, Repr

/-- A contradiction is looked for with growing effort. The core holds no assertion that the effort
which finds one could do without. -/
def check (u : Universe) (assertions : List (String × Formula)) : Outcome :=
  match [.connectives, .closure u, .cases u].find? fun e : Effort =>
      e.refutes (assertions.map Prod.snd) with
  | none => .sat
  | some e => .unsat ((minimize (fun as => e.refutes (as.map Prod.snd)) [] assertions).map Prod.fst)

end Solver

end Bluespec
