namespace Bluespec

inductive Carrier where
  | type
  | number
deriving DecidableEq, Repr

/-- Terms of the solver: constants that stand for something unknown, integers, and constructors
applied to arguments. -/
inductive Term where
  | const (name : String) (sort : Carrier)
  | int (n : Int)
  | app (head : String) (args : List Term)
deriving Repr, Inhabited

structure Constructor where
  name : String
  fields : List Carrier
deriving DecidableEq, Repr

/-- A predicate on types, defined as the tester of a variant: it holds of what this variant
builds. -/
structure Recognizer where
  name : String
  tests : Constructor
deriving DecidableEq, Repr

inductive Atom where
  | eq (a b : Term)
  | is (r : Recognizer) (t : Term)
deriving Repr

inductive Formula where
  | truth (b : Bool)
  | atom (a : Atom)
  | or (f g : Formula)
  | not (f : Formula)
deriving Repr, Inhabited

namespace Term

def carrier : Term → Carrier
  | const _ sort => sort
  | int _ => .number
  | app .. => .type

mutual

def decEq : (s t : Term) → Decidable (s = t)
  | const x c, const y d =>
    if h : x = y ∧ c = d then .isTrue (by rw [h.1, h.2])
    else .isFalse fun e => h (by injection e with hx hc; exact ⟨hx, hc⟩)
  | int m, int n =>
    if h : m = n then .isTrue (by rw [h]) else .isFalse fun e => h (by injection e)
  | app f as, app g bs =>
    match decEqAll as bs with
    | .isTrue hs =>
      if h : f = g then .isTrue (by rw [h, hs]) else .isFalse fun e => h (by injection e)
    | .isFalse hs => .isFalse fun e => hs (by injection e)
  | const .., int _ | const .., app .. | int _, const .. | int _, app .. | app .., const ..
  | app .., int _ => .isFalse nofun

def decEqAll : (ss ts : List Term) → Decidable (ss = ts)
  | [], [] => .isTrue rfl
  | [], _ :: _ => .isFalse nofun
  | _ :: _, [] => .isFalse nofun
  | s :: ss, t :: ts =>
    match decEq s t, decEqAll ss ts with
    | .isTrue h, .isTrue hs => .isTrue (by rw [h, hs])
    | .isFalse h, _ => .isFalse fun e => h (by injection e)
    | _, .isFalse hs => .isFalse fun e => hs (by injection e)

end

instance : DecidableEq Term := decEq

mutual

def isGround : Term → Bool
  | const .. => false
  | int _ => true
  | app _ args => areGround args

def areGround : List Term → Bool
  | [] => true
  | t :: ts => t.isGround && areGround ts

end

end Term

deriving instance DecidableEq for Atom

namespace Formula

def weight : Formula → Nat
  | or f g => f.weight + g.weight + 1
  | not f => f.weight + 1
  | _ => 1

def and (f g : Formula) : Formula := not (or (not f) (not g))

def anyOf (first : Formula) (rest : List Formula) : Formula := rest.foldl or first

mutual

def equation : Term → Term → Formula
  | .int m, .int n => truth (m == n)
  | .app f as, .app g bs =>
    if f = g ∧ as.length = bs.length then equations as bs else truth false
  | .int _, .app .. | .app .., .int _ => truth false
  | a, b => if a = b then truth true else atom (.eq a b)

def equations : List Term → List Term → Formula
  | [], _ | _, [] => truth true
  | [a], [b] => equation a b
  | a :: as, b :: bs => and (equation a b) (equations as bs)

end

/-- A formula with the same meaning, in which equations are taken apart and recognizers of terms
without constants are settled. -/
def simplify : Formula → Formula
  | truth b => truth b
  | atom (.eq a b) => equation a b
  | atom (.is r (.app f args)) =>
    if Term.areGround args then truth (f == r.tests.name) else atom (.is r (.app f args))
  | atom a => atom a
  | or f g => or f.simplify g.simplify
  | not f => not f.simplify

def value (known : Atom → Option Bool) : Formula → Option Bool
  | truth b => some b
  | atom a => known a
  | not f => (f.value known).map (!·)
  | or f g =>
    match f.value known, g.value known with
    | some true, _ | _, some true => some true
    | some false, some false => some false
    | _, _ => none

end Formula

end Bluespec
