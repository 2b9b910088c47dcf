import Bluespec.Term

namespace Bluespec

inductive Build where
  | int (n : Int)
  | app (head : String) (args : List Nat)
deriving DecidableEq, Repr

namespace Build

def args : Build → List Nat
  | int _ => []
  | app _ args => args

def pairs? : Build → Build → Option (List (Nat × Nat))
  | int m, int n => if m = n then some [] else none
  | app f as, app g bs => if f = g ∧ as.length = bs.length then some (as.zip bs) else none
  | int _, app .. | app .., int _ => none

end Build

/-- Terms as nodes, and which of them are equal. A class is numbered by one of its nodes. Terms
that are equal share a class and are never written out, so their size as trees does not matter. -/
structure Classes where
  /-- The class of every node. -/
  owner : Array Nat := #[]
  /-- What the nodes of every class are built by, as far as it is known. -/
  builds : Array (Option Build) := #[]
  constants : List ((String × Carrier) × Nat) := []

namespace Classes

def size (c : Classes) : Nat := c.owner.size

def classOf (c : Classes) (n : Nat) : Nat := c.owner.getD n n

def build? (c : Classes) (n : Nat) : Option Build := c.builds.getD (c.classOf n) none

def builtBy (c : Classes) (n : Nat) (head : String) : Bool :=
  match c.build? n with
  | some (.app f _) => f == head
  | _ => false

def push (c : Classes) (b : Option Build) : Nat × Classes :=
  (c.size, { c with owner := c.owner.push c.size, builds := c.builds.push b })

def pushUnknown (c : Classes) : Nat → List Nat × Classes
  | 0 => ([], c)
  | count + 1 =>
    let (n, c) := c.push none
    let (ns, c) := c.pushUnknown count
    (n :: ns, c)

mutual

def insert (c : Classes) : Term → Nat × Classes
  | .const x sort =>
    match c.constants.find? (·.1 = (x, sort)) with
    | some (_, n) => (n, c)
    | none =>
      let (n, c) := c.push none
      (n, { c with constants := ((x, sort), n) :: c.constants })
  | .int n => c.push (some (.int n))
  | .app head args =>
    let (ns, c) := c.insertAll args
    c.push (some (.app head ns))

def insertAll (c : Classes) : List Term → List Nat × Classes
  | [] => ([], c)
  | t :: ts =>
    let (n, c) := c.insert t
    let (ns, c) := c.insertAll ts
    (n :: ns, c)

end

def values (c : Classes) : List String :=
  c.builds.toList.filterMap fun
    | some (.app head []) => some head
    | _ => none

def give (c : Classes) (n : Nat) (b : Build) : Classes :=
  { c with builds := c.builds.setIfInBounds (c.classOf n) (some b) }

def unite (c : Classes) (a b : Nat) : Classes :=
  let i := c.classOf a
  let j := c.classOf b
  { c with
    owner := c.owner.map fun k => if k = j then i else k
    builds := c.builds.setIfInBounds i (c.build? a <|> c.build? b) }

/-- Make pairs of nodes equal, and with them the arguments that they are built from. Of the classes
of unknown build only those that are `free` can become equal to others. Every union leaves one
class less, so `unions` need not exceed the number of nodes. -/
def equateWithin (free : Nat → Bool) (unions : Nat) (pairs : List (Nat × Nat)) (c : Classes) :
    Option Classes :=
  match pairs with
  | [] => some c
  | (a, b) :: rest =>
    if c.classOf a = c.classOf b then equateWithin free unions rest c
    else
      match unions with
      | 0 => none
      | unions + 1 =>
        match c.build? a, c.build? b with
        | some s, some t =>
          match s.pairs? t with
          | none => none
          | some args => equateWithin free unions (args ++ rest) (c.unite a b)
        | s, t =>
          if (s.isSome || free (c.classOf a)) && (t.isSome || free (c.classOf b)) then
            equateWithin free unions rest (c.unite a b)
          else none
termination_by (unions, pairs.length)

def equate (c : Classes) (free : Nat → Bool) (pairs : List (Nat × Nat)) : Option Classes :=
  equateWithin free c.size pairs c

def same (c : Classes) (pair : Nat × Nat) : Bool := (c.equate (fun _ => false) [pair]).isSome

/-- Go through classes whose arguments are not yet known to be finite terms. It ends when a round
settles none of them. -/
def settle (c : Classes) (finite : Array Bool) (unsettled : List Nat) : Bool :=
  let (finite, left) := unsettled.foldl (fun (finite, left) k =>
    if ((c.build? k).elim [] Build.args).all fun a => finite.getD (c.classOf a) true then
      (finite.setIfInBounds k true, left)
    else (finite, k :: left)) (finite, [])
  if left.length < unsettled.length then c.settle finite left else left.isEmpty
termination_by unsettled.length

def acyclic (c : Classes) : Bool :=
  c.settle (.replicate c.size false) ((List.range c.size).filter fun n => c.classOf n = n)

end Classes

end Bluespec
