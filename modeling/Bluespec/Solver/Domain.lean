import Bluespec.Solver.Facts

namespace Bluespec

def Formula.among? : Formula → Option (Term × List String)
  | atom (.is r t) => some (t, [r.tests.name])
  | atom (.eq t (.app head [])) => some (t, [head])
  | atom (.eq (.app head []) t) => some (t, [head])
  | or f g => do
    let (t, heads) ← f.among?
    let (s, others) ← g.among?
    guard (s = t)
    return (t, heads ++ others)
  | _ => none

namespace Universe

def only (u : Universe) (heads : List String) (t : Term) : Formula :=
  match u.recognizers.entries.filter fun (_, r) => r.tests.name ∉ heads with
  | [] => .truth true
  | (_, r) :: rest => .not (.anyOf (.atom (.is r t)) (rest.map fun (_, r) => .atom (.is r t)))

/-- A formula with the same meaning, in which no case distinction is left where it is only about
the constructor of one term. -/
def narrow (u : Universe) (positive : Bool) : Formula → Formula
  | .or f g =>
    match positive, (Formula.or f g).among? with
    | true, some (t, heads) => u.only heads t
    | _, _ => .or (u.narrow positive f) (u.narrow positive g)
  | .not f => .not (u.narrow (!positive) f)
  | f => f

end Universe

structure Domain where
  node : Nat
  values : List String
  /-- The pairs to be kept apart that are equal for certain values only. -/
  pairs : List (Nat × Nat)

namespace Domain

def prune (c : Classes) (d : Domain) : Domain :=
  { d with values := d.values.filter fun v =>
      let c := c.give d.node (.app v [])
      d.pairs.all fun pair => !c.same pair }

def smallest (d : Domain) : List Domain → Domain × List Domain
  | [] => (d, [])
  | e :: rest =>
    if e.values.length < d.values.length then
      let (least, rest) := smallest e rest
      (least, d :: rest)
    else
      let (least, rest) := smallest d rest
      (least, e :: rest)

theorem length_smallest (d : Domain) (ds : List Domain) :
    (smallest d ds).2.length = ds.length := by
  induction ds generalizing d with
  | nil => rfl
  | cons e rest ih => rw [smallest]; split <;> simp [ih]

/-- Values that are not taken and that the same domains have are interchangeable: one of them
stands for all. -/
def representatives (taken : List String) (others : List Domain) (values : List String) :
    List String :=
  values.eraseDupsBy fun v w =>
    !taken.contains v && !taken.contains w &&
      others.all fun d => d.values.contains v == d.values.contains w

def separable (c : Classes) (taken : List String) (domains : List Domain) : Bool :=
  match domains with
  | [] => true
  | d :: rest =>
    let least := smallest d rest
    (representatives taken least.2 least.1.values).any fun v =>
      let c := c.give least.1.node (.app v [])
      separable c (v :: taken) (least.2.map (prune c))
termination_by domains.length
decreasing_by simp [length_smallest]

end Domain

namespace Facts

def candidates (u : Universe) (f : Facts) (k : Nat) : List Constructor :=
  u.variants.filter fun c =>
    f.barred.all fun (n, head) => f.classes.classOf n != k || c.name != head

def finite (u : Universe) (f : Facts) : List (Nat × List String) :=
  (f.barred.map fun (n, _) => f.classes.classOf n).eraseDups.filterMap fun k =>
    let cs := f.candidates u k
    if (f.classes.build? k).isNone && cs.all (·.arity == 0) then some (k, cs.map (·.name))
    else none

/-- The domains of the classes that can make a pair equal. If a pair is equal only for certain
values of a class with infinitely many, these are avoided, and the pair is no concern. -/
def domains (f : Facts) (finite : List (Nat × List String)) : List Domain :=
  let free k := finite.any fun (j, _) => j == k
  let pairs := f.apart.filter fun pair => (f.classes.equate free [pair]).isSome
  finite.map fun (k, values) =>
    ⟨k, values, pairs.filter fun pair =>
      (f.classes.equate (fun j => free j && j != k) [pair]).isNone⟩

def possible (u : Universe) (f : Facts) : Bool :=
  let domains := (f.domains (f.finite u)).map (Domain.prune f.classes)
  domains.all (fun d => !d.values.isEmpty) &&
    Domain.separable f.classes f.classes.values (domains.filter fun d => !d.pairs.isEmpty)

end Facts

end Bluespec
