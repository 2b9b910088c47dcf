import Bluespec.Solver.Facts

namespace Bluespec

structure Choice where
  left : Formula
  right : Formula
  reasons : List Nat

namespace Choice

def weight (c : Choice) : Nat := c.left.weight + c.right.weight + 1

def weightAll : List Choice → Nat
  | [] => 0
  | c :: cs => c.weight + weightAll cs

theorem weightAll_append (cs ds : List Choice) :
    weightAll (cs ++ ds) = weightAll cs + weightAll ds := by
  induction cs with
  | nil => simp [weightAll]
  | cons c cs ih => simp [weightAll, ih, Nat.add_assoc]

theorem weightAll_filter_le (p : Choice → Bool) (cs : List Choice) :
    weightAll (cs.filter p) ≤ weightAll cs := by
  induction cs with
  | nil => simp
  | cons c cs ih =>
    rw [List.filter_cons]
    split <;> simp only [weightAll] <;> omega

def extract (p : Choice → Bool) : List Choice → Option (Choice × List Choice)
  | [] => none
  | c :: cs =>
    if p c then some (c, cs)
    else do
      let (d, rest) ← extract p cs
      return (d, c :: rest)

theorem weightAll_of_extract {p : Choice → Bool} {cs rest : List Choice} {c : Choice}
    (h : extract p cs = some (c, rest)) : weightAll cs = c.weight + weightAll rest := by
  induction cs generalizing c rest with
  | nil => simp [extract] at h
  | cons d cs ih =>
    rw [extract] at h
    split at h
    · cases h
      rfl
    · obtain ⟨⟨e, rest'⟩, he, h⟩ := Option.bind_eq_some_iff.mp h
      cases h
      simp only [weightAll, ih he]
      omega

end Choice

/-- A way to make formulas hold, as far as it is laid out: the literals on it, each with the
choices that it rests on, and the disjunctions that no side is chosen of. -/
structure Branch where
  literals : List (Literal × List Nat) := []
  choices : List Choice := []

namespace Branch

def weight (b : Branch) : Nat := Choice.weightAll b.choices

def require (positive : Bool) (reasons : List Nat) (b : Branch) :
    Formula → Except (List Nat) Branch
  | .truth value => if value = positive then .ok b else .error reasons
  | .atom a => .ok { b with literals := (⟨positive, a⟩, reasons) :: b.literals }
  | .not f => require (!positive) reasons b f
  | .or f g =>
    if positive then .ok { b with choices := b.choices ++ [⟨f, g, reasons⟩] }
    else
      match require false reasons b f with
      | .error why => .error why
      | .ok b => require false reasons b g

theorem weight_require_le {positive : Bool} {reasons : List Nat} {b c : Branch} {f : Formula}
    (h : b.require positive reasons f = .ok c) : c.weight ≤ b.weight + f.weight := by
  induction f generalizing positive b c with
  | truth value =>
    rw [require] at h
    split at h <;> cases h
    omega
  | atom a =>
    cases h
    simp [weight]
  | not f ih =>
    have := ih h
    simp only [Formula.weight]
    omega
  | or f g ihf ihg =>
    rw [require] at h
    split at h
    · cases h
      simp [weight, Choice.weightAll_append, Choice.weightAll, Choice.weight, Formula.weight]
    · split at h
      · cases h
      · next hf =>
        have := ihf hf
        have := ihg h
        simp only [Formula.weight]
        omega

def known (b : Branch) (a : Atom) : Option Bool :=
  (b.literals.find? fun (l, _) => l.atom = a).map fun (l, _) => l.positive

/-- Take out the disjunction to look at next, and drop those that hold already. One with a side
that is known to fail comes first; if there is none, the first of all if `splits` allows it. -/
def next? (splits : Bool) (b : Branch) : Option (Choice × Branch) :=
  let unmet := b.choices.filter fun c => (Formula.or c.left c.right).value b.known ≠ some true
  let forced := Choice.extract (fun c =>
    c.left.value b.known = some false ∨ c.right.value b.known = some false) unmet
  match if splits && !forced.isSome then Choice.extract (fun _ => true) unmet else forced with
  | none => none
  | some (c, choices) => some (c, { b with choices })

theorem weight_of_next? {splits : Bool} {b rest : Branch} {c : Choice}
    (h : b.next? splits = some (c, rest)) :
    c.left.weight + c.right.weight + rest.weight < b.weight := by
  rw [next?] at h
  have hle := Choice.weightAll_filter_le
    (fun c => (Formula.or c.left c.right).value b.known ≠ some true) b.choices
  split at h
  · cases h
  · next hx =>
    cases h
    split at hx
    all_goals
      have := Choice.weightAll_of_extract hx
      simp only [weight, Choice.weight] at *
      omega

end Branch

end Bluespec
