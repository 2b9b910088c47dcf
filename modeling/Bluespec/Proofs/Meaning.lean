import Bluespec.Universe

namespace Bluespec

namespace Term

mutual

def assign (σ : String → Carrier → Term) : Term → Term
  | const x sort => σ x sort
  | int n => int n
  | app head args => app head (assignAll σ args)

def assignAll (σ : String → Carrier → Term) : List Term → List Term
  | [] => []
  | t :: ts => t.assign σ :: assignAll σ ts

end

end Term

def Atom.Holds (u : Universe) (σ : String → Carrier → Term) : Atom → Prop
  | eq a b => a.assign σ = b.assign σ
  | is r t => ∃ head args, t.assign σ = .app head args ∧ u.find? head = some r.tests

def Formula.Holds (u : Universe) (σ : String → Carrier → Term) : Formula → Prop
  | truth b => b = true
  | atom a => a.Holds u σ
  | or f g => f.Holds u σ ∨ g.Holds u σ
  | not f => ¬ f.Holds u σ

namespace Universe

/-- The terms without constants that the constructors build, and the integers that these take. -/
inductive Value (u : Universe) : Term → Prop
  | int (n : Int) : Value u (.int n)
  | app {head : String} {args : List Term} {c : Constructor} (hc : u.find? head = some c)
      (hfields : args.map (·.carrier) = c.fields) (hargs : ∀ a ∈ args, Value u a) :
    Value u (.app head args)

def Assigns (u : Universe) (σ : String → Carrier → Term) : Prop :=
  ∀ x sort, u.Value (σ x sort) ∧ (σ x sort).carrier = sort

def Satisfiable (u : Universe) (fs : List Formula) : Prop :=
  ∃ σ, u.Assigns σ ∧ ∀ f ∈ fs, f.Holds u σ

theorem Satisfiable.mono {u : Universe} {fs gs : List Formula} (h : u.Satisfiable gs)
    (hsub : fs ⊆ gs) : u.Satisfiable fs := by
  obtain ⟨σ, hσ, hall⟩ := h
  exact ⟨σ, hσ, fun f hf => hall f (hsub hf)⟩

end Universe

end Bluespec
