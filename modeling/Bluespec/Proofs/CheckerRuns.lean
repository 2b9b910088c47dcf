import Bluespec.Checker
import Bluespec.Proofs.Runs

namespace Bluespec.Checker

inductive Op where
  | analyze (lib : Library) (package : String)
  | rebuild
  | resolve (op : Session.Op)
  | fresh (stem : String)
  | record (node : Node) (term : Term)
  | constrain (formula : Formula) (stem : String) (node : Node)

def perform (c : Checker) : Op → Checker
  | .analyze lib package => (c.analyze lib package).2
  | .rebuild => c.rebuild.2
  | .resolve op => { c with session := c.session.perform op }
  | .fresh stem => (c.fresh stem).2
  | .record node term => c.record node term
  | .constrain formula stem node => (c.constrain formula stem node).2

def run (c : Checker) (ops : List Op) : Checker := ops.foldl perform c

/-- The checkers that any operations lead to, from any session in which checking can start. -/
def Reachable (c : Checker) : Prop :=
  ∃ s c₀ ops, s.Reachable ∧ start s = .ok c₀ ∧ c = c₀.run ops

theorem Reachable.induction {P : Checker → Prop}
    (hstart : ∀ s c, s.Reachable → start s = .ok c → P c)
    (hstep : ∀ c op, P c → P (c.perform op)) {c : Checker} (hc : c.Reachable) : P c := by
  obtain ⟨s, c₀, ops, hs, h, rfl⟩ := hc
  suffices hrun : ∀ d, P d → P (d.run ops) from hrun _ (hstart s c₀ hs h)
  induction ops with
  | nil => exact fun d hd => hd
  | cons op ops ih => exact fun d hd => ih _ (hstep d op hd)

theorem start_eq_ok {s : Session} {c : Checker} (h : start s = .ok c) :
    ∃ univ, Universe.build s.arena s.symbols.types = .ok univ ∧ c = { session := s, univ } := by
  rw [start] at h
  cases hb : Universe.build s.arena s.symbols.types with
  | error e => rw [hb] at h; cases h
  | ok u =>
    rw [hb] at h
    exact ⟨u, rfl, (Except.ok.inj h).symm⟩

end Bluespec.Checker
