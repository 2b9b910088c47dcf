import Bluespec.Proofs.CoreEntries
import Bluespec.Proofs.Meaning
import Bluespec.Proofs.Trackers
import Mathlib.Data.List.Permutation

namespace Bluespec

namespace Checker

variable {c c₀ : Checker} {core : List String}

def assertion? (c : Checker) : Op → Option (String × Formula)
  | .constrain f stem node => some ((c.constrain f stem node).1, f)
  | _ => none

theorem assertions_perform {op : Op} (h : c.attempts op = false) :
    (c.perform op).assertions = c.assertions ++ (c.assertion? op).toList := by
  cases op with
  | analyze lib p =>
    rw [perform, analyze_of_not_attempts h]
    exact (List.append_nil _).symm
  | rebuild => cases h
  | resolve | fresh | record => exact (List.append_nil _).symm
  | constrain f stem node => rfl

/-- The solver is told the constraints since the last attempt to build the universe, and nothing
else. -/
theorem assertions_run (h₀ : c₀.clear = c₀) (ops : List Op) :
    (c₀.run ops).assertions = (c₀.recent ops).filterMap fun x => x.1.assertion? x.2 := by
  induction ops using List.reverseRecOn with
  | nil =>
    rw [← h₀]
    rfl
  | append_singleton ops op ih =>
    rw [run_concat, recent_concat]
    cases ha : (c₀.run ops).attempts op with
    | true =>
      obtain ⟨_, _, hp⟩ := perform_of_attempts ha
      rw [hp, if_pos rfl]
      rfl
    | false =>
      rw [assertions_perform ha, ih, if_neg Bool.false_ne_true, List.filterMap_append]
      rfl

theorem constrained_of_mem_assertions (h₀ : c₀.clear = c₀) {ops : List Op} {name : String}
    {f : Formula} (h : (name, f) ∈ (c₀.run ops).assertions) : ∃ d stem node,
      (d, .constrain f stem node) ∈ c₀.recent ops ∧ (c₀.run ops).tracker? name = some node := by
  rw [assertions_run h₀] at h
  obtain ⟨⟨d, op⟩, hmem, hop⟩ := List.mem_filterMap.1 h
  cases op with
  | constrain g stem node =>
    obtain ⟨rfl, rfl⟩ := Prod.mk.inj (Option.some.inj hop)
    exact ⟨d, stem, node, hmem, (tracker?_run h₀ ops _ node).2 ⟨d, g, stem, hmem, rfl⟩⟩
  | analyze | rebuild | resolve | fresh | record => cases hop

/-- The names are trackers of constraints that cannot hold together. -/
structure Refuted (c : Checker) (core : List String) : Prop where
  asserted : ∀ name ∈ core, name ∈ c.assertions.map Prod.fst
  unsatisfiable : ¬ c.univ.Satisfiable ((c.assertions.filter (·.1 ∈ core)).map Prod.snd)

def Op.constraintOn? (nodes : List (Option NodeKey)) : Op → Option Formula
  | .constrain f _ node => if some node.key ∈ nodes then some f else none
  | _ => none

theorem Refuted.exists_tracker (h₀ : c₀.clear = c₀) {ops : List Op}
    (h : (c₀.run ops).Refuted core) {name : String} (hname : name ∈ core) :
    ∃ node, (c₀.run ops).tracker? name = some node := by
  obtain ⟨⟨_, f⟩, hmem, rfl⟩ := List.mem_map.1 (h.asserted name hname)
  obtain ⟨_, _, node, _, hnode⟩ := constrained_of_mem_assertions h₀ hmem
  exact ⟨node, hnode⟩

theorem Refuted.unsatisfiable_on (h₀ : c₀.clear = c₀) {ops : List Op}
    (h : (c₀.run ops).Refuted core) {nodes : List (Option NodeKey)}
    (hnodes : ∀ name ∈ core, ∀ node, (c₀.run ops).tracker? name = some node →
      some node.key ∈ nodes) :
    ¬ (c₀.run ops).univ.Satisfiable
      ((c₀.recent ops).filterMap fun x => x.2.constraintOn? nodes) := by
  intro hsat
  apply h.unsatisfiable
  apply hsat.mono
  intro f hf
  obtain ⟨⟨name, _⟩, hentry, rfl⟩ := List.mem_map.1 hf
  obtain ⟨hmem, hcore⟩ := List.mem_filter.1 hentry
  obtain ⟨d, stem, node, hop, hnode⟩ := constrained_of_mem_assertions h₀ hmem
  have hkey := hnodes name (of_decide_eq_true hcore) node hnode
  exact List.mem_filterMap.2 ⟨_, hop, if_pos hkey⟩

/-- A report of a contradiction can be trusted as far as the core of the solver can. No entry of
the core is lost, no node is named twice, each diagnostic shows the node that its tracker was
given to, and the constraints on the nodes that are shown contradict each other. -/
theorem unsat_report_faithful {s : Session} (h : start s = .ok c₀) (ops : List Op)
    (outcome : Solver.Outcome)
    (hcore : ∀ core, outcome = .unsat core → (c₀.run ops).Refuted core)
    (hunsat : ((c₀.run ops).reportOf outcome).verdict = .unsat) :
    let c := c₀.run ops
    let found := (c.reportOf outcome).diagnostics
    ∃ core, outcome = .unsat core ∧
    (∀ name ∈ core, ∃ node, c.tracker? name = some node ∧ some node.key ∈ found.map (·.node)) ∧
    (core ≠ [] → found ≠ []) ∧
    (found.map (·.node)).Nodup ∧
    (∀ d ∈ found, ∃ name node, d.tracker = some name ∧ name ∈ core ∧
      c.tracker? name = some node ∧ d.node = some node.key ∧ d.location = node.location ∧
      d.span = node.span) ∧
    ¬ c.univ.Satisfiable
      ((c₀.recent ops).filterMap fun x => x.2.constraintOn? (found.map (·.node))) := by
  intro c found
  have hclear : c₀.clear = c₀ := clear_start h
  cases outcome with
  | sat | unknown => cases hunsat
  | unsat core =>
    have hrefuted : c.Refuted core := hcore core rfl
    have hshown : ∀ name ∈ core, ∀ node, c.tracker? name = some node →
        some node.key ∈ found.map (·.node) := fun name hname node hnode =>
      Report.diagnosed_of_mem hname hnode List.not_mem_nil
    have hlisted : ∀ name ∈ core, ∃ node, c.tracker? name = some node ∧
        some node.key ∈ found.map (·.node) := by
      intro name hname
      obtain ⟨node, hnode⟩ := hrefuted.exists_tracker hclear hname
      exact ⟨node, hnode, hshown name hname node hnode⟩
    refine ⟨core, rfl, hlisted, ?_, Report.nodup_diagnose c.trackers [] core, ?_,
      hrefuted.unsatisfiable_on hclear hshown⟩
    · intro hne hempty
      obtain ⟨name, hname⟩ := List.exists_mem_of_ne_nil core hne
      obtain ⟨node, _, hmem⟩ := hlisted name hname
      simp [hempty] at hmem
    · intro d hd
      obtain ⟨name, node, hname, hnode, _, rfl⟩ := Report.eq_ofNode_of_mem_diagnose hd
      exact ⟨name, node, rfl, hname, hnode, rfl, rfl, rfl⟩

/-- Two of the three constraints are on one node, and the other node has the same id in another
source. The constraint before the universe was rebuilt plays no part. -/
theorem unsat_report_faithful_rebuilt :
    let c₀ : Checker := { session := .start .here, univ := .of Universe.builtins }
    let left : Node := ⟨0, "L.bsv", 3, 0, ⟨7, 2⟩, "x"⟩
    let right : Node := ⟨0, "R.bsv", 5, 0, ⟨9, 1⟩, "y"⟩
    let ops := [Op.constrain (.truth false) "old" left, .rebuild,
      .constrain (.atom (.eq (.const "x" .type) (.const "y" .type))) "eq" left,
      .constrain (.atom (.eq (.const "x" .type) (.app "Bool" []))) "use" right,
      .constrain (.atom (.eq (.const "y" .type) (.app "String" []))) "use" left]
    let c := c₀.run ops
    start (.start .here) = .ok c₀ ∧ c.check = .unsat ["eq-1", "use-2", "use-3"] ∧
    c.Refuted ["eq-1", "use-2", "use-3"] ∧ c.report.verdict = .unsat ∧
    c.report.diagnostics.map (·.node) = [some left.key, some right.key] ∧
    (c.report.diagnostics.map (·.node)).Nodup ∧
    ¬ c.univ.Satisfiable ((c₀.recent ops).filterMap fun x =>
      x.2.constraintOn? (c.report.diagnostics.map (·.node))) := by
  intro c₀ left right ops c
  have hstart : start (.start .here) = .ok c₀ := rfl
  -- the solver recurses along measures, which `decide` does not unfold
  have hcheck : c.check = .unsat ["eq-1", "use-2", "use-3"] := by cbv
  have hrefuted : c.Refuted ["eq-1", "use-2", "use-3"] := by
    refine ⟨by decide, ?_⟩
    have hformulas : (c.assertions.filter (·.1 ∈ ["eq-1", "use-2", "use-3"])).map Prod.snd =
        [.atom (.eq (.const "x" .type) (.const "y" .type)),
          .atom (.eq (.const "x" .type) (.app "Bool" [])),
          .atom (.eq (.const "y" .type) (.app "String" []))] := by
      rw [List.filter_eq_self.mpr (by decide +kernel)]
      rfl
    rintro ⟨σ, _, hall⟩
    simp only [hformulas, List.forall_mem_cons] at hall
    have hxy : σ "x" .type = σ "y" .type := hall.1
    have hx : σ "x" .type = .app "Bool" [] := hall.2.1
    have hy : σ "y" .type = .app "String" [] := hall.2.2.1
    rw [hxy, hy] at hx
    exact absurd hx (by decide)
  have hreport : c.report = .ofCore ["eq-1", "use-2", "use-3"] c.trackers := by
    rw [report, hcheck]
    rfl
  have hverdict : c.report.verdict = .unsat := by rw [hreport]; rfl
  obtain ⟨_, _, _, _, hnodup, _, hunsat⟩ := unsat_report_faithful hstart ops c.check
    (fun core hcore => Solver.Outcome.unsat.inj (hcheck.symm.trans hcore) ▸ hrefuted) hverdict
  refine ⟨hstart, hcheck, hrefuted, hverdict, ?_, hnodup, hunsat⟩
  rw [hreport]
  decide

end Checker

end Bluespec
