import Bluespec.Report

namespace Bluespec.Report

def keyOf? (trackers : Table Node) (name : String) : Option NodeKey :=
  (trackers.get? name).map (·.key)

variable {trackers : Table Node} {seen : List NodeKey} {core : List String} {name : String}
  {node : Node} {d : Diagnostic}

@[simp]
theorem node_ofNode (name : String) (node : Node) :
    (Diagnostic.ofNode name node).node = some node.key := rfl

theorem keyOf?_of_get? (h : trackers.get? name = some node) :
    keyOf? trackers name = some node.key := by
  rw [keyOf?, h]
  rfl

theorem keyOf?_untracked (h : trackers.get? name = none) : keyOf? trackers name = none := by
  rw [keyOf?, h]
  rfl

theorem diagnose_untracked (h : trackers.get? name = none) (seen : List NodeKey)
    (rest : List String) : diagnose trackers seen (name :: rest) = diagnose trackers seen rest := by
  simp [diagnose, h]

theorem diagnose_seen (h : trackers.get? name = some node) (hseen : node.key ∈ seen)
    (rest : List String) : diagnose trackers seen (name :: rest) = diagnose trackers seen rest := by
  simp [diagnose, h, hseen]

theorem diagnose_new (h : trackers.get? name = some node) (hnew : node.key ∉ seen)
    (rest : List String) : diagnose trackers seen (name :: rest) =
      .ofNode name node :: diagnose trackers (node.key :: seen) rest := by
  simp [diagnose, h, hnew]

theorem nodes_diagnose (trackers : Table Node) (seen : List NodeKey) (core : List String) :
    (diagnose trackers seen core).map (·.node) =
      ((core.filterMap (keyOf? trackers)).filter (· ∉ seen)).eraseDups.map some := by
  fun_induction diagnose trackers seen core with
  | case1 seen => rfl
  | case2 seen name rest h ih =>
    rw [List.filterMap_cons_none (keyOf?_untracked h)]
    exact ih
  | case3 seen name rest node h hseen ih =>
    rw [List.filterMap_cons_some (keyOf?_of_get? h), List.filter_cons_of_neg (by simpa using hseen)]
    exact ih
  | case4 seen name rest node h hnew ih =>
    rw [List.filterMap_cons_some (keyOf?_of_get? h), List.filter_cons_of_pos (by simpa using hnew),
      List.eraseDups_cons, List.map_cons, List.map_cons, ih, List.filter_filter]
    have hseen : ∀ key, (decide (key ∉ node.key :: seen)) =
        (!(key == node.key) && decide (key ∉ seen)) := by
      intro key
      by_cases hkey : key = node.key <;> simp [hkey]
    simp only [hseen]
    rfl

/-- A diagnostic tells of the first entry of the core that leads to its node. -/
theorem first_of_mem_diagnose (h : d ∈ diagnose trackers seen core) : ∃ name node,
    core.find? (fun entry => keyOf? trackers entry = d.node) = some name ∧
      trackers.get? name = some node ∧ node.key ∉ seen ∧ d = .ofNode name node := by
  fun_induction diagnose trackers seen core with
  | case1 seen => cases h
  | case2 seen first rest hfirst ih =>
    obtain ⟨name, node, hfind, hnode, hnew, rfl⟩ := ih h
    rw [List.find?_cons_of_neg (by simp [keyOf?_untracked hfirst])]
    exact ⟨name, node, hfind, hnode, hnew, rfl⟩
  | case3 seen first rest other hfirst hseen ih =>
    obtain ⟨name, node, hfind, hnode, hnew, rfl⟩ := ih h
    have hne : other.key ≠ node.key := ne_of_mem_of_not_mem hseen hnew
    rw [List.find?_cons_of_neg (by simpa [keyOf?_of_get? hfirst] using hne)]
    exact ⟨name, node, hfind, hnode, hnew, rfl⟩
  | case4 seen first rest other hfirst hnew ih =>
    rcases List.mem_cons.mp h with rfl | h
    · rw [List.find?_cons_of_pos (by simp [keyOf?_of_get? hfirst])]
      exact ⟨first, other, rfl, hfirst, hnew, rfl⟩
    · obtain ⟨name, node, hfind, hnode, hlater, rfl⟩ := ih h
      obtain ⟨hne, hold⟩ := List.ne_and_not_mem_of_not_mem_cons hlater
      rw [List.find?_cons_of_neg (by simpa [keyOf?_of_get? hfirst] using hne.symm)]
      exact ⟨name, node, hfind, hnode, hold, rfl⟩

theorem eq_ofNode_of_mem_diagnose (h : d ∈ diagnose trackers seen core) :
    ∃ name node, name ∈ core ∧ trackers.get? name = some node ∧ node.key ∉ seen ∧
      d = .ofNode name node := by
  obtain ⟨name, node, hfind, hrest⟩ := first_of_mem_diagnose h
  exact ⟨name, node, List.mem_of_find?_eq_some hfind, hrest⟩

theorem nodup_diagnose (trackers : Table Node) (seen : List NodeKey) (core : List String) :
    ((diagnose trackers seen core).map (·.node)).Nodup := by
  fun_induction diagnose trackers seen core with
  | case1 seen => exact List.nodup_nil
  | case2 seen first rest hfirst ih => exact ih
  | case3 seen first rest other hfirst hseen ih => exact ih
  | case4 seen first rest other hfirst hnew ih =>
    rw [List.map_cons, List.nodup_cons]
    refine ⟨?_, ih⟩
    intro hmem
    obtain ⟨d, hd, hkey⟩ := List.mem_map.1 hmem
    obtain ⟨name, node, _, _, hlater, rfl⟩ := eq_ofNode_of_mem_diagnose hd
    apply hlater
    have hsame : node.key = other.key := Option.some.inj hkey
    simp [hsame]

theorem diagnosed_of_mem (hname : name ∈ core) (hnode : trackers.get? name = some node)
    (hnew : node.key ∉ seen) : some node.key ∈ (diagnose trackers seen core).map (·.node) := by
  have hkey : node.key ∈ core.filterMap (keyOf? trackers) :=
    List.mem_filterMap.2 ⟨name, hname, keyOf?_of_get? hnode⟩
  rw [nodes_diagnose]
  apply List.mem_map_of_mem
  rw [List.mem_eraseDups]
  exact List.mem_filter.2 ⟨hkey, decide_eq_true hnew⟩

theorem diagnose_tracked (trackers : Table Node) (seen : List NodeKey) (core : List String) :
    diagnose trackers seen (core.filter trackers.contains) = diagnose trackers seen core := by
  fun_induction diagnose trackers seen core with
  | case1 seen => rfl
  | case2 seen name rest h ih =>
    rw [List.filter_cons_of_neg (by simp [Table.contains, h])]
    exact ih
  | case3 seen name rest node h hseen ih =>
    rw [List.filter_cons_of_pos (by simp [Table.contains, h]), diagnose_seen h hseen]
    exact ih
  | case4 seen name rest node h hnew ih =>
    rw [List.filter_cons_of_pos (by simp [Table.contains, h]), diagnose_new h hnew, ih]

/-- In which order the keys were met, and how often, does not matter. -/
theorem diagnose_congr {old : List NodeKey} (h : ∀ key, key ∈ seen ↔ key ∈ old)
    (core : List String) : diagnose trackers seen core = diagnose trackers old core := by
  induction core generalizing seen old with
  | nil => rfl
  | cons first rest ih =>
    have hcons : ∀ new key, key ∈ new :: seen ↔ key ∈ new :: old := by simp [h]
    simp only [diagnose, h, ih h, ih (hcons _)]

theorem diagnose_filter (trackers : Table Node) (old seen : List NodeKey) (core : List String) :
    diagnose trackers (old ++ seen) core =
      (diagnose trackers seen core).filter (·.node ∉ old.map some) := by
  fun_induction diagnose trackers seen core with
  | case1 seen => rfl
  | case2 seen name rest h ih =>
    rw [diagnose_untracked h]
    exact ih
  | case3 seen name rest node h hseen ih =>
    rw [diagnose_seen h (List.mem_append_right _ hseen)]
    exact ih
  | case4 seen name rest node h hnew ih =>
    by_cases hold : node.key ∈ old
    · rw [diagnose_seen h (List.mem_append_left _ hold),
        List.filter_cons_of_neg (by simpa using hold), ← ih]
      exact diagnose_congr (by grind) rest
    · rw [diagnose_new h (by simp [hold, hnew]),
        List.filter_cons_of_pos (by simpa using hold), ← ih]
      exact congrArg _ (diagnose_congr (by grind) rest)

theorem diagnose_append (trackers : Table Node) (seen : List NodeKey) (core more : List String) :
    diagnose trackers seen (core ++ more) = diagnose trackers seen core ++
      diagnose trackers (core.filterMap (keyOf? trackers) ++ seen) more := by
  fun_induction diagnose trackers seen core with
  | case1 seen => rfl
  | case2 seen name rest h ih =>
    rw [List.cons_append, diagnose_untracked h, List.filterMap_cons_none (keyOf?_untracked h)]
    exact ih
  | case3 seen name rest node h hseen ih =>
    rw [List.cons_append, diagnose_seen h hseen, List.filterMap_cons_some (keyOf?_of_get? h), ih]
    exact congrArg _ (diagnose_congr (by grind) more)
  | case4 seen name rest node h hnew ih =>
    have hmet : ∀ key, key ∈ rest.filterMap (keyOf? trackers) ++ node.key :: seen ↔
        key ∈ node.key :: rest.filterMap (keyOf? trackers) ++ seen := by grind
    rw [List.cons_append, diagnose_new h hnew, List.filterMap_cons_some (keyOf?_of_get? h), ih,
      diagnose_congr hmet]
    rfl

/-- A report goes through the keys that the entries of its core lead to, in the order of the core
and each of them once. What it tells of a node is taken from the first entry that leads to it, and
entries that lead nowhere leave no trace. A longer core adds the nodes that are new. -/
theorem ofCore_tells_first_entries (trackers : Table Node) (core : List String) :
    let report := ofCore core trackers
    let keys := core.filterMap (keyOf? trackers)
    report.verdict = .unsat ∧
    report.diagnostics.map (·.node) = keys.eraseDups.map some ∧
    (∀ d ∈ report.diagnostics, ∃ name node,
      core.find? (fun entry => keyOf? trackers entry = d.node) = some name ∧
      trackers.get? name = some node ∧ d.node = some node.key ∧ d.tracker = some name ∧
      d.location = node.location ∧ d.span = node.span ∧
      d.message = Diagnostic.conflictMessage node.text) ∧
    ofCore (core.filter trackers.contains) trackers = report ∧
    ∀ more, ofCore (core ++ more) trackers = ⟨.unsat, report.diagnostics ++
      (ofCore more trackers).diagnostics.filter (·.node ∉ keys.map some)⟩ := by
  intro report keys
  refine ⟨rfl, ?_, ?_, ?_, ?_⟩
  · have hall : keys.filter (· ∉ []) = keys := List.filter_eq_self.2 (by simp)
    rw [← hall]
    exact nodes_diagnose trackers [] core
  · intro d hd
    obtain ⟨name, node, hfind, hnode, _, rfl⟩ := first_of_mem_diagnose hd
    exact ⟨name, node, hfind, hnode, rfl, rfl, rfl, rfl, rfl⟩
  · exact congrArg (mk .unsat) (diagnose_tracked trackers [] core)
  · intro more
    rw [ofCore, diagnose_append, diagnose_filter]
    rfl

end Bluespec.Report
