import Bluespec.Proofs.Symbols
import Mathlib.Data.List.Nodup

namespace Bluespec

namespace Visitor

variable {σ : Type}

def logged (v : Visitor σ) : Visitor (List (Callback × DeclId) × σ) :=
  fun callback id x => ((v callback id x.2).1, x.1 ++ [(callback, id)], (v callback id x.2).2)

variable (v : Visitor σ) (arena : Arena)

theorem visitKind_logged (id : DeclId) (x : List (Callback × DeclId) × σ) :
    ((v.logged.visitKind arena id x).1, (v.logged.visitKind arena id x).2.2) =
      v.visitKind arena id x.2 := by
  rw [visitKind, visitKind]
  cases arena.get id with
  | error e => rfl
  | ok d =>
    dsimp only
    cases d.kind.callback? with
    | none => rfl
    | some callback => rfl

theorem visitOne_logged (id : DeclId) (x : List (Callback × DeclId) × σ) :
    ((v.logged.visitOne arena id x).1, (v.logged.visitOne arena id x).2.2) =
      v.visitOne arena id x.2 := by
  rw [visitOne, visitOne, logged]
  cases v .declaration id x.2 with
  | mk r t =>
    cases r with
    | error e => rfl
    | ok _ => exact visitKind_logged v arena id _

theorem visitAll_logged (ids : List DeclId) (x : List (Callback × DeclId) × σ) :
    ((v.logged.visitAll arena ids x).1, (v.logged.visitAll arena ids x).2.2) =
      v.visitAll arena ids x.2 := by
  induction ids generalizing x with
  | nil => rfl
  | cons id rest ih =>
    have hone := visitOne_logged v arena id x
    rw [visitAll, visitAll, ← hone]
    cases v.logged.visitOne arena id x with
    | mk r t =>
      cases r with
      | error e => rfl
      | ok _ => exact ih t

theorem visitAll_logged_preserves {P : List (Callback × DeclId) × σ → Prop}
    (hP : ∀ callback id x, P x → P (v.logged callback id x).2) (ids : List DeclId)
    {x : List (Callback × DeclId) × σ} (hx : P x) : P (v.logged.visitAll arena ids x).2 := by
  refine visitAll_preserves (fun id x hx => ?_) ids hx
  have hgeneral := hP .declaration id x hx
  rw [visitOne]
  split
  · rename_i y hy
    rw [hy] at hgeneral
    rw [visitKind]
    split
    · exact hgeneral
    · split
      · exact hP _ id y hgeneral
      · exact hgeneral
  · rename_i e y hy
    rw [hy] at hgeneral
    exact hgeneral

end Visitor

namespace Symbols

def answers (s : Symbols) (calls : List Call) : Symbols :=
  calls.foldl (fun s c => (s.answer c).2) s

variable {id : DeclId} {s t : Symbols} {c : Call}

theorem answer_preserves {P : Symbols → Prop} (c : Call) (hs : P s)
    (hvalue : ∀ valueOf, P { s with valueOf })
    (hrecords : ∀ id t, c.records? = some id → id ∉ s.indexed →
      Records id c.type?.toList c.value?.toList s t → P t) : P (s.answer c).2 := by
  cases hc : c.records? with
  | none =>
    obtain ⟨valueOf, heq⟩ := answer_of_records?_none (s := s) hc
    rw [heq]
    exact hvalue valueOf
  | some id =>
    by_cases h : id ∈ s.indexed
    · rw [answer_of_indexed hc h]
      exact hs
    · exact hrecords id _ hc h (answer_records hc h)

/-- A list without the calls that are to index a declaration once more. -/
def firsts (seen : List DeclId) : List Call → List Call
  | [] => []
  | c :: rest =>
    match c.records? with
    | none => c :: firsts seen rest
    | some id => if id ∈ seen then firsts seen rest else c :: firsts (id :: seen) rest

theorem answers_append (s : Symbols) (before after : List Call) :
    s.answers (before ++ after) = (s.answers before).answers after :=
  List.foldl_append

/-- Calls for declarations that are indexed already might as well not have been made. -/
theorem answers_firsts (s : Symbols) (calls : List Call) :
    s.answers (firsts s.indexed calls) = s.answers calls := by
  induction calls generalizing s with
  | nil => rfl
  | cons c rest ih =>
    have hcons : s.answers (c :: rest) = (s.answer c).2.answers rest := rfl
    rw [hcons, firsts]
    split
    · rename_i hc
      obtain ⟨valueOf, heq⟩ := answer_of_records?_none (s := s) hc
      have hindexed : (s.answer c).2.indexed = s.indexed := by rw [heq]
      rw [← ih, hindexed]
      rfl
    · rename_i id hc
      split
      · rename_i h
        rw [answer_of_indexed hc h]
        exact ih s
      · rename_i h
        rw [← ih, (answer_records hc h).indexed]
        rfl

theorem answers_lists (s : Symbols) (calls : List Call) :
    (s.answers calls).types = s.types ++ (firsts s.indexed calls).filterMap Call.type? ∧
      (s.answers calls).values = s.values ++ (firsts s.indexed calls).filterMap Call.value? := by
  induction calls generalizing s with
  | nil => exact ⟨(List.append_nil _).symm, (List.append_nil _).symm⟩
  | cons c rest ih =>
    obtain ⟨htypes, hvalues⟩ := ih (s.answer c).2
    have hcons : s.answers (c :: rest) = (s.answer c).2.answers rest := rfl
    rw [hcons, htypes, hvalues, firsts]
    split
    · rename_i hc
      obtain ⟨valueOf, heq⟩ := answer_of_records?_none (s := s) hc
      have htype : c.type? = none :=
        Option.eq_none_iff_forall_not_mem.mpr fun id h => by
          rw [Call.records?_of_type? h] at hc; cases hc
      have hvalue : c.value? = none :=
        Option.eq_none_iff_forall_not_mem.mpr fun id h => by
          rw [Call.records?_of_value? h] at hc; cases hc
      simp [heq, htype, hvalue]
    · rename_i id hc
      split
      · rename_i h
        rw [answer_of_indexed hc h]
        exact ⟨rfl, rfl⟩
      · rename_i h
        have hrecords := answer_records hc h
        rw [hrecords.types, hrecords.values, hrecords.indexed]
        cases htype : c.type? <;> cases hvalue : c.value? <;> simp [htype, hvalue]

theorem indexed_answer (hc : c.records? = some id) : id ∈ (s.answer c).2.indexed := by
  by_cases h : id ∈ s.indexed
  · rw [answer_of_indexed hc h]
    exact h
  · rw [(answer_records hc h).indexed]
    exact List.mem_cons_self

theorem mem_indexed_answer (c : Call) (h : id ∈ s.indexed) : id ∈ (s.answer c).2.indexed := by
  apply answer_preserves (P := fun t => id ∈ t.indexed) c h (fun _ => h)
  intro key t _ _ hrecords
  rw [hrecords.indexed]
  exact List.mem_cons_of_mem _ h

theorem mem_indexed_answers (calls : List Call) (h : id ∈ s.indexed) :
    id ∈ (s.answers calls).indexed := by
  induction calls generalizing s with
  | nil => exact h
  | cons c rest ih => exact ih (mem_indexed_answer c h)

theorem indexed_of_mem {calls : List Call} (hmem : c ∈ calls) (hc : c.records? = some id) :
    id ∈ (s.answers calls).indexed := by
  obtain ⟨before, after, rfl⟩ := List.append_of_mem hmem
  rw [answers_append]
  exact mem_indexed_answers after (indexed_answer hc)

/-- No declaration is listed twice, in one list or in both, and what is listed is marked. -/
structure Listed (s : Symbols) : Prop where
  nodup : (s.types ++ s.values).Nodup
  marked : ∀ id ∈ s.types ++ s.values, id ∈ s.indexed

theorem listed_empty : Listed ∅ := ⟨List.nodup_nil, nofun⟩

theorem Call.lists_eq (hc : c.records? = some id) :
    c.type?.toList ++ c.value?.toList = [] ∨ c.type?.toList ++ c.value?.toList = [id] := by
  cases htype : c.type? with
  | some key =>
    have hkey := Call.records?_of_type? htype
    rw [hc] at hkey
    rw [Call.value?_of_type? htype, Option.some.inj hkey]
    exact .inr rfl
  | none =>
    cases hvalue : c.value? with
    | some key =>
      have hkey := Call.records?_of_value? hvalue
      rw [hc] at hkey
      rw [Option.some.inj hkey]
      exact .inr rfl
    | none => exact .inl rfl

theorem Listed.records {types values : List DeclId} (hs : s.Listed) (h : id ∉ s.indexed)
    (hlists : types ++ values = [] ∨ types ++ values = [id])
    (hrecords : Records id types values s t) : t.Listed := by
  -- Up to their order, the two lists are the new entries and the old lists.
  have hperm : (t.types ++ t.values).Perm ((types ++ values) ++ (s.types ++ s.values)) := by
    rw [hrecords.types, hrecords.values, List.perm_iff_count]
    intro key
    simp only [List.count_append]
    omega
  refine ⟨hperm.nodup_iff.mpr ?_, fun key hkey => ?_⟩
  · rcases hlists with hlists | hlists
    · rw [hlists]
      exact hs.nodup
    · rw [hlists]
      exact List.nodup_cons.mpr ⟨fun hmem => h (hs.marked id hmem), hs.nodup⟩
  · rw [hrecords.indexed]
    rcases List.mem_append.mp (hperm.mem_iff.mp hkey) with hkey | hkey
    · rcases hlists with hlists | hlists
      · rw [hlists] at hkey
        cases hkey
      · rw [hlists] at hkey
        exact List.mem_singleton.mp hkey ▸ List.mem_cons_self
    · exact List.mem_cons_of_mem _ (hs.marked key hkey)

theorem Listed.answer (hs : s.Listed) (c : Call) : (s.answer c).2.Listed := by
  apply answer_preserves c hs (fun _ => ⟨hs.nodup, hs.marked⟩)
  intro id t hc h hrecords
  exact hs.records h (Call.lists_eq hc) hrecords

theorem Listed.answers (hs : s.Listed) (calls : List Call) : (s.answers calls).Listed := by
  induction calls generalizing s with
  | nil => exact hs
  | cons c rest ih => exact ih (hs.answer c)

inductive Op where
  | call (c : Call)
  | index (arena : Arena) (scopes : Scopes) (scope : ScopeId)

def perform (s : Symbols) : Op → Symbols
  | .call c => (s.answer c).2
  | .index arena scopes scope => (s.indexScope arena scopes scope).2

def run (s : Symbols) (ops : List Op) : Symbols := ops.foldl perform s

def calls (s : Symbols) : Op → List Call
  | .call c => [c]
  | .index arena scopes scope =>
    (scopes.visit scope arena (visitor arena).logged ([], s)).2.1.map fun x => .visit arena x.1 x.2

def trace (s : Symbols) : List Op → List Call
  | [] => []
  | op :: rest => s.calls op ++ (s.perform op).trace rest

theorem visitAll_eq_answers (arena : Arena) (ids : List DeclId) (s : Symbols) :
    ((visitor arena).visitAll arena ids s).2 =
      s.answers (((visitor arena).logged.visitAll arena ids ([], s)).2.1.map
        fun x => .visit arena x.1 x.2) := by
  rw [← Visitor.visitAll_logged (visitor arena) arena ids ([], s)]
  -- After every call, the state is what the calls noted so far make of the first one.
  refine Visitor.visitAll_logged_preserves (P := fun x =>
    x.2 = s.answers (x.1.map fun y => .visit arena y.1 y.2)) _ _ ?_ _ rfl
  intro callback id x hx
  simp only [Visitor.logged, List.map_append, answers_append, ← hx]
  rfl

theorem perform_eq_answers (s : Symbols) (op : Op) : s.perform op = s.answers (s.calls op) := by
  cases op with
  | call c => rfl
  | index arena scopes scope =>
    rw [perform, calls, indexScope, Scopes.visit, Scopes.visit]
    cases scopes.get scope with
    | error e => rfl
    | ok source => exact visitAll_eq_answers arena source.history s

theorem run_eq_answers (s : Symbols) (ops : List Op) : s.run ops = s.answers (s.trace ops) := by
  induction ops generalizing s with
  | nil => rfl
  | cons op rest ih =>
    rw [trace, answers_append, ← perform_eq_answers]
    exact ih _

theorem run_append (s : Symbols) (ops more : List Op) :
    s.run (ops ++ more) = (s.run ops).run more :=
  List.foldl_append

theorem lists_prefix_run (s : Symbols) (ops : List Op) :
    s.types <+: (s.run ops).types ∧ s.values <+: (s.run ops).values := by
  obtain ⟨htypes, hvalues⟩ := answers_lists s (s.trace ops)
  rw [run_eq_answers, htypes, hvalues]
  exact ⟨List.prefix_append _ _, List.prefix_append _ _⟩

/-- Whatever operations the tables have seen, and whichever of them failed: what the tables hold
comes from the first call for each declaration, the two lists are free of repetitions and of common
entries, and they only grow at the end. -/
theorem run_keeps_first_calls (ops : List Op) :
    let calls := trace ∅ ops
    let s := run ∅ ops
    (s = answers ∅ calls ∧ s = answers ∅ (firsts [] calls)) ∧
    (s.types = (firsts [] calls).filterMap Call.type? ∧
      s.values = (firsts [] calls).filterMap Call.value?) ∧
    (s.types.Nodup ∧ s.values.Nodup ∧ s.types.Disjoint s.values) ∧
    (∀ more, s.types <+: (run ∅ (ops ++ more)).types ∧
      s.values <+: (run ∅ (ops ++ more)).values) ∧
    ∀ before call after id, calls = before ++ call :: after → call.records? = some id →
      (∃ earlier ∈ before, earlier.records? = some id) →
      (answers ∅ before).answer call = (.ok (), answers ∅ before) := by
  intro calls s
  have hrun : s = answers ∅ calls := run_eq_answers ∅ ops
  have hlisted : s.Listed := by
    rw [hrun]
    exact listed_empty.answers calls
  obtain ⟨htypes, hvalues, hdisjoint⟩ := List.nodup_append'.mp hlisted.nodup
  refine ⟨⟨hrun, ?_⟩, ?_, ⟨htypes, hvalues, hdisjoint⟩, ?_, ?_⟩
  · exact hrun.trans (answers_firsts ∅ calls).symm
  · rw [hrun]
    exact answers_lists ∅ calls
  · intro more
    rw [run_append]
    exact lists_prefix_run s more
  · rintro before call after id _ hcall ⟨earlier, hmem, hearlier⟩
    exact answer_of_indexed hcall (indexed_of_mem hmem hearlier)

def loose : Arena :=
  (Arena.addAll ∅ [.aggregate .struct "P" (.named "P") [],
    { name := "m", type := .named "m", binding := .method, kind := .method },
    { name := "f", type := .named "f", kind := .function }]).2

/-- All of them are bound in one scope. A visit of it stops at the method, and `f` is made a type
before it can become a value. -/
def mixture : List Op :=
  let scopes : Scopes := ⟨#[⟨"A", ∅, [⟨0⟩, ⟨1⟩, ⟨2⟩], none⟩]⟩
  [.index loose scopes ⟨0⟩, .call (.visit loose .module ⟨0⟩), .call (.addType "f" ⟨2⟩),
    .index loose scopes ⟨0⟩, .call (.visit loose .function ⟨2⟩)]

theorem run_keeps_first_calls_mixture :
    let visit : List Call := [.visit loose .declaration ⟨0⟩, .visit loose .struct ⟨0⟩,
      .visit loose .declaration ⟨1⟩, .visit loose .method ⟨1⟩]
    let before := visit ++ [.visit loose .module ⟨0⟩, .addType "f" ⟨2⟩] ++ visit
    trace ∅ mixture = before ++ [.visit loose .function ⟨2⟩] ∧
      (answers ∅ before).answer (.visit loose .function ⟨2⟩) = (.ok (), answers ∅ before) ∧
      (run ∅ mixture).types = [⟨0⟩, ⟨2⟩] ∧ (run ∅ mixture).values = [] := by
  intro visit before
  obtain ⟨_, _, _, _, hcall⟩ := run_keeps_first_calls mixture
  refine ⟨rfl, hcall before _ [] ⟨2⟩ rfl rfl ⟨.addType "f" ⟨2⟩, ?_, rfl⟩, by decide, by decide⟩
  simp [before]

end Symbols

end Bluespec
