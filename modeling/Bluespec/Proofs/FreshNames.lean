import Bluespec.Proofs.Constraints
import Mathlib.Data.List.DropRight

namespace Bluespec

namespace NameSupply

variable {m n names : NameSupply} {name stem stem' : String}

theorem dash_not_mem_repr (k : Nat) : '-' ∉ k.repr.toList := by
  intro h
  rw [Nat.toList_repr] at h
  exact absurd (Nat.isDigit_of_mem_toDigits (by decide) (by decide) h) (by decide)

theorem toList_next (names : NameSupply) (stem : String) :
    (names.next stem).1.toList = stem.toList ++ '-' :: names.issued.repr.toList := by
  have h : (names.next stem).1 = stem ++ "-" ++ names.issued.repr := rfl
  rw [h, String.toList_append, String.toList_append, List.append_assoc]
  rfl

/-- The number can be read back: it stands after the last dash, whatever the stem is. -/
theorem number_next (names : NameSupply) (stem : String) :
    (names.next stem).1.toList.rtakeWhile (· ≠ '-') = names.issued.repr.toList := by
  have hdigits : ∀ c ∈ names.issued.repr.toList.reverse, decide (c ≠ '-') = true := by
    intro c hc
    have hmem : c ∈ names.issued.repr.toList := List.mem_reverse.1 hc
    exact decide_eq_true fun h => dash_not_mem_repr _ (h ▸ hmem)
  rw [toList_next, List.rtakeWhile, List.reverse_append, List.reverse_cons, List.append_assoc,
    List.takeWhile_append_of_pos hdigits]
  simp

theorem eq_of_next (h : (m.next stem).1 = (n.next stem').1) : m = n := by
  have hnumber : m.issued.repr.toList = n.issued.repr.toList := by
    rw [← number_next m stem, h, number_next]
  cases m
  cases n
  exact congrArg mk (Numeral.eq_of_write (String.toList_inj.1 hnumber))

def Issued (names : NameSupply) (name : String) : Prop :=
  ∃ (earlier : NameSupply) (stem : String),
    earlier.issued < names.issued ∧ name = (earlier.next stem).1

theorem issued_next (names : NameSupply) (stem : String) :
    (names.next stem).2.Issued (names.next stem).1 :=
  ⟨names, stem, Nat.lt_succ_self _, rfl⟩

theorem Issued.mono (h : m.Issued name) (hle : m.issued ≤ n.issued) : n.Issued name := by
  obtain ⟨earlier, stem, hlt, rfl⟩ := h
  exact ⟨earlier, stem, Nat.lt_of_lt_of_le hlt hle, rfl⟩

theorem not_issued_next (names : NameSupply) (stem : String) :
    ¬ names.Issued (names.next stem).1 := by
  rintro ⟨earlier, stem', hlt, h⟩
  exact Nat.lt_irrefl _ (eq_of_next h ▸ hlt)

def nextAll (names : NameSupply) : List String → List String × NameSupply
  | [] => ([], names)
  | stem :: rest =>
    let (name, later) := names.next stem
    let (more, last) := later.nextAll rest
    (name :: more, last)

theorem nextAll_cons (names : NameSupply) (stem : String) (rest : List String) :
    names.nextAll (stem :: rest) = ((names.next stem).1 :: ((names.next stem).2.nextAll rest).1,
      ((names.next stem).2.nextAll rest).2) := rfl

theorem length_nextAll (names : NameSupply) (stems : List String) :
    (names.nextAll stems).1.length = stems.length := by
  induction stems generalizing names with
  | nil => rfl
  | cons stem rest ih => exact congrArg (· + 1) (ih (names.next stem).2)

theorem issued_nextAll (names : NameSupply) (stems : List String) :
    (names.nextAll stems).2.issued = names.issued + stems.length := by
  induction stems generalizing names with
  | nil => rfl
  | cons stem rest ih =>
    have hrest : (names.nextAll (stem :: rest)).2.issued = names.issued + 1 + rest.length :=
      ih (names.next stem).2
    rw [hrest, List.length_cons]
    omega

theorem not_issued_of_mem_nextAll {stems : List String} (h : name ∈ (names.nextAll stems).1) :
    ¬ names.Issued name := by
  induction stems generalizing names with
  | nil => cases h
  | cons stem rest ih =>
    rcases List.mem_cons.1 h with rfl | hlater
    · exact names.not_issued_next stem
    · exact fun hissued => ih hlater (hissued.mono (Nat.le_succ _))

theorem nodup_nextAll (names : NameSupply) (stems : List String) :
    (names.nextAll stems).1.Nodup := by
  induction stems generalizing names with
  | nil => exact List.nodup_nil
  | cons stem rest ih =>
    refine List.nodup_cons.2 ⟨fun hmem => ?_, ih (names.next stem).2⟩
    exact not_issued_of_mem_nextAll hmem (names.issued_next stem)

end NameSupply

namespace Checker

variable {c d : Checker} {op : Op} {name : String}

def handsOut (c : Checker) : Op → Option String
  | .fresh stem => some (c.fresh stem).1
  | .constrain f stem node => some (c.constrain f stem node).1
  | _ => none

def history (c : Checker) : List Op → List (Checker × Op)
  | [] => []
  | op :: ops => (c, op) :: (c.perform op).history ops

theorem history_concat (c : Checker) (ops : List Op) (op : Op) :
    c.history (ops ++ [op]) = c.history ops ++ [(c.run ops, op)] := by
  induction ops generalizing c with
  | nil => rfl
  | cons first ops ih => exact congrArg ((c, first) :: ·) (ih (c.perform first))

/-- The supply outlives the constraints: only names that are handed out move it on. -/
theorem names_perform (c : Checker) (op : Op) : (c.perform op).names.issued =
    c.names.issued + if (c.handsOut op).isSome then 1 else 0 := by
  cases h : c.attempts op with
  | true =>
    obtain ⟨_, _, hp⟩ := perform_of_attempts h
    have hnone : c.handsOut op = none := by
      cases op with
      | analyze | rebuild => rfl
      | resolve | fresh | record | constrain => cases h
    rw [hp, hnone]
    rfl
  | false =>
    cases op with
    | analyze lib p =>
      rw [perform, analyze_of_not_attempts h]
      rfl
    | rebuild => cases h
    | resolve | fresh | record | constrain => rfl

theorem issued_perform (h : c.handsOut op = some name) : (c.perform op).names.Issued name := by
  cases op with
  | fresh stem =>
    obtain rfl := Option.some.inj h
    exact c.names.issued_next stem
  | constrain f stem node =>
    obtain rfl := Option.some.inj h
    exact c.names.issued_next stem
  | analyze | rebuild | resolve | record => cases h

theorem issued_le_perform (c : Checker) (op : Op) :
    c.names.issued ≤ (c.perform op).names.issued :=
  names_perform c op ▸ Nat.le_add_right _ _

theorem issued_run (h : c.names.Issued name) (ops : List Op) :
    (c.run ops).names.Issued name := by
  induction ops generalizing c with
  | nil => exact h
  | cons op ops ih => exact ih (h.mono (issued_le_perform c op))

theorem issued_of_history {ops : List Op} (hd : (d, op) ∈ c.history ops)
    (h : d.handsOut op = some name) : (c.run ops).names.Issued name := by
  induction ops generalizing c with
  | nil => cases hd
  | cons first ops ih =>
    rcases List.mem_cons.1 hd with hfirst | hrest
    · obtain ⟨rfl, rfl⟩ := Prod.mk.inj hfirst
      exact issued_run (issued_perform h) ops
    · exact ih hrest

inductive Request where
  | op (op : Op)
  | constant (stem : String) (sort : Carrier)

def Request.stem? : Request → Option String
  | .op (.fresh stem) | .op (.constrain _ stem _) | .constant stem _ => some stem
  | _ => none

def serve (c : Checker) : Request → Checker
  | .op op => c.perform op
  | .constant stem sort => (c.freshConstant stem sort).2

def named? (c : Checker) : Request → Option String
  | .op op => c.handsOut op
  | .constant stem sort =>
    match (c.freshConstant stem sort).1 with
    | .const name _ => some name
    | _ => none

def named (c : Checker) : List Request → List String
  | [] => []
  | request :: rest => (c.named? request).toList ++ (c.serve request).named rest

theorem named?_eq (c : Checker) (request : Request) :
    c.named? request = request.stem?.map fun stem => (c.names.next stem).1 := by
  cases request with
  | op op => cases op <;> rfl
  | constant stem sort => rfl

theorem names_serve (c : Checker) (request : Request) : (c.serve request).names =
    (request.stem?.map fun stem => (c.names.next stem).2).getD c.names := by
  cases request with
  | op op =>
    have hissued := names_perform c op
    cases op <;> exact congrArg NameSupply.mk hissued
  | constant stem sort => rfl

/-- A checker names things as its supply does, whatever else it is asked for in between. -/
theorem named_eq_nextAll (c : Checker) (requests : List Request) :
    (c.named requests, (requests.foldl serve c).names) =
      c.names.nextAll (requests.filterMap Request.stem?) := by
  induction requests generalizing c with
  | nil => rfl
  | cons request rest ih =>
    have hrest := ih (c.serve request)
    rw [names_serve] at hrest
    rw [named, List.foldl_cons, named?_eq]
    cases h : request.stem? with
    | none =>
      rw [h] at hrest
      rw [List.filterMap_cons_none h]
      exact hrest
    | some stem =>
      rw [h] at hrest
      rw [List.filterMap_cons_some h, NameSupply.nextAll_cons]
      exact hrest ▸ rfl

/-- No name is given out twice, whatever the stems are. A checker gives out one name for each
request that asks for one, and whatever happens to its universe in between, no two of them are the
same. The counter is the number of names, so that 64 bits hold it for fewer than 2 ^ 64 of them. -/
theorem names_never_repeat :
    (∀ (names : NameSupply) (stems : List String),
      (names.nextAll stems).1.Nodup ∧ (names.nextAll stems).1.length = stems.length ∧
      (names.nextAll stems).2.issued = names.issued + stems.length) ∧
    ∀ (c : Checker) (requests : List Request),
      (c.named requests).Nodup ∧
      (c.named requests).length = (requests.filterMap Request.stem?).length ∧
      (requests.foldl serve c).names.issued = c.names.issued + (c.named requests).length := by
  refine ⟨fun names stems =>
    ⟨names.nodup_nextAll stems, names.length_nextAll stems, names.issued_nextAll stems⟩,
    fun c requests => ?_⟩
  have hserved := named_eq_nextAll c requests
  have hnamed : c.named requests = _ := congrArg Prod.fst hserved
  have hnames : (requests.foldl serve c).names = _ := congrArg Prod.snd hserved
  rw [hnames, hnamed, NameSupply.length_nextAll]
  exact ⟨NameSupply.nodup_nextAll _ _, rfl, NameSupply.issued_nextAll _ _⟩

end Checker

end Bluespec
