import Bluespec.Proofs.Synonyms
import Bluespec.Proofs.Growth

namespace Bluespec.Session

variable {s : Session} {t u r target : TypeExpr} {name : String} {names : List String}

def valueNamed? (s : Session) (name : String) : Option Declaration :=
  (s.symbols.value? name).bind s.arena.get?

theorem synonym?_eq_some : s.synonym? name = some target ↔ ∃ d defined,
    s.valueNamed? name = some d ∧ d.kind = .synonym defined ∧ defined.params = [] ∧
      d.type = target := by
  rw [synonym?, valueNamed?]
  cases s.symbols.value? name with
  | none => simp
  | some id =>
    dsimp only [Option.bind]
    cases s.arena.get? id with
    | none => simp
    | some d =>
      dsimp only
      cases hk : d.kind with
      | synonym defined =>
        by_cases hp : defined.params = []
        · simp [hk, hp]
        · simp [hk, hp]
      | enum | struct | union | interface | method | module | function | value => simp [hk]

/-- Synonyms, by name, of which each stands for a type that the next one is the head of. -/
inductive Chain (s : Session) : TypeExpr → List String → TypeExpr → Prop
  | nil (t : TypeExpr) : Chain s t [] t
  | cons {t target r : TypeExpr} {names : List String} (ht : t.isLeaf = false)
      (h : s.synonym? t.name = some target) (hc : Chain s target names r) :
    Chain s t (t.name :: names) r

def Ends (s : Session) (t : TypeExpr) : Prop := t.isLeaf = true ∨ s.synonym? t.name = none

theorem Ends.synonym?_eq (hr : s.Ends r) (hleaf : r.isLeaf = false) : s.synonym? r.name = none :=
  hr.resolve_left (Bool.eq_false_iff.mp hleaf)

theorem chain_cases (s : Session) (steps : Nat) (t : TypeExpr) :
    (∃ names r, s.Chain t names r ∧ s.Ends r ∧ names.length < steps) ∨
    ∃ names r, s.Chain t names r ∧ names.length = steps := by
  induction steps generalizing t with
  | zero => exact .inr ⟨[], t, .nil t, rfl⟩
  | succ steps ih =>
    by_cases hend : s.Ends t
    · exact .inl ⟨[], t, .nil t, hend, Nat.succ_pos steps⟩
    · obtain ⟨hleaf, hnone⟩ := not_or.mp hend
      obtain ⟨target, htarget⟩ := Option.ne_none_iff_exists'.mp hnone
      have hlink {names r} (hc : s.Chain target names r) : s.Chain t (t.name :: names) r :=
        .cons (Bool.eq_false_iff.mpr hleaf) htarget hc
      obtain ⟨names, r, hc, hr, hlength⟩ | ⟨names, r, hc, hlength⟩ := ih target
      · exact .inl ⟨_, r, hlink hc, hr, Nat.succ_lt_succ hlength⟩
      · exact .inr ⟨_, r, hlink hc, congrArg Nat.succ hlength⟩

theorem Chain.followWithin_eq (h : s.Chain t names r) (steps : Nat) :
    s.followWithin (names.length + steps) t = s.followWithin steps r := by
  induction h with
  | nil t => rw [List.length_nil, Nat.zero_add]
  | cons ht hsyn _ ih =>
    rw [List.length_cons, Nat.add_right_comm, followWithin_succ, ht, hsyn]
    exact ih

theorem Chain.unique (h : s.Chain t names r) (hr : s.Ends r) {names' : List String}
    {r' : TypeExpr} (h' : s.Chain t names' r') (hr' : s.Ends r') : names = names' ∧ r = r' := by
  induction h generalizing names' with
  | nil t =>
    cases h' with
    | nil => exact ⟨rfl, rfl⟩
    | cons ht hsyn _ =>
      rw [hr.synonym?_eq ht] at hsyn
      cases hsyn
  | cons ht hsyn _ ih =>
    cases h' with
    | nil =>
      rw [hr'.synonym?_eq ht] at hsyn
      cases hsyn
    | cons _ hsyn' hc' =>
      rw [hsyn] at hsyn'
      obtain rfl := Option.some.inj hsyn'
      obtain ⟨rfl, rfl⟩ := ih hr hc'
      exact ⟨rfl, rfl⟩

theorem Chain.split (h : s.Chain t names r) (hname : name ∈ names) : ∃ before after target,
    names = before ++ name :: after ∧ s.synonym? name = some target ∧ s.Chain target after r := by
  induction h with
  | nil t => cases hname
  | @cons t target _ names ht hsyn hc ih =>
    by_cases heq : name = t.name
    · subst heq
      exact ⟨[], names, target, rfl, hsyn, hc⟩
    · obtain ⟨before, after, u, rfl, hu, hrest⟩ := ih ((List.mem_cons.mp hname).resolve_left heq)
      exact ⟨t.name :: before, after, u, rfl, hu, hrest⟩

/-- A chain that meets a synonym again goes round for ever. -/
theorem Chain.nodup_of_ends (h : s.Chain t names r) (hr : s.Ends r) : names.Nodup := by
  induction h with
  | nil => exact List.nodup_nil
  | @cons t target _ names _ hsyn hc ih =>
    refine List.nodup_cons.mpr ⟨fun hmem => ?_, ih hr⟩
    obtain ⟨before, after, target', hnames, hsyn', hc'⟩ := hc.split hmem
    obtain rfl : target = target' := Option.some.inj (hsyn.symm.trans hsyn')
    have hlength := congrArg List.length (hc.unique hr hc' hr).1
    simp only [hnames, List.length_append, List.length_cons] at hlength
    omega

theorem Chain.length_le_of_nodup (h : s.Chain t names r) (hnodup : names.Nodup) :
    names.length ≤ s.symbols.valueOf.size := by
  have hkeys : names ⊆ s.symbols.valueOf.keys := by
    intro name hname
    obtain ⟨_, _, _, _, hsyn, _⟩ := h.split hname
    obtain ⟨id, hentry, _⟩ := exists_entry hsyn
    exact List.mem_map_of_mem hentry
  have hlength := hnodup.length_le_of_subset hkeys
  rw [Table.keys, List.length_map] at hlength
  exact hlength

def endAt (s : Session) (t : TypeExpr) : Except Error TypeExpr :=
  if t.isLeaf then .ok t else s.stopAt t

theorem endAt_eq_error {e : Error} (h : s.endAt t = .error e) :
    (∃ name arity, e = .parametricSynonym name arity) ∨
      ∃ id, s.symbols.value? t.name = some id ∧ s.arena.get? id = none ∧
        e = .missingDeclaration id := by
  rw [endAt] at h
  split at h
  · cases h
  · exact stopAt_eq_error h

theorem Ends.followWithin_eq (hr : s.Ends r) (steps : Nat) :
    s.followWithin (steps + 1) r = s.endAt r := by
  rw [followWithin_succ, endAt]
  split
  · rfl
  · rename_i hleaf
    rw [hr.synonym?_eq (Bool.eq_false_iff.mpr hleaf)]

theorem Chain.followWithin_of_ends (h : s.Chain t names r) (hr : s.Ends r) {steps : Nat}
    (hsteps : names.length < steps) : s.followWithin steps t = s.endAt r := by
  obtain ⟨k, rfl⟩ : ∃ k, steps = names.length + (k + 1) := ⟨steps - names.length - 1, by omega⟩
  rw [h.followWithin_eq, hr.followWithin_eq]

theorem Chain.followSynonyms_eq (h : s.Chain t names r) (hr : s.Ends r) :
    s.followSynonyms t = s.endAt r :=
  h.followWithin_of_ends hr (Nat.lt_succ_of_le (h.length_le_of_nodup (h.nodup_of_ends hr)))

theorem followSynonyms_cases (s : Session) (t : TypeExpr) :
    (∃ names r, s.Chain t names r ∧ s.Ends r ∧ s.followSynonyms t = s.endAt r) ∨
    (∃ name, s.followSynonyms t = .error (.circularSynonym name)) ∧
      ∀ names r, s.Chain t names r → ¬ s.Ends r := by
  obtain ⟨names, r, hc, hr, _⟩ | ⟨names, r, hc, hlength⟩ :=
    chain_cases s (s.symbols.valueOf.size + 1) t
  · exact .inl ⟨names, r, hc, hr, hc.followSynonyms_eq hr⟩
  · have hout : s.followSynonyms t = .error (.circularSynonym r.name) := by
      rw [followSynonyms, ← hlength]
      exact hc.followWithin_eq 0
    by_cases hend : ∃ names r, s.Chain t names r ∧ s.Ends r
    · obtain ⟨names, r, hc, hr⟩ := hend
      exact .inl ⟨names, r, hc, hr, hc.followSynonyms_eq hr⟩
    · exact .inr ⟨⟨_, hout⟩, fun names r hc hr => hend ⟨names, r, hc, hr⟩⟩

def Normal (s : Session) (t : TypeExpr) : Prop :=
  t.isVar = true ∨ t.isNumeric = true ∨
    ∀ d, s.valueNamed? t.name = some d → d.kind.isSynonym = false

theorem normal_of_isLeaf (h : t.isLeaf = true) : s.Normal t := by
  obtain h | h : t.isVar = true ∨ t.isNumeric = true := by simpa [TypeExpr.isLeaf] using h
  · exact .inl h
  · exact .inr (.inl h)

theorem Normal.isSynonym_eq (h : s.Normal t) (hleaf : t.isLeaf = false) {d : Declaration}
    (hd : s.valueNamed? t.name = some d) : d.kind.isSynonym = false := by
  obtain ⟨hvar, hnumeric⟩ : t.isVar = false ∧ t.isNumeric = false := by
    simpa [TypeExpr.isLeaf] using hleaf
  simp only [Normal, hvar, hnumeric, Bool.false_eq_true, false_or] at h
  exact h d hd

theorem Normal.ends (h : s.Normal t) : s.Ends t := by
  by_cases hleaf : t.isLeaf = true
  · exact .inl hleaf
  · refine .inr (Option.eq_none_iff_forall_ne_some.mpr fun target htarget => ?_)
    obtain ⟨d, defined, hd, hk, _⟩ := synonym?_eq_some.mp htarget
    have hno := h.isSynonym_eq (Bool.eq_false_iff.mpr hleaf) hd
    simp [hk, Kind.isSynonym, Kind.defined?] at hno

def Parametric (s : Session) (t : TypeExpr) (arity : Nat) : Prop :=
  t.isLeaf = false ∧ ∃ d defined, s.valueNamed? t.name = some d ∧ d.kind = .synonym defined ∧
    defined.params ≠ [] ∧ defined.params.length = arity

theorem Parametric.ends {arity : Nat} (h : s.Parametric t arity) : s.Ends t := by
  obtain ⟨_, d, defined, hd, hk, hp, _⟩ := h
  refine .inr (Option.eq_none_iff_forall_ne_some.mpr fun target htarget => ?_)
  obtain ⟨d', defined', hd', hk', hp', _⟩ := synonym?_eq_some.mp htarget
  obtain rfl := Option.some.inj (hd.symm.trans hd')
  rw [hk] at hk'
  cases hk'
  exact hp hp'

theorem Normal.not_parametric {arity : Nat} (h : s.Normal t) : ¬ s.Parametric t arity := by
  rintro ⟨hleaf, d, defined, hd, hk, _⟩
  have hno := h.isSynonym_eq hleaf hd
  simp [hk, Kind.isSynonym, Kind.defined?] at hno

theorem endAt_cases (hv : s.symbols.ValuesNamed s.arena) (hr : s.Ends r) :
    (s.Normal r ∧ s.endAt r = .ok r) ∨
    ∃ arity, s.Parametric r arity ∧ s.endAt r = .error (.parametricSynonym r.name arity) := by
  by_cases hleaf : r.isLeaf = true
  · exact .inl ⟨normal_of_isLeaf hleaf, if_pos hleaf⟩
  · rw [endAt, if_neg hleaf, stopAt]
    cases hid : s.symbols.value? r.name with
    | none => exact .inl ⟨.inr (.inr (by simp [valueNamed?, hid])), rfl⟩
    | some id =>
      obtain ⟨d, hd, hname⟩ := hv r.name id hid
      have hvalue : s.valueNamed? r.name = some d := by rw [valueNamed?, hid]; exact hd
      simp only [Arena.get, hd]
      cases hk : d.kind with
      | synonym defined =>
        have hnone := hr.synonym?_eq (Bool.eq_false_iff.mpr hleaf)
        have hp : defined.params ≠ [] := by
          intro hp
          rw [synonym?_eq_some.mpr ⟨d, defined, hvalue, hk, hp, rfl⟩] at hnone
          cases hnone
        refine .inr ⟨_, ⟨Bool.eq_false_iff.mpr hleaf, d, defined, hvalue, hk, hp, rfl⟩, ?_⟩
        rw [hname]
        rfl
      | enum | struct | union | interface | method | module | function | value =>
        refine .inl ⟨.inr (.inr fun d' hd' => ?_), rfl⟩
        obtain rfl := Option.some.inj (hvalue.symm.trans hd')
        rw [hk]
        rfl

theorem Normal.endAt_eq (hv : s.symbols.ValuesNamed s.arena) (h : s.Normal r) :
    s.endAt r = .ok r := by
  obtain ⟨_, heq⟩ | ⟨_, hp, _⟩ := endAt_cases hv h.ends
  · exact heq
  · exact absurd hp h.not_parametric

theorem Parametric.endAt_eq (hv : s.symbols.ValuesNamed s.arena) {arity : Nat}
    (h : s.Parametric r arity) : s.endAt r = .error (.parametricSynonym r.name arity) := by
  obtain ⟨hn, _⟩ | ⟨_, ⟨_, d', defined', hd', hk', _, rfl⟩, heq⟩ := endAt_cases hv h.ends
  · exact absurd h hn.not_parametric
  · obtain ⟨_, d, defined, hd, hk, _, rfl⟩ := h
    obtain rfl := Option.some.inj (hd.symm.trans hd')
    obtain rfl := Kind.synonym.inj (hk.symm.trans hk')
    exact heq

theorem Chain.eq_or_last (h : s.Chain t names r) : names = [] ∧ r = t ∨
    ∃ before last, names = before ++ [last] ∧ s.synonym? last = some r := by
  induction h with
  | nil t => exact .inl ⟨rfl, rfl⟩
  | @cons t target _ names _ hsyn _ ih =>
    obtain ⟨rfl, rfl⟩ | ⟨before, last, rfl, hlast⟩ := ih
    · exact .inr ⟨[], t.name, rfl, hsyn⟩
    · exact .inr ⟨t.name :: before, last, rfl, hlast⟩

/-- Following a type ends in a normal type, or at a synonym with parameters, or not at all. -/
theorem followSynonyms_ends_or_circles (hv : s.symbols.ValuesNamed s.arena) (t : TypeExpr) :
    (∃ names r, s.Chain t names r ∧ s.Normal r ∧ s.followSynonyms t = .ok r) ∨
    (∃ names r arity, s.Chain t names r ∧ s.Parametric r arity ∧
      s.followSynonyms t = .error (.parametricSynonym r.name arity)) ∨
    (∃ name, s.followSynonyms t = .error (.circularSynonym name)) ∧
      ∀ names r, s.Chain t names r → ¬ s.Ends r := by
  obtain ⟨names, r, hc, hr, heq⟩ | hnever := followSynonyms_cases s t
  · rw [heq]
    obtain ⟨hn, hok⟩ | ⟨arity, hp, herr⟩ := endAt_cases hv hr
    · exact .inl ⟨names, r, hc, hn, hok⟩
    · exact .inr (.inl ⟨names, r, arity, hc, hp, herr⟩)
  · exact .inr (.inr hnever)

theorem followSynonyms_eq_ok (hv : s.symbols.ValuesNamed s.arena) :
    s.followSynonyms t = .ok r ↔ s.Normal r ∧ ∃ names, s.Chain t names r := by
  refine ⟨fun h => ?_, fun ⟨hn, _, hc⟩ => (hc.followSynonyms_eq hn.ends).trans (hn.endAt_eq hv)⟩
  obtain ⟨names, r', hc, hn, heq⟩ | ⟨_, _, _, _, _, heq⟩ | ⟨⟨_, heq⟩, _⟩ :=
    followSynonyms_ends_or_circles hv t
  · obtain rfl := Except.ok.inj (h.symm.trans heq)
    exact ⟨hn, names, hc⟩
  · cases h.symm.trans heq
  · cases h.symm.trans heq

theorem followSynonyms_eq_parametric (hv : s.symbols.ValuesNamed s.arena) {arity : Nat} :
    s.followSynonyms t = .error (.parametricSynonym name arity) ↔
      ∃ names r, s.Chain t names r ∧ s.Parametric r arity ∧ r.name = name := by
  refine ⟨fun h => ?_, fun ⟨_, _, hc, hp, hname⟩ =>
    hname ▸ (hc.followSynonyms_eq hp.ends).trans (hp.endAt_eq hv)⟩
  obtain ⟨_, _, _, _, heq⟩ | ⟨names, r, _, hc, hp, heq⟩ | ⟨⟨_, heq⟩, _⟩ :=
    followSynonyms_ends_or_circles hv t
  · cases h.symm.trans heq
  · obtain ⟨rfl, rfl⟩ := Error.parametricSynonym.inj (Except.error.inj (h.symm.trans heq))
    exact ⟨names, r, hc, hp, rfl⟩
  · cases h.symm.trans heq

/-- Following a type gives the normal type at the end of its chain of synonyms, which is the type
itself or what the last synonym stands for, and which is not followed any further. It fails at
the first synonym of the chain that is defined with parameters. Only a chain without end gives
neither. -/
theorem follow_to_normal_form (hs : s.Reachable) (t : TypeExpr) :
    (∀ r, s.followSynonyms t = .ok r ↔ s.Normal r ∧ ∃ names, s.Chain t names r) ∧
    (∀ r, s.followSynonyms t = .ok r → s.followSynonyms r = .ok r ∧
      (r = t ∨ ∃ before last, s.Chain t (before ++ [last]) r ∧ s.synonym? last = some r)) ∧
    (∀ name arity, s.followSynonyms t = .error (.parametricSynonym name arity) ↔
      ∃ names r, s.Chain t names r ∧ s.Parametric r arity ∧ r.name = name) ∧
    ∀ e, s.followSynonyms t = .error e → (∃ name arity, e = .parametricSynonym name arity) ∨
      (∃ name, e = .circularSynonym name) ∧ ∀ names r, s.Chain t names r → ¬ s.Ends r := by
  have hv := hs.valuesNamed
  refine ⟨fun r => followSynonyms_eq_ok hv, fun r h => ?_,
    fun name arity => followSynonyms_eq_parametric hv, fun e h => ?_⟩
  · obtain ⟨hn, names, hc⟩ := (followSynonyms_eq_ok hv).mp h
    refine ⟨(followSynonyms_eq_ok hv).mpr ⟨hn, [], .nil r⟩, ?_⟩
    obtain ⟨_, rfl⟩ | ⟨before, last, rfl, hlast⟩ := hc.eq_or_last
    · exact .inl rfl
    · exact .inr ⟨before, last, hc, hlast⟩
  · obtain ⟨_, _, _, _, heq⟩ | ⟨_, r, arity, _, _, heq⟩ | ⟨⟨name, heq⟩, hnever⟩ :=
      followSynonyms_ends_or_circles hv t
    · cases h.symm.trans heq
    · exact .inl ⟨r.name, arity, Except.error.inj (h.symm.trans heq)⟩
    · exact .inr ⟨⟨name, Except.error.inj (h.symm.trans heq)⟩, hnever⟩

/-- `Addr` stands for `Word` and this for `Bit#(32)`, `Cell` for a `Pair`, which has a parameter,
and `Same` for a variable that is called like a synonym. -/
def aliases : Session := (start .here).run [
  .declare (.synonym (.named "Word") (.sized "Bit" 32)),
  .declare (.synonym (.named "Addr") (.named "Word")),
  .declare (.synonym (.applied "Pair" [.var "t"]) (.applied "Tuple2" [.var "t", .var "t"])),
  .declare (.synonym (.named "Cell") (.applied "Pair" [.named "Addr"])),
  .declare (.synonym (.named "Same") (.var "Word"))]

theorem follow_to_normal_form_aliases :
    aliases.Reachable ∧
    (aliases.followSynonyms (.named "Addr") = .ok (.sized "Bit" 32) ∧
      aliases.Normal (.sized "Bit" 32) ∧
      aliases.Chain (.named "Addr") ["Addr", "Word"] (.sized "Bit" 32)) ∧
    (aliases.followSynonyms (.named "Same") = .ok (.var "Word") ∧
      aliases.followSynonyms (.var "Word") = .ok (.var "Word")) ∧
    aliases.followSynonyms (.named "Cell") = .error (.parametricSynonym "Pair" 1) ∧
    ∃ names r, aliases.Chain (.named "Cell") names r ∧ aliases.Parametric r 1 ∧
      r.name = "Pair" := by
  have hs : aliases.Reachable := ⟨.here, _, rfl⟩
  have haddr : aliases.followSynonyms (.named "Addr") = .ok (.sized "Bit" 32) := rfl
  have hsame : aliases.followSynonyms (.named "Same") = .ok (.var "Word") := rfl
  have hcell : aliases.followSynonyms (.named "Cell") = .error (.parametricSynonym "Pair" 1) := rfl
  have hword : aliases.Chain (.named "Word") ["Word"] (.sized "Bit" 32) := .cons rfl rfl (.nil _)
  obtain ⟨hok, _, _, _⟩ := follow_to_normal_form hs (.named "Addr")
  obtain ⟨_, hagain, _, _⟩ := follow_to_normal_form hs (.named "Same")
  obtain ⟨_, _, hfail, _⟩ := follow_to_normal_form hs (.named "Cell")
  exact ⟨hs, ⟨haddr, ((hok _).mp haddr).1, .cons rfl rfl hword⟩, ⟨hsame, (hagain _ hsame).1⟩,
    hcell, (hfail _ _).mp hcell⟩

end Bluespec.Session
