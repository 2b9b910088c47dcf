import Bluespec.Proofs.Universe

namespace Bluespec.Universe

variable {arena : Arena} {u : Universe} {types : List DeclId} {decls : List Declaration}
  {name : String}

/-- No declaration has a name that is known, or that a declaration before it has. -/
def Untaken (known : List String) (decls : List Declaration) : Prop :=
  ∀ before d after, decls = before ++ d :: after → d.name ∉ known ++ before.map (·.name)

theorem untaken_nil (known : List String) : Untaken known [] := by
  intro before d after h
  simp at h

theorem untaken_cons {known : List String} {d : Declaration} :
    Untaken known (d :: decls) ↔ d.name ∉ known ∧ Untaken (known ++ [d.name]) decls := by
  constructor
  · intro h
    refine ⟨by simpa using h [] d decls rfl, fun before d' after heq => ?_⟩
    have hlater := h (d :: before) d' after (by rw [heq]; rfl)
    simpa using hlater
  · rintro ⟨hfirst, hrest⟩ before d' after heq
    rcases List.cons_eq_append_iff.mp heq with ⟨rfl, hcons⟩ | ⟨before', rfl, hdecls⟩
    · obtain ⟨rfl, -⟩ := List.cons.inj hcons
      simpa using hfirst
    · simpa using hrest before' d' after hdecls

namespace Draft

theorem foldlM_add_eq (h : types.map arena.get? = decls.map some) (w : Draft) :
    types.foldlM (add arena) w = decls.foldlM extend w := by
  induction types generalizing decls w with
  | nil =>
    obtain rfl : decls = [] := List.map_eq_nil_iff.mp h.symm
    rfl
  | cons id rest ih =>
    cases decls with
    | nil => cases h
    | cons d decls =>
      obtain ⟨hd, hrest⟩ := List.cons.inj h
      have hadd : w.add arena id = w.extend d := by rw [add, Arena.get, hd]
      rw [List.foldlM_cons, List.foldlM_cons, hadd]
      cases w.extend d with
      | error e => rfl
      | ok v => exact ih hrest v

/-- Either no name is taken and each declaration gets its variant, or the first name that is taken
is reported. -/
theorem foldlM_extend_cases (cs : List Constructor) (decls : List Declaration) :
    (Untaken (cs.map (·.name)) decls ∧
      decls.foldlM extend (of cs) = .ok (of (cs ++ decls.map (·.constructor)))) ∨
    ∃ before d after, decls = before ++ d :: after ∧ Untaken (cs.map (·.name)) before ∧
      d.name ∈ cs.map (·.name) ++ before.map (·.name) ∧
      decls.foldlM extend (of cs) = .error (.duplicateConstructor d.name) := by
  induction decls generalizing cs with
  | nil => exact .inl ⟨untaken_nil _, by rw [List.map_nil, List.append_nil]; rfl⟩
  | cons d rest ih =>
    rw [List.foldlM_cons, extend_of]
    by_cases hd : d.name ∈ cs.map (·.name)
    · rw [if_pos hd]
      exact .inr ⟨[], d, rest, rfl, untaken_nil _, by simpa using hd, rfl⟩
    · have hnames : (cs ++ [d.constructor]).map (·.name) = cs.map (·.name) ++ [d.name] :=
        List.map_append
      rw [if_neg hd]
      rcases ih (cs ++ [d.constructor]) with
        ⟨hfree, hok⟩ | ⟨before, d', after, rfl, hfree, htaken, herr⟩
      · rw [hnames] at hfree
        refine .inl ⟨untaken_cons.mpr ⟨hd, hfree⟩, ?_⟩
        rw [List.append_assoc] at hok
        exact hok
      · rw [hnames] at hfree htaken
        exact .inr ⟨d :: before, d', after, rfl, untaken_cons.mpr ⟨hd, hfree⟩,
          by simpa using htaken, herr⟩

end Draft

theorem build_cases (h : types.map arena.get? = decls.map some) :
    (Untaken builtinNames decls ∧
      build arena types = .ok (of (builtins ++ decls.map (·.constructor)))) ∨
    ∃ before d after, decls = before ++ d :: after ∧ Untaken builtinNames before ∧
      d.name ∈ builtinNames ++ before.map (·.name) ∧
      build arena types = .error (.duplicateConstructor d.name) := by
  have hstart : Draft.start = .of builtins := rfl
  rw [build, Draft.foldlM_add_eq h, hstart]
  rcases Draft.foldlM_extend_cases builtins decls with
    ⟨hfree, hok⟩ | ⟨before, d, after, hdecls, hfree, htaken, herr⟩
  · exact .inl ⟨hfree, by rw [hok]; rfl⟩
  · exact .inr ⟨before, d, after, hdecls, hfree, htaken, by rw [herr]; rfl⟩

theorem ordinal?_eq_some_iff (hu : u.names.Nodup) {i : Nat} :
    u.ordinal? name = some i ↔ u.names[i]? = some name := by
  rw [ordinal?, List.findIdx?_eq_some_iff_getElem]
  constructor
  · rintro ⟨hi, hname, -⟩
    rw [List.getElem?_eq_getElem hi, beq_iff_eq.mp hname]
  · intro hname
    obtain ⟨hi, rfl⟩ := List.getElem?_eq_some_iff.mp hname
    refine ⟨hi, beq_self_eq_true _, fun j hj heq => ?_⟩
    have hsame := hu.getElem_inj_iff.mp (beq_iff_eq.mp heq)
    omega

structure Describes (u : Universe) (decls : List Declaration) : Prop where
  names_eq : u.names = builtinNames ++ decls.map (·.name)
  nodup : u.names.Nodup
  ordinal : ∀ (name : String) (i : Nat), u.ordinal? name = some i ↔ u.names[i]? = some name
  variants : u.variants = builtins ++ decls.map (·.constructor)
  constructors : ∀ name, (u.find? name).isSome = true ↔ name ∈ u.names
  recognizers : ∀ name, (u.recognizer? name).isSome = true ↔ name ∈ u.names
  /-- Under each name there is the variant that was declared in its place, which has that name,
  and the predicate that tests for this variant. -/
  entries : ∀ (i : Nat) (name : String) (v : Constructor), u.names[i]? = some name →
    u.variants[i]? = some v →
    v.name = name ∧ u.find? name = some v ∧ u.arity? name = some v.fields.length ∧
      u.recognizer? name = some ⟨recognizerName name, v⟩
  recognize : ∀ name t, t.carrier = .type → u.recognize name t =
    match u.find? name with
    | some v => .ok (.atom (.is ⟨recognizerName name, v⟩ t))
    | none => .error (.unknownConstructor name)
  arities : ∀ d ∈ decls, u.arity? d.name = some d.type.params.length
  count : u.userCount = decls.length

section Built

variable (hu : build arena types = .ok u)
include hu

theorem recognizer?_eq : u.recognizer? name =
    (u.find? name).map fun c => ⟨recognizerName name, c⟩ := by
  refine Option.ext fun r => ?_
  rw [recognizer?_iff hu, Option.map_eq_some_iff]
  simp only [find?_iff hu, and_assoc, eq_comm]

theorem recognize_eq {t : Term} (ht : t.carrier = .type) :
    u.recognize name t =
      match u.find? name with
      | some v => .ok (.atom (.is ⟨recognizerName name, v⟩ t))
      | none => .error (.unknownConstructor name) := by
  rw [recognize, recognizer?_eq hu]
  cases u.find? name with
  | none => rfl
  | some v => exact if_neg (not_not.mpr ht)

theorem entries_of_build {i : Nat} {v : Constructor} (hname : u.names[i]? = some name)
    (hv : u.variants[i]? = some v) :
    v.name = name ∧ u.find? name = some v ∧ u.arity? name = some v.fields.length ∧
      u.recognizer? name = some ⟨recognizerName name, v⟩ := by
  have hmem : v ∈ u.variants := List.mem_of_getElem? hv
  obtain rfl : v.name = name := by
    rw [names_eq hu, List.getElem?_map, hv] at hname
    exact Option.some.inj hname
  exact ⟨rfl, (find?_iff hu).mpr ⟨hmem, rfl⟩, arity?_of_mem hu hmem,
    (recognizer?_iff hu).mpr ⟨v, hmem, rfl, rfl⟩⟩

end Built

theorem describes_of_build (h : types.map arena.get? = decls.map some)
    (hu : build arena types = .ok u) : u.Describes decls := by
  obtain rfl : u = of (builtins ++ decls.map (·.constructor)) := by
    rcases build_cases h with ⟨-, hok⟩ | ⟨_, _, _, _, _, _, herr⟩
    · exact Except.ok.inj (hu.symm.trans hok)
    · cases hu.symm.trans herr
  have hlength : types.length = decls.length := by simpa using congrArg List.length h
  refine ⟨?_, nodup_names hu, fun _ _ => ordinal?_eq_some_iff (nodup_names hu), rfl,
    fun _ => find?_isSome_iff hu, fun name => ?_, fun i name v => entries_of_build hu,
    fun _ _ => recognize_eq hu, fun d hd => ?_, (userCount_of_build hu).trans hlength⟩
  · rw [names_of, List.map_append, List.map_map]
    rfl
  · rw [recognizer?_eq hu, Option.isSome_map]
    exact find?_isSome_iff hu
  · rw [← d.arity_constructor]
    exact arity?_of_mem hu (List.mem_append_right _ (List.mem_map_of_mem hd))

/-- Building fails exactly if the name of some declaration is taken, by the language or by a
declaration before it. Then it reports the first such name; otherwise the universe is that of the
declarations. -/
theorem build_describes_or_reports (h : types.map arena.get? = decls.map some) :
    ((∃ e, build arena types = .error e) ↔ ∃ before d after, decls = before ++ d :: after ∧
      d.name ∈ builtinNames ++ before.map (·.name)) ∧
    (∀ e, build arena types = .error e → ∃ before d after, decls = before ++ d :: after ∧
      Untaken builtinNames before ∧ d.name ∈ builtinNames ++ before.map (·.name) ∧
      e = .duplicateConstructor d.name) ∧
    ∀ u, build arena types = .ok u → u.Describes decls := by
  refine ⟨?_, fun e he => ?_, fun u hu => describes_of_build h hu⟩
  · rcases build_cases h with ⟨hfree, hok⟩ | ⟨before, d, after, heq, _, htaken, herr⟩
    · constructor
      · rintro ⟨e, he⟩
        rw [hok] at he
        cases he
      · rintro ⟨before, d, after, heq, htaken⟩
        exact absurd htaken (hfree before d after heq)
    · exact ⟨fun _ => ⟨before, d, after, heq, htaken⟩, fun _ => ⟨_, herr⟩⟩
  · rcases build_cases h with ⟨_, hok⟩ | ⟨before, d, after, heq, hfree, htaken, herr⟩
    · rw [hok] at he
      cases he
    · rw [he] at herr
      exact ⟨before, d, after, heq, hfree, htaken, Except.error.inj herr⟩

def pairAndTag : List Declaration :=
  [⟨"Pair", .applied "Pair" [.var "a", .var "b"], .global, .struct, [], none⟩,
   ⟨"Tag", .named "Tag", .global, .union, [], none⟩]

/-- The two types get the ordinals after those of the language. A second `Pair` is reported, and not
the `Bit` behind it. -/
theorem build_describes_or_reports_pair :
    let arena : Arena := ⟨pairAndTag.toArray.push ⟨"Bit", .named "Bit", .global, .struct, [], none⟩⟩
    (∃ u, build arena [⟨0⟩, ⟨1⟩] = .ok u ∧ u.Describes pairAndTag ∧ u.ordinal? "Tag" = some 18 ∧
      u.arity? "Pair" = some 2) ∧
    build arena [⟨0⟩, ⟨1⟩, ⟨0⟩, ⟨2⟩] = .error (.duplicateConstructor "Pair") := by
  intro arena
  constructor
  · obtain ⟨_, _, hdescribes⟩ := @build_describes_or_reports arena [⟨0⟩, ⟨1⟩] pairAndTag rfl
    exact ⟨_, rfl, hdescribes _ rfl, by decide +kernel, by decide +kernel⟩
  · rfl

end Bluespec.Universe
