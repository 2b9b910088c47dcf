import Bluespec.Proofs.Constructors
import Bluespec.Proofs.Sorts

namespace Bluespec.Universe

/-- The datatype that variants generate freely, and the integers that these take. It is the place of
a variant that tells it from the others, and not its name. -/
inductive Datum (variants : List Constructor) : Carrier → Type
  | number (n : Int) : Datum variants .number
  | variant (place : Fin variants.length)
      (fields : (i : Fin (variants.get place).fields.length) →
        Datum variants ((variants.get place).fields.get i)) :
    Datum variants .type

def Tests {variants : List Constructor} (v : Constructor) : Datum variants .type → Prop
  | .variant place _ => variants.get place = v

/-- What a term stands for when its constants stand for the given types and integers. -/
inductive Denotes (u : Universe) (σ : String → (sort : Carrier) → Datum u.variants sort) :
    Term → (c : Carrier) → Datum u.variants c → Prop
  | const (x : String) (sort : Carrier) : Denotes u σ (.const x sort) sort (σ x sort)
  | int (n : Int) : Denotes u σ (.int n) .number (.number n)
  | app {head : String} {args : List Term} {place : Fin u.variants.length}
      {fields : (i : Fin (u.variants.get place).fields.length) →
        Datum u.variants ((u.variants.get place).fields.get i)}
      (hhead : u.find? head = some (u.variants.get place))
      (hlength : (u.variants.get place).fields.length = args.length)
      (hargs : ∀ i, Denotes u σ (args.get (i.cast hlength)) _ (fields i)) :
    Denotes u σ (.app head args) .type (.variant place fields)

def Models (u : Universe) (σ : String → (sort : Carrier) → Datum u.variants sort) : Formula → Prop
  | .truth b => b = true
  | .atom (.eq a b) => ∃ c d, u.Denotes σ a c d ∧ u.Denotes σ b c d
  | .atom (.is r t) => ∃ d, u.Denotes σ t .type d ∧ Tests r.tests d
  | .or f g => u.Models σ f ∨ u.Models σ g
  | .not f => ¬ u.Models σ f

variable {arena : Arena} {types : List DeclId} {u : Universe} {n m : String} {x t : Term}
  {args : List Term} {c : Carrier} {σ : String → (sort : Carrier) → Datum u.variants sort}

theorem Denotes.find?_eq {d : Datum u.variants .type} (h : u.Denotes σ (.app m args) .type d) :
    ∃ v, u.find? m = some v ∧ Tests v d := by
  cases h with
  | app hhead _ _ => exact ⟨_, hhead, rfl⟩

theorem Tests.unique {variants : List Constructor} {v w : Constructor}
    {d : Datum variants .type} (hv : Tests v d) (hw : Tests w d) : v = w := by
  cases d with
  | variant place fields => exact hv.symm.trans hw

theorem recognize_eq_ok {r : Recognizer} (hr : u.recognizer? n = some r) (hx : x.carrier = .type) :
    u.recognize n x = .ok (.atom (.is r x)) := by
  rw [recognize, hr]
  exact if_neg (not_not.mpr hx)

section Built

variable (hu : build arena types = .ok u)
include hu

theorem place_unique {i j : Fin u.variants.length} (h : u.variants.get i = u.variants.get j) :
    i = j := by
  have hnodup : u.variants.Nodup := (names_eq hu ▸ nodup_names hu).of_map
  exact Fin.ext (hnodup.getElem_inj_iff.mp h)

theorem Denotes.unique {d e : Datum u.variants c} (hd : u.Denotes σ t c d)
    (he : u.Denotes σ t c e) : d = e := by
  induction hd with
  | const x sort =>
    cases he
    rfl
  | int n =>
    cases he
    rfl
  | app hhead hlength _ ih =>
    cases he with
    | app hhead' _ hargs' =>
      -- both are in the same place, and then they agree field by field
      obtain rfl := place_unique hu (Option.some.inj (hhead.symm.trans hhead'))
      have hfields := funext fun i => ih i (hargs' i)
      rw [hfields]

theorem exists_denotes (σ : String → (sort : Carrier) → Datum u.variants sort)
    (ht : u.WellSorted t) : ∃ d, u.Denotes σ t t.carrier d := by
  induction ht with
  | const x sort => exact ⟨σ x sort, .const x sort⟩
  | int n => exact ⟨.number n, .int n⟩
  | @app head args v hv hfields _ ih =>
    obtain ⟨place, rfl⟩ := List.get_of_mem ((find?_iff hu).mp hv).1
    have hlength : (u.variants.get place).fields.length = args.length := by
      rw [← hfields, List.length_map]
    -- each field is of the sort of the argument in its place
    have hall : ∀ i, ∃ d, u.Denotes σ (args.get (i.cast hlength))
        ((u.variants.get place).fields.get i) d := by
      intro i
      have hcarrier : (u.variants.get place).fields.get i =
          (args.get (i.cast hlength)).carrier := by
        rw [List.get_of_eq hfields.symm i]
        simp
      rw [hcarrier]
      exact ih _ (List.get_mem args _)
    choose fields hdenotes using hall
    exact ⟨.variant place fields, .app hv hlength hdenotes⟩

theorem nonempty_assignment :
    Nonempty (String → (sort : Carrier) → Datum u.variants sort) := by
  obtain ⟨place, hplace⟩ := List.get_of_mem
    ((find?_iff hu).mp (find?_builtin hu (c := ⟨"Bozo", []⟩) (by decide))).1
  have hfields : (u.variants.get place).fields.length = 0 := by rw [hplace]; rfl
  refine ⟨fun _ sort => ?_⟩
  cases sort with
  | type => exact .variant place fun i => (i.cast hfields).elim0
  | number => exact .number 0

theorem existsUnique_recognizer (d : Datum u.variants .type) :
    ∃! n, n ∈ u.names ∧ ∃ r, u.recognizer? n = some r ∧ Tests r.tests d := by
  cases d with
  | variant place fields =>
    have hmem : u.variants.get place ∈ u.variants := List.get_mem _ _
    refine ⟨(u.variants.get place).name, ⟨?_, _, (recognizer?_iff hu).mpr ⟨_, hmem, rfl, rfl⟩, rfl⟩,
      ?_⟩
    · rw [names_eq hu]
      exact List.mem_map_of_mem hmem
    · rintro n ⟨_, r, hr, htest⟩
      obtain ⟨v, _, rfl, rfl⟩ := (recognizer?_iff hu).mp hr
      exact congrArg Constructor.name htest.symm

theorem exists_recognizer (hn : n ∈ u.names) : ∃ r, u.recognizer? n = some r := by
  obtain ⟨v, hv⟩ := Option.isSome_iff_exists.mp ((find?_isSome_iff hu).mpr hn)
  exact ⟨_, (recognizer?_eq hu).trans (congrArg _ hv)⟩

theorem models_is_app {r : Recognizer} (hr : u.recognizer? n = some r)
    (ht : u.WellSorted (.app m args)) : u.Models σ (.atom (.is r (.app m args))) ↔ n = m := by
  obtain ⟨v, hv, hname, rfl⟩ := (recognizer?_iff hu).mp hr
  constructor
  · rintro ⟨d, hd, htest⟩
    obtain ⟨w, hw, htest'⟩ := hd.find?_eq
    obtain rfl := htest.unique htest'
    exact hname.symm.trans ((find?_iff hu).mp hw).2
  · rintro rfl
    obtain ⟨d, hd⟩ := exists_denotes hu σ ht
    obtain ⟨w, hw, htest⟩ := hd.find?_eq
    obtain rfl := Option.some.inj (hw.symm.trans ((find?_iff hu).mpr ⟨hv, hname⟩))
    exact ⟨d, hd, htest⟩

theorem existsUnique_recognize (hx : u.WellSorted x) (hcarrier : x.carrier = .type)
    (σ : String → (sort : Carrier) → Datum u.variants sort) :
    ∃! n, n ∈ u.names ∧ ∃ f, u.recognize n x = .ok f ∧ u.Models σ f := by
  have hexists := exists_denotes hu σ hx
  rw [hcarrier] at hexists
  obtain ⟨d, hd⟩ := hexists
  obtain ⟨n, ⟨hn, r, hr, htest⟩, hunique⟩ := existsUnique_recognizer hu d
  refine ⟨n, ⟨hn, _, recognize_eq_ok hr hcarrier, d, hd, htest⟩, ?_⟩
  rintro k ⟨hk, f, hf, hmodels⟩
  obtain ⟨s, hs⟩ := exists_recognizer hu hk
  rw [recognize_eq_ok hs hcarrier] at hf
  obtain rfl := Except.ok.inj hf
  obtain ⟨e, he, htest'⟩ := hmodels
  exact hunique k ⟨hk, s, hs, Denotes.unique hu he hd ▸ htest'⟩

end Built

/-- Of an application the recognizer of its own constructor holds and no other, for all arguments
that the constructor takes. So one recognizer holds of every value of the datatype and of whatever
a type term stands for, and no two of them have the same name. -/
theorem recognizers_partition (hu : build arena types = .ok u) :
    (∀ n ∈ u.names, ∀ m args x, u.apply m args = .ok x → (∀ a ∈ args, u.WellSorted a) →
      ∃ f, u.recognize n x = .ok f ∧ ∀ σ, u.Models σ f ↔ n = m) ∧
    (∀ d : Datum u.variants .type,
      ∃! n, n ∈ u.names ∧ ∃ r, u.recognizer? n = some r ∧ Tests r.tests d) ∧
    (∀ σ x, u.WellSorted x → x.carrier = .type →
      ∃! n, n ∈ u.names ∧ ∃ f, u.recognize n x = .ok f ∧ u.Models σ f) ∧
    Nonempty (String → (sort : Carrier) → Datum u.variants sort) ∧
    ∀ n m r s, u.recognizer? n = some r → u.recognizer? m = some s →
      r.name = "is_" ++ n ∧ (n ≠ m → r.name ≠ s.name) := by
  refine ⟨?_, existsUnique_recognizer hu, fun σ x hx hcarrier =>
    existsUnique_recognize hu hx hcarrier σ, nonempty_assignment hu, ?_⟩
  · intro n hn m args x happly hargs
    obtain ⟨r, hr⟩ := exists_recognizer hu hn
    refine ⟨_, recognize_eq_ok hr (carrier_of_apply happly), fun σ => ?_⟩
    have hsorted := wellSorted_of_apply happly hargs
    obtain ⟨_, _, _, rfl⟩ := apply_eq_ok.mp happly
    exact models_is_app hu hr hsorted
  · intro n m r s hr hs
    obtain ⟨_, _, _, rfl⟩ := (recognizer?_iff hu).mp hr
    obtain ⟨_, _, _, rfl⟩ := (recognizer?_iff hu).mp hs
    exact ⟨rfl, fun hne heq => hne ((String.append_right_inj "is_").mp heq)⟩

/-- A pair whose first part is not known is a pair and no tag, whatever integers are in it. -/
theorem recognizers_partition_pair :
    let arena : Arena := ⟨pairAndTag.toArray⟩
    let u : Universe := .of (builtins ++ pairAndTag.map (·.constructor))
    let args : List Term := [.const "x" .type,
      .app "Vector" [.app "Numeric" [.int (-3)], .app "Numeric" [.const "n" .number]]]
    let x : Term := .app "Pair" args
    build arena [⟨0⟩, ⟨1⟩] = .ok u ∧ u.WellSorted x ∧
      Nonempty (String → (sort : Carrier) → Datum u.variants sort) ∧
      (∃ f, u.recognize "Tag" x = .ok f ∧ ∀ σ, ¬ u.Models σ f) ∧
      (∃ f, u.recognize "Pair" x = .ok f ∧ ∀ σ, u.Models σ f) ∧
      ∀ σ, ∃! n, n ∈ u.names ∧ ∃ f, u.recognize n x = .ok f ∧ u.Models σ f := by
  intro arena u args x
  have hbuild : build arena [⟨0⟩, ⟨1⟩] = .ok u := rfl
  have happly : u.apply "Pair" args = .ok x := rfl
  have hnumeric : ∀ t : Term, t.carrier = .number → u.WellSorted t →
      u.WellSorted (.app "Numeric" [t]) := by
    intro t hcarrier ht
    exact .app (c := ⟨"Numeric", [.number]⟩) rfl (congrArg ([·]) hcarrier)
      (List.forall_mem_singleton.mpr ht)
  have hvector : u.WellSorted (.app "Vector" [.app "Numeric" [.int (-3)],
      .app "Numeric" [.const "n" .number]]) :=
    .app (c := .ofArity "Vector" 2) rfl rfl (List.forall_mem_cons.mpr
      ⟨hnumeric _ rfl (.int (-3)), List.forall_mem_singleton.mpr (hnumeric _ rfl (.const _ _))⟩)
  have hargs : ∀ a ∈ args, u.WellSorted a :=
    List.forall_mem_cons.mpr ⟨.const _ _, List.forall_mem_singleton.mpr hvector⟩
  have hx := wellSorted_of_apply happly hargs
  obtain ⟨hmeaning, _, hunique, hdatum, _⟩ := recognizers_partition hbuild
  obtain ⟨f, hf, htag⟩ := hmeaning "Tag" (by decide) _ _ _ happly hargs
  obtain ⟨g, hg, hpair⟩ := hmeaning "Pair" (by decide) _ _ _ happly hargs
  refine ⟨hbuild, hx, hdatum, ⟨f, hf, fun σ => ?_⟩, ⟨g, hg, fun σ => ?_⟩,
    fun σ => hunique σ x hx rfl⟩
  · rw [htag]
    decide
  · exact (hpair σ).mpr rfl

end Bluespec.Universe
