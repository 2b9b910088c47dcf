import Bluespec.Proofs.Runs
import Bluespec.Proofs.Symbols

namespace Bluespec.Session

variable {s t u : Session}

structure Grows (s t : Session) : Prop where
  arena : s.arena.Keeps t.arena
  types : s.symbols.types <+: t.symbols.types

theorem Grows.refl (s : Session) : Grows s s := ⟨.refl _, List.prefix_refl _⟩

theorem Grows.trans (hst : Grows s t) (htu : Grows t u) : Grows s u :=
  ⟨hst.arena.trans htu.arena, hst.types.trans htu.types⟩

theorem types_addType_extend (s : Symbols) (name : String) (id : DeclId) :
    s.types <+: (s.addType name id).types := by
  by_cases h : id ∈ s.indexed
  · rw [Symbols.addType, if_pos h]
  · exact (Symbols.marks_addType h name).types_extend

theorem Move.grows (h : Move s t) : Grows s t := by
  cases h with
  | note | push | bind | merge | synonym => exact ⟨.refl _, List.prefix_refl _⟩
  | store spec => exact ⟨Arena.keeps_add s.arena spec, List.prefix_refl _⟩
  | index scope =>
    exact ⟨.refl _, Symbols.indexScope_preserves (P := fun x => s.symbols.types <+: x.types)
      (fun _ _ _ _ hmarks hx => hx.trans hmarks.types_extend) s.scopes scope (List.prefix_refl _)⟩
  | functionType arity => exact ⟨Arena.keeps_push _ _, types_addType_extend _ _ _⟩

theorem Moves.grows (h : Moves s t) : Grows s t :=
  h.preserves (P := Grows s) (fun _ _ hm hu => hu.trans hm.grows) (Grows.refl s)

theorem Move.symbols_sound (h : Move s t) (hs : s.symbols.Sound s.arena) :
    t.symbols.Sound t.arena := by
  have hsize : s.arena.size ≤ t.arena.size := Arena.size_le_of_keeps h.grows.arena
  have hpresent : ∀ id ∈ s.symbols.indexed, id.index < t.arena.size :=
    fun id hid => Nat.lt_of_lt_of_le (hs.present id hid) hsize
  cases h with
  | note | push | bind | merge => exact hs
  | store spec => exact ⟨hs.nodup, hs.marked, hpresent⟩
  | synonym => exact ⟨hs.nodup, hs.marked, hs.present⟩
  | index scope =>
    exact Symbols.indexScope_preserves (P := Symbols.Sound s.arena)
      (fun _ _ _ hid hmarks hx => hx.marks hid hmarks) s.scopes scope hs
  | functionType arity =>
    have hid : s.arena.size < (s.addFunctionType arity).arena.size :=
      Nat.lt_of_lt_of_eq (Nat.lt_succ_self _) (Arena.size_push _ _).symm
    exact Symbols.Sound.marks ⟨hs.nodup, hs.marked, hpresent⟩ hid
      (Symbols.marks_addType hs.next_not_mem _)

theorem Moves.symbols_sound (h : Moves s t) (hs : s.symbols.Sound s.arena) :
    t.symbols.Sound t.arena :=
  h.preserves (P := fun u => u.symbols.Sound u.arena) (fun _ _ hm hu => hm.symbols_sound hu) hs

theorem symbols_sound_start (config : Config) :
    (start config).symbols.Sound (start config).arena :=
  (moves_start config).symbols_sound ⟨List.nodup_nil, nofun, nofun⟩

theorem Reachable.symbols_sound (hs : s.Reachable) : s.symbols.Sound s.arena :=
  hs.moves_induction (P := fun t => t.symbols.Sound t.arena)
    (fun _ => ⟨List.nodup_nil, nofun, nofun⟩) fun _ _ hm => hm.symbols_sound

theorem Move.valuesNamed (h : Move s t) (hs : s.symbols.ValuesNamed s.arena) :
    t.symbols.ValuesNamed t.arena := by
  have hkeeps := h.grows.arena
  cases h with
  | note | push | bind | merge => exact hs
  | store => exact hs.mono hkeeps
  | synonym id hd => exact hs.insert hd rfl
  | index scope => exact hs.indexScope s.scopes scope
  | functionType arity =>
    have hsame : (s.addFunctionType arity).symbols.valueOf = s.symbols.valueOf := by
      simp only [addFunctionType, Symbols.addType]
      split <;> rfl
    intro name id h
    rw [Symbols.value?, hsame] at h
    exact hs.mono hkeeps name id h

theorem Reachable.valuesNamed (hs : s.Reachable) : s.symbols.ValuesNamed s.arena :=
  hs.moves_induction (P := fun t => t.symbols.ValuesNamed t.arena) (fun _ => nofun)
    fun _ _ hm => hm.valuesNamed

theorem Reachable.valuesStored (hs : s.Reachable) : s.symbols.ValuesStored s.arena :=
  hs.valuesNamed.stored

theorem Reachable.grows_perform (hs : s.Reachable) (op : Op) : Grows s (s.perform op) :=
  (hs.valid.moves_perform op).grows

/-- A synthesized type as a declaration that could have been written. -/
def functionSpec (arity : Nat) : Spec :=
  { name := (functionType arity).name, type := functionType arity }

theorem types_addFunctionType (hs : s.symbols.Sound s.arena) (arity : Nat) :
    (s.addFunctionType arity).symbols.types = s.symbols.types ++ [⟨s.arena.size⟩] :=
  (Symbols.marks_addType hs.next_not_mem _).types

theorem stores_addFunctionType (s : Session) (arity : Nat) :
    (s.addFunctionType arity).arena.Stores ⟨s.arena.size⟩ (functionSpec arity) :=
  ⟨[], none, (Arena.get?_push s.arena _ _).trans (if_pos rfl), fun _ => rfl, nofun⟩

theorem functionTypes_listed (hs : s.symbols.Sound s.arena) (arities : List Nat) :
    ∃ ids, (arities.foldl addFunctionType s).symbols.types = s.symbols.types ++ ids ∧
      (arities.foldl addFunctionType s).arena.StoresAll ids (arities.map functionSpec) := by
  induction arities generalizing s with
  | nil => exact ⟨[], (List.append_nil _).symm, trivial⟩
  | cons k rest ih =>
    obtain ⟨ids, htypes, hstores⟩ := ih ((Move.functionType s k).symbols_sound hs)
    have hkeeps := (moves_functionTypes (s.addFunctionType k) rest).grows.arena
    refine ⟨⟨s.arena.size⟩ :: ids, ?_, (stores_addFunctionType s k).mono hkeeps, hstores⟩
    rw [List.foldl_cons, htypes, types_addFunctionType hs, List.append_assoc]
    rfl

end Bluespec.Session
