import Bluespec.Proofs.Adequacy
import Bluespec.Proofs.Arena
import Bluespec.Proofs.Scopes
import Mathlib.Logic.Relation

namespace Bluespec.Session

/-- The changes that all operations on a session are made of. Each of them touches one of its
stores, apart from a synthesized type, which is stored and listed at once. -/
inductive Move : Session → Session → Prop
  | note (s : Session) (c : ScopeId) (k : Table ScopeId) (b : Bool) (l : List (String × String)) :
    Move s { s with current := c, packages := k, hasFunctionTypes := b, requests := l }
  | push (s : Session) (name : String) (parent : Option ScopeId)
      (hp : ∀ outer, parent = some outer → outer.index < s.scopes.size) :
    Move s { s with scopes := (s.scopes.push name parent).2 }
  | bind (s : Session) (name : String) (decl : DeclId) : Move s (s.bind name decl)
  | merge (s : Session) {a b : ScopeId} {u : Scopes}
      (hm : s.scopes.merge a b s.config.importPolicy = (.ok (), u)) : Move s { s with scopes := u }
  | store (s : Session) (spec : Spec) : Move s { s with arena := (s.arena.add spec).2 }
  | synonym (s : Session) (id : DeclId) {d : Declaration} (hd : s.arena.get? id = some d)
      (hk : d.kind.isSynonym = true) :
    Move s { s with symbols := s.symbols.enterSynonym d.name id }
  | index (s : Session) (scope : ScopeId) :
    Move s { s with symbols := (s.symbols.indexScope s.arena s.scopes scope).2 }
  | functionType (s : Session) (arity : Nat) : Move s (s.addFunctionType arity)

abbrev Moves : Session → Session → Prop := Relation.ReflTransGen Move

variable {lib : Library} {s t : Session}

theorem Moves.preserves {P : Session → Prop} (hP : ∀ s t, Move s t → P s → P t)
    (h : Moves s t) (hs : P s) : P t := by
  induction h with
  | refl => exact hs
  | tail _ hm ih => exact hP _ _ hm ih

theorem moves_declare (s : Session) (spec : Spec) : Moves s (s.declare spec).2 := by
  refine .head (.store s spec) (.single ?_)
  cases h : spec.kind.isSynonym with
  | true =>
    rw [declare_synonym h]
    obtain ⟨name, type, binding, kind, members⟩ := spec
    obtain ⟨ids, parent, hd, _⟩ := Arena.stores_add s.arena ⟨name, type, binding, kind, members⟩
    exact .synonym { s with arena := (s.arena.add ⟨name, type, binding, kind, members⟩).2 } _ hd h
  | false =>
    rw [declare_bound h]
    exact .bind { s with arena := (s.arena.add spec).2 } spec.name (s.arena.add spec).1

theorem moves_enter (s : Session) (package : String) : Moves s (s.enter package) :=
  .head (.push s package none nofun)
    (.single (.note { s with scopes := (s.scopes.push package none).2 } s.nextScope s.packages
      s.hasFunctionTypes s.requests))

theorem moves_fetch {p : String} {r : Except Error Package} (h : s.fetch lib p = (r, t)) :
    Moves s t := by
  obtain ⟨_, asked, rfl, _⟩ := fetch_eq h
  exact .single (.note s s.current s.packages s.hasFunctionTypes (s.requests ++ asked))

theorem moves_cache (s : Session) (package : String) (scope : ScopeId) :
    Moves s (s.cache package scope) :=
  .single (.note s s.current _ s.hasFunctionTypes s.requests)

theorem moves_leave (s : Session) (caller : ScopeId) : Moves s (s.leave caller) :=
  .single (.note s caller s.packages s.hasFunctionTypes s.requests)

theorem moves_abandon (s : Session) (package : String) (caller : ScopeId) :
    Moves s (s.abandon package caller) :=
  .single (.note s caller _ s.hasFunctionTypes s.requests)

theorem moves_expose {r : Except Error Unit} {scope caller : ScopeId}
    (h : s.expose scope caller = (r, t)) : Moves s t := by
  cases r with
  | error e =>
    rw [expose_eq_error h]
    exact .single (.index s scope)
  | ok _ =>
    obtain ⟨symbols, scopes, hi, hm, rfl⟩ := expose_eq_ok h
    have hsymbols : symbols = (s.symbols.indexScope s.arena s.scopes scope).2 := by rw [hi]
    subst hsymbols
    exact .head (.index s scope) (.single (.merge { s with
      symbols := (s.symbols.indexScope s.arena s.scopes scope).2 } hm))

theorem moves_fetched {p : String} {r : Except Error Package}
    (hf : (s.enter p).fetch lib p = (r, t)) (scope : ScopeId) : Moves s (t.cache p scope) :=
  ((moves_enter s p).trans (moves_fetch hf)).trans (moves_cache t p scope)

mutual

theorem Analyzes.moves {p : String} {s : Session} {r : Except Error Analysis × Session}
    {d : Nat} {l : List (String × Bool)} : Analyzes lib p s r d l → Moves s r.2
  | .known _ => .refl
  | .unread _ hf => ((moves_enter s p).trans (moves_fetch hf)).trans (moves_abandon _ _ _)
  | .broken _ hf hw => ((moves_fetched hf _).trans hw.moves).trans (moves_abandon _ _ _)
  | .hidden _ hf hw he =>
    (((moves_fetched hf _).trans hw.moves).trans (moves_expose he)).trans (moves_abandon _ _ _)
  | .done _ hf hw he =>
    (((moves_fetched hf _).trans hw.moves).trans (moves_expose he)).trans (moves_leave _ _)

theorem Walks.moves {es : List Entry} {s : Session} {r : Except Error Unit × Session}
    {d : Nat} {l : List (String × Bool)} : Walks lib es s r d l → Moves s r.2
  | .nil => .refl
  | .declares hr => (moves_declare s _).trans hr.moves
  | .requires h hr => h.moves.trans hr.moves
  | .fails h => h.moves

end

theorem Move.config_eq (h : Move s t) : t.config = s.config := by
  cases h <;> rfl

theorem Move.sound (h : Move s t) (hs : s.scopes.Sound) : t.scopes.Sound := by
  cases h with
  | push name parent hp => exact hs.push name hp
  | bind name decl => exact hs.modify (fun _ _ h => h.bind name decl) s.current
  | merge hm => exact hs.merge hm
  | note | store | synonym | index | functionType => exact hs

theorem Move.size_le (h : Move s t) : s.scopes.size ≤ t.scopes.size := by
  cases h with
  | push name parent hp => exact (Scopes.size_push _ _ _).symm ▸ Nat.le_succ _
  | bind name decl => exact Nat.le_of_eq (Scopes.size_modify _ _ _).symm
  | merge hm => exact Nat.le_of_eq (Scopes.size_merge hm).symm
  | note | store | synonym | index | functionType => exact Nat.le_refl _

theorem Moves.config_eq (h : Moves s t) : t.config = s.config :=
  h.preserves (P := fun u => u.config = s.config) (fun _ _ hm hu => hm.config_eq.trans hu) rfl

theorem Moves.sound (h : Moves s t) (hs : s.scopes.Sound) : t.scopes.Sound :=
  h.preserves (P := fun u => u.scopes.Sound) (fun _ _ hm hu => hm.sound hu) hs

theorem Moves.size_le (h : Moves s t) : s.scopes.size ≤ t.scopes.size :=
  h.preserves (P := fun u => s.scopes.size ≤ u.scopes.size)
    (fun _ _ hm hu => hu.trans hm.size_le) (Nat.le_refl _)

end Bluespec.Session
