import Bluespec.TypeExpr
import Mathlib.Data.List.Forall2

namespace Bluespec.TypeExpr

def marks : List Char := ['#', '(', ')', ',']

def closers : List Char := [',', ')']

mutual

def names : TypeExpr → List String
  | ⟨name, params, _, _⟩ => name :: namesAll params

def namesAll : List TypeExpr → List String
  | [] => []
  | p :: ps => p.names ++ namesAll ps

end

/-- A mark inside a name could not be told from one outside. -/
def Unmarked (names : List String) : Prop := ∀ name ∈ names, ∀ c ∈ name.toList, c ∉ marks

instance (names : List String) : Decidable (Unmarked names) :=
  -- Stated in full, since an instance that is searched for may go through all characters there are.
  have (name : String) : Decidable (∀ c ∈ name.toList, c ∉ marks) :=
    List.decidableBAll _ name.toList
  List.decidableBAll _ names

/-- The same name with the same parameters, all the way down. What is a variable and what is a
number may differ. -/
inductive Alike : TypeExpr → TypeExpr → Prop
  | mk {name : String} {ps qs : List TypeExpr} {v v' k k' : Bool} (h : List.Forall₂ Alike ps qs) :
    Alike ⟨name, ps, v, k⟩ ⟨name, qs, v', k'⟩

mutual

theorem Alike.render_eq : (s : TypeExpr) → {t : TypeExpr} → s.Alike t → s.render = t.render
  | ⟨_, [], _, _⟩, _, .mk .nil => rfl
  | ⟨name, p :: ps, _, _⟩, _, .mk (.cons hp hps) => by
    rw [render, render, hp.render_eq p, renderRest_eq ps hps]

theorem Alike.renderRest_eq : (ps : List TypeExpr) → {qs : List TypeExpr} →
    List.Forall₂ Alike ps qs → renderRest ps = renderRest qs
  | [], _, .nil => rfl
  | p :: ps, _, .cons hp hps => by
    rw [renderRest, renderRest, hp.render_eq p, renderRest_eq ps hps]

end

def brackets : List TypeExpr → List Char
  | [] => []
  | p :: ps => '#' :: '(' :: (p.render.toList ++ ((renderRest ps).toList ++ [')']))

theorem toList_render (name : String) (params : List TypeExpr) (v k : Bool) :
    (render ⟨name, params, v, k⟩).toList = name.toList ++ brackets params := by
  cases params with
  | nil => rw [render, brackets, List.append_nil]
  | cons p ps => simp [render, brackets]

theorem toList_renderRest_cons (p : TypeExpr) (ps : List TypeExpr) :
    (renderRest (p :: ps)).toList = ',' :: ' ' :: (p.render.toList ++ (renderRest ps).toList) := by
  simp [renderRest]

def GoesOn (cs : List Char) (text : List Char) : Prop := ∀ c ∈ text.head?, c ∈ cs

theorem GoesOn.brackets_append {text : List Char} (h : GoesOn closers text)
    (params : List TypeExpr) : GoesOn marks (brackets params ++ text) := by
  cases params with
  | nil =>
    intro c hc
    have hsub : closers ⊆ marks := by decide
    exact hsub (h c hc)
  | cons p ps =>
    intro c hc
    obtain rfl : '#' = c := Option.some.inj hc
    decide

theorem goesOn_renderRest (ps : List TypeExpr) (text : List Char) :
    GoesOn closers ((renderRest ps).toList ++ ')' :: text) := by
  intro c hc
  cases ps with
  | nil =>
    obtain rfl : ')' = c := Option.some.inj hc
    decide
  | cons p ps =>
    rw [toList_renderRest_cons] at hc
    obtain rfl : ',' = c := Option.some.inj hc
    decide

theorem takeWhile_name {name : String} {text : List Char} (hname : ∀ c ∈ name.toList, c ∉ marks)
    (htext : GoesOn marks text) : (name.toList ++ text).takeWhile (· ∉ marks) = name.toList := by
  rw [List.takeWhile_append_of_pos fun c hc => decide_eq_true (hname c hc)]
  cases text with
  | nil => simp
  | cons c text =>
    have hc : c ∈ marks := htext c rfl
    simp [hc]

theorem name_append_inj {m n : String} {r r' : List Char} (hm : ∀ c ∈ m.toList, c ∉ marks)
    (hn : ∀ c ∈ n.toList, c ∉ marks) (hr : GoesOn marks r) (hr' : GoesOn marks r')
    (h : m.toList ++ r = n.toList ++ r') : m = n ∧ r = r' := by
  have hname : m.toList = n.toList := by
    rw [← takeWhile_name hm hr, h, takeWhile_name hn hr']
  obtain rfl := String.toList_inj.mp hname
  exact ⟨rfl, List.append_cancel_left h⟩

theorem renderRest_of_brackets {ps qs : List TypeExpr} {r r' : List Char}
    (hr : GoesOn closers r) (hr' : GoesOn closers r')
    (h : brackets ps ++ r = brackets qs ++ r') :
    (renderRest ps).toList ++ ')' :: r = (renderRest qs).toList ++ ')' :: r' := by
  cases ps with
  | nil =>
    cases qs with
    | nil => exact congrArg (')' :: ·) h
    | cons q qs =>
      have hhead : r.head? = some '#' := congrArg List.head? h
      exact absurd (hr _ hhead) (by decide)
  | cons p ps =>
    cases qs with
    | nil =>
      have hhead : r'.head? = some '#' := congrArg List.head? h.symm
      exact absurd (hr' _ hhead) (by decide)
    | cons q qs =>
      -- Both texts lose `#(` and get the comma and the blank of a later parameter in its place.
      have hinside := congrArg (',' :: ' ' :: List.drop 2 ·) h
      rw [toList_renderRest_cons, toList_renderRest_cons]
      simpa [brackets] using hinside

mutual

/-- Where a type ends can be seen from the text: only a comma or a closing bracket comes after it,
and neither is in it at that place. -/
theorem alike_of_append : (s t : TypeExpr) → {r r' : List Char} → Unmarked s.names →
    Unmarked t.names → GoesOn closers r → GoesOn closers r' →
    s.render.toList ++ r = t.render.toList ++ r' → s.Alike t ∧ r = r'
  | ⟨m, ps, _, _⟩, ⟨n, qs, _, _⟩, r, r', hs, ht, hr, hr', h => by
    rw [names] at hs ht
    obtain ⟨hm, hps⟩ := List.forall_mem_cons.mp hs
    obtain ⟨hn, hqs⟩ := List.forall_mem_cons.mp ht
    rw [toList_render, toList_render, List.append_assoc, List.append_assoc] at h
    obtain ⟨rfl, hbrackets⟩ :=
      name_append_inj hm hn (hr.brackets_append ps) (hr'.brackets_append qs) h
    obtain ⟨hall, heq⟩ :=
      alike_of_renderRest ps qs hps hqs (renderRest_of_brackets hr hr' hbrackets)
    exact ⟨.mk hall, heq⟩

theorem alike_of_renderRest : (ps qs : List TypeExpr) → {r r' : List Char} →
    Unmarked (namesAll ps) → Unmarked (namesAll qs) →
    (renderRest ps).toList ++ ')' :: r = (renderRest qs).toList ++ ')' :: r' →
    List.Forall₂ Alike ps qs ∧ r = r'
  | [], [], _, _, _, _, h => ⟨.nil, List.tail_eq_of_cons_eq h⟩
  | [], q :: qs, _, _, _, _, h => by
    rw [toList_renderRest_cons] at h
    cases h
  | p :: ps, [], _, _, _, _, h => by
    rw [toList_renderRest_cons] at h
    cases h
  | p :: ps, q :: qs, r, r', hps, hqs, h => by
    rw [namesAll] at hps hqs
    obtain ⟨hp, hps⟩ := List.forall_mem_append.mp hps
    obtain ⟨hq, hqs⟩ := List.forall_mem_append.mp hqs
    have hfirst : p.render.toList ++ ((renderRest ps).toList ++ ')' :: r) =
        q.render.toList ++ ((renderRest qs).toList ++ ')' :: r') := by
      simpa [toList_renderRest_cons] using h
    obtain ⟨hpq, hrest⟩ :=
      alike_of_append p q hp hq (goesOn_renderRest ps r) (goesOn_renderRest qs r') hfirst
    obtain ⟨hall, heq⟩ := alike_of_renderRest ps qs hps hqs hrest
    exact ⟨.cons hpq hall, heq⟩

end

/-- Types whose names have no marks are told apart by their texts, but for what is a variable and
what is a number. -/
theorem render_unambiguous {s t : TypeExpr} (hs : Unmarked s.names) (ht : Unmarked t.names) :
    s.render = t.render ↔ s.Alike t := by
  refine ⟨fun h => ?_, fun h => h.render_eq s⟩
  have hend : GoesOn closers [] := nofun
  have htexts : s.render.toList ++ [] = t.render.toList ++ [] := by rw [h]
  exact (alike_of_append s t hs ht hend hend htexts).1

/-- With a name that is empty, one that begins with a blank, and a number that is none. -/
theorem render_unambiguous_blanks :
    let s := applied "Vector" [numeric 4, applied "" [named "", var " a b"], applied "" [named ""]]
    let t := applied "Vector" [named "4", applied "" [var "", named " a b"], applied "" [var ""]]
    Unmarked s.names ∧ Unmarked t.names ∧ s ≠ t ∧
      s.render = "Vector#(4, #(,  a b), #())" ∧ s.Alike t := by
  intro s t
  have hs : Unmarked s.names := by decide
  have ht : Unmarked t.names := by decide
  have htexts : s.render = t.render := by decide
  exact ⟨hs, ht, by decide, by decide, (render_unambiguous hs ht).mp htexts⟩

/-- Marks in a name look like those outside. -/
example : (named "Bit#(8)").render = (applied "Bit" [numeric 8]).render := by decide

end Bluespec.TypeExpr
