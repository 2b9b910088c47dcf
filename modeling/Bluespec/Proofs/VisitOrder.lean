import Bluespec.Proofs.Calls
import Bluespec.Proofs.Scopes

namespace Bluespec

def Kind.callbacks : Kind → List Callback
  | enum => [.declaration, .enum]
  | struct => [.declaration, .struct]
  | union => [.declaration, .union]
  | interface => [.declaration, .interface]
  | method => [.declaration, .method]
  | module => [.declaration, .module]
  | function => [.declaration, .function]
  | synonym _ => [.declaration, .synonym]
  | value => [.declaration]

theorem Kind.callbacks_eq (k : Kind) : k.callbacks = .declaration :: k.callback?.toList := by
  cases k <;> rfl

def Arena.callsFor (arena : Arena) (id : DeclId) : List (Callback × DeclId) :=
  ((arena.get? id).map (·.kind.callbacks)).getD [] |>.map (·, id)

namespace Visitor

variable {σ : Type}

abbrev Call := Callback × DeclId

abbrev Log := List (Call × Except Error Unit)

def play (v : Visitor σ) : List Call → σ → Except Error Unit × σ
  | [], s => (.ok (), s)
  | call :: rest, s =>
    match v call.1 call.2 s with
    | (.ok (), t) => v.play rest t
    | (.error e, t) => (.error e, t)

theorem play_append (v : Visitor σ) (calls more : List Call) (s : σ) :
    v.play (calls ++ more) s =
      match v.play calls s with
      | (.ok (), t) => v.play more t
      | (.error e, t) => (.error e, t) := by
  induction calls generalizing s with
  | nil => rfl
  | cons call rest ih =>
    rw [List.cons_append, play, play]
    cases v call.1 call.2 s with
    | mk r t =>
      cases r with
      | error e => rfl
      | ok _ => exact ih t

theorem visitOne_eq_play (v : Visitor σ) {arena : Arena} {id : DeclId}
    (h : id.index < arena.size) (s : σ) :
    v.visitOne arena id s = v.play (arena.callsFor id) s := by
  obtain ⟨d, hd⟩ := Arena.exists_get? h
  have hcalls : arena.callsFor id = (.declaration, id) :: d.kind.callback?.toList.map (·, id) := by
    rw [Arena.callsFor, hd, Option.map_some, Option.getD_some, Kind.callbacks_eq]
    rfl
  rw [visitOne, hcalls, play]
  cases v .declaration id s with
  | mk r t =>
    cases r with
    | error e => rfl
    | ok _ =>
      simp only [visitKind, Arena.get, hd]
      cases d.kind.callback? with
      | none => rfl
      | some callback =>
        simp only [Option.toList_some, List.map_cons, List.map_nil, play]
        cases v callback id t with
        | mk r u => cases r <;> rfl

theorem visitAll_eq_play (v : Visitor σ) {arena : Arena} {ids : List DeclId}
    (h : ∀ id ∈ ids, id.index < arena.size) (s : σ) :
    v.visitAll arena ids s = v.play (ids.flatMap arena.callsFor) s := by
  induction ids generalizing s with
  | nil => rfl
  | cons id rest ih =>
    obtain ⟨hid, hrest⟩ := List.forall_mem_cons.mp h
    rw [visitAll, List.flatMap_cons, play_append, visitOne_eq_play v hid]
    cases v.play (arena.callsFor id) s with
    | mk r t =>
      cases r with
      | error e => rfl
      | ok _ => exact ih hrest t

def transcribed (v : Visitor σ) : Visitor (Log × σ) :=
  fun callback id x =>
    ((v callback id x.2).1, x.1 ++ [((callback, id), (v callback id x.2).1)],
      (v callback id x.2).2)

/-- `Follows plan log r`: of the planned calls those in the log were made, each with its reply, and
the last of them is the first that failed, unless all were made. The outcome is `r`. -/
inductive Follows : List Call → Log → Except Error Unit → Prop
  | done : Follows [] [] (.ok ())
  | fails (call : Call) (rest : List Call) (e : Error) :
    Follows (call :: rest) [(call, .error e)] (.error e)
  | goes {plan : List Call} {log : Log} {r : Except Error Unit} (call : Call)
      (h : Follows plan log r) :
    Follows (call :: plan) ((call, .ok ()) :: log) r

section Follows

variable {plan : List Call} {log : Log} {r : Except Error Unit}

theorem Follows.made (h : Follows plan log r) : log.map Prod.fst <+: plan := by
  induction h with
  | done => exact List.prefix_rfl
  | fails call rest e => exact ⟨rest, rfl⟩
  | goes call _ ih => exact List.prefix_cons_inj call |>.mpr ih

theorem Follows.ok_iff (h : Follows plan log r) :
    r = .ok () ↔ log.map Prod.fst = plan ∧ ∀ x ∈ log, x.2 = .ok () := by
  induction h with
  | done => simp
  | fails call rest e => simp
  | goes call _ ih => simp [ih]

theorem Follows.error_iff (h : Follows plan log r) (e : Error) : r = .error e ↔
    ∃ before call, log = before ++ [(call, .error e)] ∧ ∀ x ∈ before, x.2 = .ok () := by
  induction h with
  | done => simp
  | fails call rest e' =>
    constructor
    · intro he
      exact ⟨[], call, by rw [he]; rfl, nofun⟩
    · rintro ⟨before, last, hlog, _⟩
      cases before with
      | nil =>
        cases hlog
        rfl
      | cons first before =>
        have hempty : [] = before ++ [(last, .error e)] := (List.cons.inj hlog).2
        simp at hempty
  | goes call _ ih =>
    rw [ih]
    constructor
    · rintro ⟨before, last, rfl, hbefore⟩
      exact ⟨_ :: before, last, rfl, List.forall_mem_cons.mpr ⟨rfl, hbefore⟩⟩
    · rintro ⟨before, last, hlog, hbefore⟩
      cases before with
      | nil => cases hlog
      | cons first before =>
        obtain ⟨_, rfl⟩ := List.cons.inj hlog
        exact ⟨before, last, rfl, (List.forall_mem_cons.mp hbefore).2⟩

end Follows

theorem play_transcribed (v : Visitor σ) (plan : List Call) (earlier : Log) (s : σ) :
    ∃ log, v.transcribed.play plan (earlier, s) =
        ((v.play plan s).1, earlier ++ log, (v.play plan s).2) ∧
      Follows plan log (v.play plan s).1 := by
  induction plan generalizing earlier s with
  | nil => exact ⟨[], by rw [List.append_nil]; rfl, .done⟩
  | cons call rest ih =>
    rw [play, play, transcribed]
    cases hv : v call.1 call.2 s with
    | mk r t =>
      cases r with
      | error e => exact ⟨[(call, .error e)], rfl, .fails call rest e⟩
      | ok _ =>
        obtain ⟨log, hplay, hlog⟩ := ih (earlier ++ [(call, .ok ())]) t
        refine ⟨(call, .ok ()) :: log, ?_, .goes call hlog⟩
        rw [← List.append_cons] at hplay
        exact hplay

end Visitor

/-- A visit makes the calls that are due for everything ever bound in a scope, oldest first: for
each binding the general callback, and then the one of its kind. It succeeds if it makes all of them
and none fails. Otherwise it ends with the first that fails, and with its error. -/
theorem Scopes.visit_follows_history {σ : Type} (v : Visitor σ) (s : σ) {scopes : Scopes}
    {place : ScopeId} {scope : Scope} {arena : Arena} (hscope : scopes.get? place = some scope)
    (hstored : ∀ id ∈ scope.history, id.index < arena.size) :
    let plan := scope.history.flatMap arena.callsFor
    let visit := scopes.visit place arena v s
    ∃ log, scopes.visit place arena v.transcribed ([], s) = (visit.1, log, visit.2) ∧
      log.map Prod.fst <+: plan ∧
      (visit.1 = .ok () ↔ log.map Prod.fst = plan ∧ ∀ x ∈ log, x.2 = .ok ()) ∧
      ∀ e, visit.1 = .error e ↔
        ∃ before call, log = before ++ [(call, .error e)] ∧ ∀ x ∈ before, x.2 = .ok () := by
  intro plan visit
  have hplay : ∀ {τ : Type} (w : Visitor τ) (x : τ),
      scopes.visit place arena w x = w.play plan x := by
    intro τ w x
    rw [Scopes.visit, get_of_get? hscope]
    exact w.visitAll_eq_play hstored x
  obtain ⟨log, hlog, hfollows⟩ := v.play_transcribed plan [] s
  rw [← hplay, ← hplay] at hlog
  rw [← hplay] at hfollows
  exact ⟨log, hlog, hfollows.made, hfollows.ok_iff, hfollows.error_iff⟩

/-- A struct is bound twice, and the method before the last binding is refused. -/
theorem Scopes.visit_follows_history_loose :
    let scope : Scope := ⟨"A", ∅, [⟨0⟩, ⟨2⟩, ⟨0⟩, ⟨1⟩, ⟨2⟩], none⟩
    let scopes : Scopes := ⟨#[scope]⟩
    let v := Symbols.visitor Symbols.loose
    let e := Error.refused "package context" "method" "m"
    scopes.get? ⟨0⟩ = some scope ∧ (∀ id ∈ scope.history, id.index < Symbols.loose.size) ∧
    (scopes.visit ⟨0⟩ Symbols.loose v ∅).1 = .error e ∧
    ∃ log, (scopes.visit ⟨0⟩ Symbols.loose v.transcribed ([], ∅)).2.1 = log ∧
      log.map Prod.fst <+: scope.history.flatMap Symbols.loose.callsFor ∧
      log.map Prod.fst = [(.declaration, ⟨0⟩), (.struct, ⟨0⟩), (.declaration, ⟨2⟩),
        (.function, ⟨2⟩), (.declaration, ⟨0⟩), (.struct, ⟨0⟩), (.declaration, ⟨1⟩),
        (.method, ⟨1⟩)] ∧
      ∃ before call, log = before ++ [(call, .error e)] ∧ ∀ x ∈ before, x.2 = .ok () := by
  intro scope scopes v e
  have hscope : scopes.get? ⟨0⟩ = some scope := rfl
  have hstored : ∀ id ∈ scope.history, id.index < Symbols.loose.size := by decide
  have hfails : (scopes.visit ⟨0⟩ Symbols.loose v ∅).1 = .error e := by decide
  obtain ⟨log, hlog, hmade, _, herror⟩ := visit_follows_history v ∅ hscope hstored
  have hcalls : (scopes.visit ⟨0⟩ Symbols.loose v.transcribed ([], ∅)).2.1 = log := by rw [hlog]
  refine ⟨hscope, hstored, hfails, log, hcalls, hmade, ?_, (herror e).mp hfails⟩
  rw [← hcalls]
  decide

end Bluespec
