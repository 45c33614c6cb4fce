import Mathlib
import PeerExchange.Engine
import PeerExchange.Proofs.Running
import PeerExchange.Session.Scripted
import PeerExchange.Session.Recorded

namespace PeerExchange

structure Traced (σ : Type) where
  state : σ
  trace : List (Call × Bool) := []

namespace Traced

variable {σ α : Type}

def call (name : Call) (r : Run σ α) : Run (Traced σ) α :=
  ExceptT.mk fun t =>
    let (result, s) := r.run t.state
    (result, ⟨s, t.trace ++ [(name, result.isOk)]⟩)

-- Every call goes to the session inside, and is written down with its success.
def session (inside : Session σ) : Session (Traced σ) where
  evaluate s parameter := call .evaluate (inside.evaluate s parameter)
  batch statements := call .batch (inside.batch statements)
  start := call .start inside.start
  commit := call .commit inside.commit
  rollback := call .rollback inside.rollback
  load table columns rows := call .load (inside.load table columns rows)
  query columns name := call .query (inside.query columns name)

-- Statements that ran one after the other. If all went well, each of them did.
structure Work (succeeded : Bool) (trace : List (Call × Bool)) : Prop where
  statements : ∀ event ∈ trace, event.1 = .evaluate
  well : succeeded = true → ∀ event ∈ trace, event.2 = true

theorem work_nil (succeeded : Bool) : Work succeeded [] := ⟨nofun, nofun⟩

theorem Work.append {succeeded : Bool} {first later : List (Call × Bool)} (work : Work true first)
    (more : Work succeeded later) : Work succeeded (first ++ later) where
  statements := List.forall_mem_append.mpr ⟨work.statements, more.statements⟩
  well all := List.forall_mem_append.mpr ⟨work.well rfl, more.well all⟩

def Evaluates {τ : Type} (trace : τ → List (Call × Bool)) (act : Run τ α) : Prop :=
  ∀ s result t, act.run s = (result, t) → ∃ work, trace t = trace s ++ work ∧ Work result.isOk work

section Evaluates

variable {τ β : Type} {trace : τ → List (Call × Bool)}

theorem evaluates_silent {act : Run τ α} (silent : ∀ s, trace (act.run s).2 = trace s) :
    Evaluates trace act := by
  intro s result t ran
  refine ⟨[], ?_, work_nil _⟩
  rw [List.append_nil, ← silent s, ran]

theorem evaluates_pure (a : α) : Evaluates trace (pure a) := evaluates_silent fun _ => rfl

theorem evaluates_throw (cause : RunError) : Evaluates trace (throw cause : Run τ α) :=
  evaluates_silent fun _ => rfl

theorem evaluates_compiled (c : Compiled α) : Evaluates trace (Run.ofCompiled c : Run τ α) := by
  cases c <;> exact evaluates_silent fun _ => rfl

theorem evaluates_counted (n : Nat) : Evaluates trace (Run.counted n : Run τ Nat) := by
  unfold Run.counted
  split
  · exact evaluates_pure _
  · exact evaluates_throw _

theorem Evaluates.bind {act : Run τ α} {f : α → Run τ β} (first : Evaluates trace act)
    (next : ∀ a, Evaluates trace (f a)) : Evaluates trace (act >>= f) := by
  intro s result t ran
  rw [Run.run_bind] at ran
  match outcome : act.run s with
  | (.ok a, middle) =>
    rw [outcome] at ran
    obtain ⟨work, grown, did⟩ := first s _ middle outcome
    obtain ⟨more, further, then_⟩ := next a middle result t ran
    exact ⟨work ++ more, by rw [further, grown, List.append_assoc], did.append then_⟩
  | (.error cause, middle) =>
    rw [outcome] at ran
    cases ran
    exact first s _ _ outcome

theorem Evaluates.map {act : Run τ α} (f : α → β) (evaluates : Evaluates trace act) :
    Evaluates trace (f <$> act) := by
  rw [map_eq_pure_bind]
  exact evaluates.bind fun _ => evaluates_pure _

theorem Evaluates.discard {act : Run τ α} (evaluates : Evaluates trace act) :
    Evaluates trace (Functor.discard act) := evaluates.map _

theorem Evaluates.forM {f : α → Run τ Unit} (each : ∀ a, Evaluates trace (f a)) (items : List α) :
    Evaluates trace (items.forM f) := by
  induction items with
  | nil => exact evaluates_pure ()
  | cons first rest ih => exact (each first).bind fun _ => ih

theorem Evaluates.mapM {f : α → Run τ β} (each : ∀ a, Evaluates trace (f a)) (items : List α) :
    Evaluates trace (items.mapM f) := by
  induction items with
  | nil => exact evaluates_pure []
  | cons first rest ih =>
    rw [List.mapM_cons]
    exact (each first).bind fun _ => ih.bind fun _ => evaluates_pure _

theorem Evaluates.within {υ : Type} {act : Run τ α} {get : υ → τ} {set : τ → υ → υ}
    (lens : ∀ t u, get (set t u) = t) (evaluates : Evaluates trace act) :
    Evaluates (fun u => trace (get u)) (act.within get set) := by
  intro s result t ran
  have run : (act.within get set).run s =
      ((act.run (get s)).1, set (act.run (get s)).2 s) := rfl
  rw [run] at ran
  cases ran
  simp only [lens]
  exact evaluates _ _ _ rfl

end Evaluates

variable {inside : Session σ}

theorem evaluates_evaluate (s : Sql.Statement) (parameter : Option Int) :
    Evaluates Traced.trace ((session inside).evaluate s parameter) := by
  intro t result t' ran
  cases ran
  exact ⟨[(.evaluate, _)], rfl, List.forall_mem_singleton.mpr rfl,
    fun all => List.forall_mem_singleton.mpr all⟩

section Cycle

def runningTrace (t : Running (Traced σ)) : List (Call × Bool) := t.state.trace

theorem evaluates_inner {act : Run (Traced σ) α} (evaluates : Evaluates Traced.trace act) :
    Evaluates runningTrace (Running.inner act) := evaluates.within fun _ _ => rfl

theorem evaluates_count (f : Cycle → Cycle) :
    Evaluates (@runningTrace σ) (Running.count f) := evaluates_silent fun _ => rfl

theorem evaluates_evaluateAll (k : Int) (statements : List Sql.Statement) :
    Evaluates runningTrace (Running.evaluateAll (session inside) k statements) := by
  induction statements with
  | nil => exact evaluates_pure 0
  | cons s rest ih =>
    exact (evaluates_inner (evaluates_evaluate s (some k))).bind fun _ =>
      (evaluates_count _).bind fun _ => ih.bind fun _ => evaluates_pure _

theorem evaluates_machine (c : Compilation) :
    (Running.machine (session inside) c).Lifts (fun _ => True) (Evaluates runningTrace) where
  pure := evaluates_pure
  bind first next := first.bind next
  diverged stratum := evaluates_throw _
  count := evaluates_count
  group rules k _ _ _ := by
    refine (evaluates_compiled _).bind fun _ => (evaluates_evaluateAll k _).bind fun _ =>
      (evaluates_counted _).bind fun _ => ?_
    refine Evaluates.bind (evaluates_silent fun _ => rfl) fun _ =>
      (evaluates_counted _).bind fun _ => (evaluates_count _).bind fun _ => evaluates_pure _

theorem evaluates_clearPending (c : Compilation) (name : String) :
    Evaluates runningTrace (Running.clearPending (session inside) c name) := by
  refine (evaluates_compiled _).bind fun r => Evaluates.forM (fun kind => ?_) _
  exact (evaluates_inner (evaluates_evaluate _ _)).discard

theorem evaluates_runCycle (c : Compilation) :
    Evaluates Traced.trace (c.runCycle (session inside)) := by
  intro s result t ran
  rw [Compilation.run_runCycle] at ran
  cases found : c.maintenance with
  | none =>
    rw [found] at ran
    cases ran
    exact ⟨[], (List.append_nil _).symm, work_nil _⟩
  | some m =>
    rw [found] at ran
    dsimp only at ran
    match outcome : ((Running.machine (session inside) c).runProgram m).run ⟨s, {}⟩ with
    | (ended, after) =>
      obtain ⟨work, grown, did⟩ := (evaluates_machine c).runProgram (evaluates_clearPending c) m _ _ _ outcome
      rw [outcome] at ran
      cases ran
      exact ⟨work, grown, by cases ended <;> exact did⟩

end Cycle

end Traced

namespace Engine

open Traced (Evaluates Work)

variable {σ α : Type} {inside : Session σ}

def trace (e : Engine (Traced σ)) : List (Call × Bool) := e.state.trace

section Statements

theorem evaluates_call {act : Run (Traced σ) α} (evaluates : Evaluates Traced.trace act) :
    Evaluates trace (call act) := evaluates.within fun _ _ => rfl

theorem evaluates_runRule (c : Compilation) (r : Rule) :
    Evaluates trace (runRule (Traced.session inside) c r) :=
  (Traced.evaluates_compiled _).bind fun _ =>
    (Traced.Evaluates.mapM (fun s => evaluates_call (Traced.evaluates_evaluate s none)) _).bind
      fun _ => (Traced.evaluates_counted _).discard

theorem evaluates_startOver (c : Compilation) (m : Maintenance) :
    Evaluates trace (startOver (Traced.session inside) c m) :=
  (Traced.evaluates_compiled _).bind fun _ =>
    (Traced.Evaluates.forM (evaluates_runRule c) _).bind fun _ =>
      Traced.Evaluates.forM (fun _ =>
        (evaluates_call (Traced.evaluates_evaluate _ none)).discard) _

end Statements

-- How a transaction goes, from its start to its end. It fails to start, it is committed, its
-- commit fails, or it is undone, whether or not undoing succeeds.
inductive Transaction : Bool → List (Call × Bool) → Prop
  | refused : Transaction false [(.start, false)]
  | committed {work : List (Call × Bool)} (did : Work true work) :
    Transaction true ((.start, true) :: work ++ [(.commit, true)])
  | uncommitted {work : List (Call × Bool)} (did : Work true work) :
    Transaction false ((.start, true) :: work ++ [(.commit, false)])
  | undone {work : List (Call × Bool)} (did : Work false work) (well : Bool) :
    Transaction false ((.start, true) :: work ++ [(.rollback, well)])

theorem trace_call {name : Call} {act : Run σ α} {e e' : Engine (Traced σ)}
    {result : Except RunError α} (ran : (call (Traced.call name act)).run e = (result, e')) :
    e'.trace = e.trace ++ [(name, result.isOk)] := by
  cases ran
  rfl

theorem run_outcome (act : Act σ α) (e : Engine σ) :
    (outcome act).run e = (.ok (act.run e).1, (act.run e).2) := rfl

theorem transaction_goes {act : Act (Traced σ) α} (evaluates : Evaluates trace act)
    {e e' : Engine (Traced σ)} {result : Except RunError α}
    (ran : (transaction (Traced.session inside) act).run e = (result, e')) :
    ∃ more, e'.trace = e.trace ++ more ∧ Transaction result.isOk more := by
  unfold transaction at ran
  rw [Run.run_bind] at ran
  match begun : (call (Traced.session inside).start).run e with
  | (.error cause, started) =>
    rw [begun] at ran
    cases ran
    exact ⟨_, trace_call begun, .refused⟩
  | (.ok (), started) =>
    rw [begun] at ran
    dsimp only at ran
    rw [Run.run_bind, run_outcome] at ran
    dsimp only at ran
    obtain ⟨work, grown, did⟩ := evaluates started (act.run started).1 (act.run started).2 rfl
    -- Whichever call ends the transaction, it comes after the statements.
    have ends {name : Call} {last : Run σ Unit} {ended : Engine (Traced σ)}
        {closing : Except RunError Unit}
        (closed : (call (Traced.call name last)).run (act.run started).2 = (closing, ended)) :
        ended.trace = e.trace ++ ((.start, true) :: work ++ [(name, closing.isOk)]) := by
      rw [trace_call closed, grown, trace_call begun, List.append_assoc, List.append_assoc]
      rfl
    split at ran
    · rename_i a well
      rw [well] at did
      rw [Run.run_bind] at ran
      match closed : (call (Traced.session inside).commit).run (act.run started).2 with
      | (.ok (), ended) =>
        rw [closed] at ran
        cases ran
        exact ⟨_, ends closed, .committed did⟩
      | (.error cause, ended) =>
        rw [closed] at ran
        cases ran
        exact ⟨_, ends closed, .uncommitted did⟩
    · rename_i failure failed
      rw [failed] at did
      rw [Run.run_bind] at ran
      match closed : (call (Traced.session inside).rollback).run (act.run started).2 with
      | (.ok (), ended) =>
        rw [closed] at ran
        cases ran
        exact ⟨_, ends closed, .undone did true⟩
      | (.error cause, ended) =>
        rw [closed] at ran
        cases ran
        exact ⟨_, ends closed, .undone did false⟩

section Laws

variable {succeeded : Bool} {more : List (Call × Bool)}

-- Statements come after a transaction has started, and a commit after statements that all
-- succeeded.
structure Ordered (more : List (Call × Bool)) : Prop where
  begun : ∀ before well after, more = before ++ (.evaluate, well) :: after → (.start, true) ∈ before
  committed : ∀ before well after, more = before ++ (.commit, well) :: after →
    ∀ event ∈ before, event.1 = .evaluate → event.2 = true

def Undone (succeeded : Bool) (more : List (Call × Bool)) : Prop :=
  succeeded = false → ∀ before after, more = before ++ (.start, true) :: after →
    ∃ well, (.rollback, well) ∈ after

def Disciplined (succeeded : Bool) (more : List (Call × Bool)) : Prop :=
  Ordered more ∧ (Undone succeeded more ↔ (.commit, false) ∉ more)

theorem disciplined_nil : Disciplined succeeded [] :=
  ⟨⟨by simp, by simp⟩, by simp [Undone]⟩

theorem event_of_split {work before after : List (Call × Bool)} {last event : Call × Bool}
    (did : ∀ event ∈ work, event.1 = .evaluate)
    (split : (.start, true) :: work ++ [last] = before ++ event :: after) :
    (event = (.start, true) ∧ after = work ++ [last]) ∨
      (event.1 = .evaluate ∧ (.start, true) ∈ before) ∨
      (event = last ∧ before = (.start, true) :: work) := by
  cases before with
  | nil =>
    cases split
    exact .inl ⟨rfl, rfl⟩
  | cons first before =>
    obtain ⟨rfl, later⟩ := List.cons.inj split
    refine .inr ?_
    rcases List.append_eq_append_iff.mp later with ⟨tail, rfl, rest⟩ | ⟨tail, rfl, rest⟩
    · obtain ⟨rfl, rfl, -⟩ : tail = [] ∧ event = last ∧ after = [] := by
        cases tail with
        | nil => cases rest; exact ⟨rfl, rfl, rfl⟩
        | cons => simp at rest
      exact .inr ⟨rfl, by rw [List.append_nil]⟩
    · cases tail with
      | nil =>
        cases rest
        exact .inr ⟨rfl, by rw [List.append_nil]⟩
      | cons inner tail =>
        cases rest
        exact .inl ⟨did _ (by simp), by simp⟩

theorem Transaction.disciplined (went : Transaction succeeded more) : Disciplined succeeded more := by
  have ordered {ok : Bool} {work : List (Call × Bool)} {last : Call × Bool} (did : Work ok work)
      (ends : last.1 ≠ .evaluate) (commits : last.1 = .commit → ok = true) :
      Ordered ((.start, true) :: work ++ [last]) := by
    constructor
    · intro before well after split
      rcases event_of_split did.statements split with ⟨same, -⟩ | ⟨-, started⟩ | ⟨rfl, -⟩
      · cases same
      · exact started
      · exact absurd rfl ends
    · intro before well after split event inside evaluated
      rcases event_of_split did.statements split with ⟨same, -⟩ | ⟨other, -⟩ | ⟨rfl, rfl⟩
      · cases same
      · cases other
      · rcases List.mem_cons.mp inside with rfl | inside
        · cases evaluated
        · exact did.well (commits rfl) event inside
  have uncommitted {ok : Bool} {work : List (Call × Bool)} {call : Call} {well : Bool}
      (did : Work ok work) : (.commit, false) ∈ (.start, true) :: work ++ [(call, well)] ↔
        (call, well) = (.commit, false) := by
    constructor
    · intro inside
      rcases List.mem_append.mp inside with inside | inside
      · rcases List.mem_cons.mp inside with same | inside
        · cases same
        · cases did.statements _ inside
      · exact (List.mem_singleton.mp inside).symm
    · intro same
      simp [same]
  cases went with
  | refused =>
    refine ⟨⟨?_, ?_⟩, iff_of_true ?_ (by simp)⟩
    · intro before well after split
      cases before <;> simp at split
    · intro before well after split
      cases before <;> simp at split
    · intro _ before after split
      cases before <;> simp at split
  | committed did =>
    exact ⟨ordered did nofun fun _ => rfl, iff_of_true nofun fun inside =>
      nomatch (uncommitted did).mp inside⟩
  | uncommitted did =>
    refine ⟨ordered did nofun fun _ => rfl, iff_of_false ?_ fun absent =>
      absent ((uncommitted did).mpr rfl)⟩
    intro undone
    obtain ⟨well, inside⟩ := undone rfl [] _ rfl
    rcases List.mem_append.mp inside with inside | inside
    · cases did.statements _ inside
    · cases List.mem_singleton.mp inside
  | undone did well =>
    refine ⟨ordered did nofun nofun, iff_of_true ?_ fun inside => nomatch (uncommitted did).mp inside⟩
    intro _ before after split
    refine ⟨well, ?_⟩
    rcases event_of_split did.statements split with ⟨-, rfl⟩ | ⟨other, -⟩ | ⟨other, -⟩
    · simp
    · cases other
    · cases other

end Laws

section Operations

variable {e e' : Engine (Traced σ)}

theorem trace_recompile {f : Compilation → Compilation × Compiled Unit}
    {result : Except RunError Compilation} (ran : (recompile f).run e = (result, e')) :
    e'.trace = e.trace := by
  have silent (outcome : Compiled Unit) (c : Compilation) : ∀ result e',
      (Run.ofCompiled outcome >>= fun _ => pure c : Act (Traced σ) Compilation).run
        { e with compilation := c } = (result, e') → e'.trace = e.trace := by
    cases outcome <;> (intro result e' ran; cases ran; rfl)
  exact silent _ _ _ _ ran

theorem update_goes {result : Except RunError Cycle}
    (ran : (update (Traced.session inside)).run e = (result, e')) :
    ∃ more, e'.trace = e.trace ++ more ∧
      (Transaction result.isOk more ∨ result.isOk = false ∧ more = []) := by
  unfold update at ran
  rw [Run.run_bind] at ran
  match prepared : ready.run e with
  | (.error cause, stopped) =>
    rw [prepared] at ran
    cases ran
    exact ⟨[], by rw [trace_recompile prepared, List.append_nil], .inr ⟨rfl, rfl⟩⟩
  | (.ok c, middle) =>
    rw [prepared] at ran
    obtain ⟨more, grown, went⟩ :=
      transaction_goes (evaluates_call (Traced.evaluates_runCycle c)) ran
    exact ⟨more, by rw [grown, trace_recompile prepared], .inl went⟩

theorem run_recompute (session : Session σ) (e : Engine σ) :
    (recompute session).run e = match (update session).run e with
      | (.ok _, e) => (transaction session (match e.compilation.maintenance with
          | none => pure {}
          | some m => startOver session e.compilation m >>= fun _ =>
            call (e.compilation.runCycle session))).run e
      | (.error cause, e) => (.error cause, e) := by
  unfold recompute
  rw [Run.run_discard_bind]
  match (update session).run e with
  | (.ok _, e) =>
    cases found : e.compilation.maintenance <;>
      simp only [Run.run_bind, show (get : Act σ (Engine σ)).run e = (.ok e, e) from rfl, found]
  | (.error cause, e) => rfl

theorem recompute_goes {result : Except RunError Cycle}
    (ran : (recompute (Traced.session inside)).run e = (result, e')) :
    ∃ updated middle, (update (Traced.session inside)).run e = (updated, middle) ∧
      ∃ more, e'.trace = middle.trace ++ more ∧
        ((updated.isOk = true ∧ Transaction result.isOk more) ∨
          updated.isOk = false ∧ result.isOk = false ∧ more = []) := by
  have again (c : Compilation) : Evaluates trace (match c.maintenance with
      | none => pure {}
      | some m => startOver (Traced.session inside) c m >>= fun _ =>
        call (c.runCycle (Traced.session inside)) : Act (Traced σ) Cycle) := by
    split
    · exact Traced.evaluates_pure _
    · exact (evaluates_startOver _ _).bind fun _ =>
        evaluates_call (Traced.evaluates_runCycle _)
  rw [run_recompute] at ran
  match first : (update (Traced.session inside)).run e with
  | (.error cause, middle) =>
    rw [first] at ran
    cases ran
    exact ⟨_, _, rfl, [], (List.append_nil _).symm, .inr ⟨rfl, rfl, rfl⟩⟩
  | (.ok cycle, middle) =>
    rw [first] at ran
    obtain ⟨more, grown, went⟩ := transaction_goes (again middle.compilation) ran
    exact ⟨_, _, rfl, more, grown, .inl ⟨rfl, went⟩⟩

end Operations

-- How an action ends from a session that nothing was asked of yet: whether it succeeds, and with
-- which calls.
def calls (act : Act (Traced σ) α) (c : Compilation) (s : σ) : Bool × List (Call × Bool) :=
  let (result, e) := act.run ⟨c, ⟨s, []⟩⟩
  (result.isOk, e.trace)

theorem calls_of_run {act : Act (Traced σ) α} {c : Compilation} {s : σ} {e' : Engine (Traced σ)}
    {result : Except RunError α} (ran : act.run ⟨c, ⟨s, []⟩⟩ = (result, e')) :
    calls act c s = (result.isOk, e'.trace) := by
  rw [calls, ran]

-- Every transaction that fails after its start is undone, unless what failed is its commit. An
-- update is one transaction, and a recomputation an update and, if that succeeds, another one.
theorem transactions_disciplined (session : Session σ) (c : Compilation) (s : σ) :
    let updated := calls (update (Traced.session session)) c s
    let recomputed := calls (recompute (Traced.session session)) c s
    Disciplined updated.1 updated.2 ∧
      ∃ second, recomputed.2 = updated.2 ++ second ∧ Disciplined recomputed.1 second ∧
        (updated.1 = false → recomputed.1 = false ∧ second = []) := by
  intro updated recomputed
  constructor
  · match ran : (update (Traced.session session)).run ⟨c, ⟨s, []⟩⟩ with
    | (result, e') =>
      have same : updated = (result.isOk, e'.trace) := calls_of_run ran
      obtain ⟨more, grown, went⟩ := update_goes ran
      rw [same, show e'.trace = more from grown]
      rcases went with went | ⟨-, rfl⟩
      · exact went.disciplined
      · exact disciplined_nil
  · match ran : (recompute (Traced.session session)).run ⟨c, ⟨s, []⟩⟩ with
    | (result, e') =>
      have same : recomputed = (result.isOk, e'.trace) := calls_of_run ran
      obtain ⟨first, middle, began, more, grown, went⟩ := recompute_goes ran
      have before : updated = (first.isOk, middle.trace) := calls_of_run began
      rw [same, before, grown]
      refine ⟨more, rfl, ?_⟩
      rcases went with ⟨well, went⟩ | ⟨failed, both, rfl⟩
      · exact ⟨went.disciplined, fun no => absurd (well.symm.trans no) nofun⟩
      · exact ⟨disciplined_nil, fun _ => ⟨both, rfl⟩⟩

def unmapped : Catalog where
  peers := [⟨"A", ["R"]⟩]
  relations := .ofList [("R", { name := "R", peer := some "A", columns := [⟨"a", .integer, false⟩] })]

def uncommitting : Session Script :=
  { Script.session with commit := throw (.connectivity "the connection was closed") }

theorem failed_commit_left_open :
    let compilation : Compilation := { declared := unmapped, catalog := unmapped, config := {} }
    let made := (.start, true) :: List.replicate 12 (.evaluate, true) ++ [(.commit, false)]
    calls (update (Traced.session uncommitting)) compilation ⟨[]⟩ =
      (false, made) ∧ ¬ Undone false made := by
  constructor
  · decide +kernel
  · intro undone
    obtain ⟨well, inside⟩ := undone rfl [] _ rfl
    simp at inside

end Engine

end PeerExchange
