import PeerExchange.Proofs.InstalledPrograms
import PeerExchange.Proofs.ReadStatements
import PeerExchange.Session.Memory

namespace PeerExchange

open Sql (Archive Database Fault Statement Token)

namespace Run

variable {σ τ α β γ : Type}

theorem run_get_bind (f : σ → Run σ α) (s : σ) : (get >>= f).run s = (f s).run s := rfl

-- Whatever the first action ends well with, the second one ends with from a state that matches. Good
-- states come from good ones.
def Follows (Good : σ → Prop) (Match : σ → τ → Prop) (act : Run σ α) (act' : Run τ α) : Prop :=
  ∀ s t, (Good (act.run s).2 → Good s) ∧ (Good (act.run s).2 → Match s t →
    (act'.run t).1 = (act.run s).1 ∧ Match (act.run s).2 (act'.run t).2)

section Follows

variable {Good : σ → Prop} {Match : σ → τ → Prop}

theorem follows_pure (a : α) : Follows Good Match (pure a) (pure a) :=
  fun _ _ => ⟨id, fun _ matched => ⟨rfl, matched⟩⟩

theorem follows_throw (cause : RunError) :
    Follows Good Match (throw cause : Run σ α) (throw cause : Run τ α) :=
  fun _ _ => ⟨id, fun _ matched => ⟨rfl, matched⟩⟩

theorem follows_compiled (made : Compiled α) :
    Follows Good Match (ofCompiled made : Run σ α) (ofCompiled made : Run τ α) := by
  cases made with
  | ok a => exact follows_pure a
  | error cause => exact follows_throw _

theorem follows_counted (n : Nat) : Follows Good Match (counted n : Run σ Nat) (counted n : Run τ Nat) := by
  unfold counted
  split
  · exact follows_pure n
  · exact follows_throw _

theorem Follows.bind {act : Run σ α} {act' : Run τ α} {f : α → Run σ β} {f' : α → Run τ β}
    (first : Follows Good Match act act') (next : ∀ a, Follows Good Match (f a) (f' a)) :
    Follows Good Match (act >>= f) (act' >>= f') := by
  intro s t
  obtain ⟨back, on⟩ := first s t
  rw [run_bind]
  match ran : act.run s with
  | (.error cause, s') =>
    rw [ran] at back on
    refine ⟨back, fun good matched => ?_⟩
    obtain ⟨same, after⟩ := on good matched
    rw [run_bind]
    match ran' : act'.run t with
    | (.error cause', t') =>
      rw [ran'] at same after
      cases same
      exact ⟨rfl, after⟩
    | (.ok a, t') =>
      rw [ran'] at same
      cases same
  | (.ok a, s') =>
    rw [ran] at back on
    refine ⟨fun good => back ((next a s' t).1 good), fun good matched => ?_⟩
    obtain ⟨same, after⟩ := on ((next a s' t).1 good) matched
    rw [run_bind]
    match ran' : act'.run t with
    | (.error cause', t') =>
      rw [ran'] at same
      cases same
    | (.ok a', t') =>
      rw [ran'] at same after
      cases same
      exact (next a s' t').2 good after

theorem Follows.discard {act : Run σ α} {act' : Run τ α} (follows : Follows Good Match act act') :
    Follows Good Match (Functor.discard act) (Functor.discard act') := by
  rw [discard_eq, discard_eq]
  exact follows.bind fun _ => follows_pure ()

theorem follows_forM {f : α → Run σ Unit} {f' : α → Run τ Unit}
    (each : ∀ a, Follows Good Match (f a) (f' a)) (items : List α) :
    Follows Good Match (items.forM f) (items.forM f') := by
  induction items with
  | nil => exact follows_pure ()
  | cons first rest ih => exact (each first).bind fun _ => ih

theorem follows_mapM {f : α → Run σ β} {f' : α → Run τ β}
    (each : ∀ a, Follows Good Match (f a) (f' a)) (items : List α) :
    Follows Good Match (items.mapM f) (items.mapM f') := by
  induction items with
  | nil => exact follows_pure []
  | cons first rest ih =>
    rw [List.mapM_cons, List.mapM_cons]
    exact (each first).bind fun _ => ih.bind fun _ => follows_pure _

-- What is done inside of a larger state is followed there, if the rest of the state stays.
theorem Follows.within {υ φ : Type} {act : Run σ α} {act' : Run τ α} {get : υ → σ} {set : σ → υ → υ}
    {get' : φ → τ} {set' : τ → φ → φ} {Whole : υ → φ → Prop} (follows : Follows Good Match act act')
    (own : ∀ s u, get (set s u) = s) (inner : ∀ u v, Whole u v → Match (get u) (get' v))
    (outer : ∀ s t u v, Whole u v → Match s t → Whole (set s u) (set' t v)) :
    Follows (fun u => Good (get u)) Whole (act.within get set) (act'.within get' set') := by
  intro u v
  obtain ⟨back, on⟩ := follows (get u) (get' v)
  have run : (act.within get set).run u = ((act.run (get u)).1, set (act.run (get u)).2 u) := rfl
  rw [run]
  dsimp only
  rw [own]
  refine ⟨back, fun good matched => ?_⟩
  obtain ⟨same, after⟩ := on good (inner u v matched)
  exact ⟨same, outer _ _ u v matched after⟩

end Follows

end Run

-- Every call of the first session is followed by that of the second one.
structure Session.Follows {σ τ : Type} (Good : σ → Prop) (Match : σ → τ → Prop) (session : Session σ)
    (session' : Session τ) : Prop where
  evaluate : ∀ s parameter, Run.Follows Good Match (session.evaluate s parameter)
    (session'.evaluate s parameter)
  batch : ∀ statements, Run.Follows Good Match (session.batch statements) (session'.batch statements)
  start : Run.Follows Good Match session.start session'.start
  commit : Run.Follows Good Match session.commit session'.commit
  rollback : Run.Follows Good Match session.rollback session'.rollback
  load : ∀ table columns rows, Run.Follows Good Match (session.load table columns rows)
    (session'.load table columns rows)
  query : ∀ columns name, Run.Follows Good Match (session.query columns name)
    (session'.query columns name)

namespace Running

variable {σ τ α β : Type} {Good : σ → Prop} {Match : σ → τ → Prop} {session : Session σ}
  {session' : Session τ}

def Matches (Match : σ → τ → Prop) (r : Running σ) (r' : Running τ) : Prop :=
  r'.cycle = r.cycle ∧ Match r.state r'.state

abbrev Follows (Good : σ → Prop) (Match : σ → τ → Prop) (act : Run (Running σ) α)
    (act' : Run (Running τ) α) : Prop :=
  Run.Follows (fun r => Good r.state) (Matches Match) act act'

theorem follows_inner {act : Run σ α} {act' : Run τ α} (follows : Run.Follows Good Match act act') :
    Follows Good Match (inner act) (inner act') :=
  follows.within (fun _ _ => rfl) (fun _ _ matched => matched.2) fun _ _ _ _ matched both =>
    ⟨matched.1, both⟩

theorem follows_count (f : Cycle → Cycle) :
    Follows Good Match (count f : Run (Running σ) Unit) (count f : Run (Running τ) Unit) :=
  fun _ _ => ⟨id, fun _ matched => ⟨rfl, congrArg f matched.1, matched.2⟩⟩

theorem follows_cycle {f : Running σ → Run (Running σ) β} {f' : Running τ → Run (Running τ) β}
    (next : ∀ c s t, Follows Good Match (f ⟨s, c⟩) (f' ⟨t, c⟩)) :
    Follows Good Match (get >>= f) (get >>= f') := by
  rintro ⟨s, c⟩ ⟨t, c'⟩
  refine ⟨(next c s t ⟨s, c⟩ ⟨t, c⟩).1, fun good matched => ?_⟩
  obtain ⟨rfl, after⟩ : c' = c ∧ Match s t := matched
  exact (next c' s t ⟨s, c'⟩ ⟨t, c'⟩).2 good ⟨rfl, after⟩

theorem follows_evaluateAll (follows : session.Follows Good Match session') (k : Int)
    (statements : List Statement) :
    Follows Good Match (evaluateAll session k statements) (evaluateAll session' k statements) := by
  induction statements with
  | nil => exact Run.follows_pure 0
  | cons s rest ih =>
    exact (follows_inner (follows.evaluate s (some k))).bind fun _ =>
      (follows_count _).bind fun _ => ih.bind fun _ => Run.follows_pure _

theorem follows_runGroup (follows : session.Follows Good Match session') (c : Compilation)
    (rules : List Rule) (k : Int) :
    Follows Good Match (runGroup session c rules k) (runGroup session' c rules k) := by
  refine (Run.follows_compiled _).bind fun statements => ?_
  refine (follows_evaluateAll follows k statements).bind fun changed => ?_
  refine (Run.follows_counted changed).bind fun changed => ?_
  refine follows_cycle fun _ _ _ => ?_
  exact (Run.follows_counted _).bind fun _ => (follows_count _).bind fun _ => Run.follows_pure _

theorem follows_clearPending (follows : session.Follows Good Match session') (c : Compilation)
    (name : String) :
    Follows Good Match (clearPending session c name) (clearPending session' c name) := by
  refine (Run.follows_compiled _).bind fun r => Run.follows_forM (fun kind => ?_) _
  exact (follows_inner (follows.evaluate _ none)).discard

theorem follows_untilStable {step : Int → Run (Running σ) Nat} {step' : Int → Run (Running τ) Nat}
    (each : ∀ k, Follows Good Match (step k) (step' k)) (stratum limit left : Nat) (k : Int) :
    Follows Good Match (untilStable stratum limit step left k)
      (untilStable stratum limit step' left k) := by
  induction left generalizing k with
  | zero => exact Run.follows_throw _
  | succ left ih =>
    refine (follows_count _).bind fun _ => (each k).bind fun changed => ?_
    split
    · exact Run.follows_pure ()
    · exact ih (k + 1)

end Running

namespace Machine

variable {σ τ : Type} {Good : σ → Prop} {Match : σ → τ → Prop} {m : Machine σ} {m' : Machine τ}

structure Follows (Good : σ → Prop) (Match : σ → τ → Prop) (m : Machine σ) (m' : Machine τ) : Prop where
  limit : m'.limit = m.limit
  group : ∀ rules k, Running.Follows Good Match (m.runGroup rules k) (m'.runGroup rules k)
  clear : ∀ name, Running.Follows Good Match (m.clearPending name) (m'.clearPending name)

namespace Follows

variable (follows : m.Follows Good Match m')

include follows

theorem fixpoint {step : Int → Run (Running σ) Nat} {step' : Int → Run (Running τ) Nat}
    (each : ∀ k, Running.Follows Good Match (step k) (step' k)) (stratum : Nat) (start : Int) :
    Running.Follows Good Match (m.fixpoint stratum start step) (m'.fixpoint stratum start step') := by
  rw [Machine.fixpoint, Machine.fixpoint, follows.limit]
  exact Running.follows_untilStable each _ _ _ _

theorem runDeletion (s : DeletionStratum) :
    Running.Follows Good Match (m.runDeletion s) (m'.runDeletion s) := by
  refine (follows.group _ _).discard.bind fun _ => ?_
  split
  · exact (follows.fixpoint (follows.group _) _ _).bind fun _ =>
      follows.fixpoint (fun _ => follows.group _ _) _ _
  · exact (follows.group _ _).discard.bind fun _ => (follows.group _ _).discard

theorem insertionRound (s : InsertionStratum) (k : Int) :
    Running.Follows Good Match (m.insertionRound s k) (m'.insertionRound s k) := by
  refine (follows.group _ _).bind fun changed => ?_
  simp only
  split
  · exact (follows.group _ _).discard.bind fun _ => Run.follows_pure _
  · exact Run.follows_pure _

theorem runInsertion (s : InsertionStratum) :
    Running.Follows Good Match (m.runInsertion s) (m'.runInsertion s) := by
  refine (follows.group _ _).discard.bind fun _ => ?_
  split
  · exact (follows.group _ _).discard.bind fun _ => follows.fixpoint (follows.insertionRound s) _ _
  · exact (follows.group _ _).discard.bind fun _ => (follows.group _ _).discard

theorem runProgram (program : Maintenance) :
    Running.Follows Good Match (m.runProgram program) (m'.runProgram program) :=
  (Run.follows_forM follows.runDeletion _).bind fun _ => (follows.group _ _).discard.bind fun _ =>
    (Run.follows_forM follows.runInsertion _).bind fun _ => Run.follows_forM follows.clear _

end Follows

end Machine

section Cycle

variable {σ τ : Type} {Good : σ → Prop} {Match : σ → τ → Prop} {session : Session σ}
  {session' : Session τ}

theorem follows_machine (follows : session.Follows Good Match session') (c : Compilation) :
    (Running.machine session c).Follows Good Match (Running.machine session' c) where
  limit := rfl
  group := Running.follows_runGroup follows c
  clear := Running.follows_clearPending follows c

theorem follows_runCycle (follows : session.Follows Good Match session') (c : Compilation) :
    Run.Follows Good Match (c.runCycle session) (c.runCycle session') := by
  intro s t
  rw [Compilation.run_runCycle, Compilation.run_runCycle]
  cases compiled : c.maintenance with
  | none => exact ⟨id, fun _ matched => ⟨rfl, matched⟩⟩
  | some m =>
    obtain ⟨back, on⟩ := (follows_machine follows c).runProgram m ⟨s, {}⟩ ⟨t, {}⟩
    refine ⟨back, fun good matched => ?_⟩
    obtain ⟨same, cycle, after⟩ := on good ⟨rfl, matched⟩
    exact ⟨congrArg₂ (fun result (cycle : Cycle) => Except.map (fun _ => cycle) result) same cycle, after⟩

end Cycle

namespace Engine

variable {σ τ α β : Type} {Good : σ → Prop} {Match : σ → τ → Prop} {session : Session σ}
  {session' : Session τ}

def Matches (Match : σ → τ → Prop) (e : Engine σ) (e' : Engine τ) : Prop :=
  e'.compilation = e.compilation ∧ Match e.state e'.state

abbrev Follows (Good : σ → Prop) (Match : σ → τ → Prop) (act : Act σ α) (act' : Act τ α) : Prop :=
  Run.Follows (fun e => Good e.state) (Matches Match) act act'

section Follows

theorem follows_call {act : Run σ α} {act' : Run τ α} (follows : Run.Follows Good Match act act') :
    Follows Good Match (call act) (call act') :=
  follows.within (fun _ _ => rfl) (fun _ _ matched => matched.2) fun _ _ _ _ matched both =>
    ⟨matched.1, both⟩

theorem follows_outcome {act : Act σ α} {act' : Act τ α} (follows : Follows Good Match act act') :
    Follows Good Match (outcome act) (outcome act') := by
  intro e e'
  obtain ⟨back, on⟩ := follows e e'
  refine ⟨back, fun good matched => ?_⟩
  obtain ⟨same, after⟩ := on good matched
  exact ⟨congrArg Except.ok same, after⟩

theorem follows_recompile (f : Compilation → Compilation × Compiled Unit) :
    Follows Good Match (recompile f : Act σ Compilation) (recompile f : Act τ Compilation) := by
  intro e e'
  rw [run_recompile, run_recompile]
  refine ⟨id, fun _ matched => ?_⟩
  rw [matched.1]
  exact ⟨rfl, rfl, matched.2⟩

theorem follows_compilation {f : Engine σ → Act σ β} {f' : Engine τ → Act τ β}
    (next : ∀ c s t, Follows Good Match (f ⟨c, s⟩) (f' ⟨c, t⟩)) :
    Follows Good Match (get >>= f) (get >>= f') := by
  rintro ⟨c, s⟩ ⟨c', t⟩
  refine ⟨(next c s t ⟨c, s⟩ ⟨c, t⟩).1, fun good matched => ?_⟩
  obtain ⟨rfl, after⟩ : c' = c ∧ Match s t := matched
  exact (next c' s t ⟨c', s⟩ ⟨c', t⟩).2 good ⟨rfl, after⟩

theorem follows_runRule (follows : session.Follows Good Match session') (c : Compilation) (r : Rule) :
    Follows Good Match (runRule session c r) (runRule session' c r) := by
  refine (Run.follows_compiled _).bind fun statements => ?_
  refine (Run.follows_mapM (fun s => ?_) statements).bind fun changes => ?_
  · exact follows_call (follows.evaluate s none)
  exact (Run.follows_counted _).discard

theorem follows_cancel (follows : session.Follows Good Match session') (c : Compilation) (r : Relation)
    (tuple : List Literal) :
    Follows Good Match (cancel session c r tuple) (cancel session' c r tuple) := by
  unfold cancel
  split
  · exact (Run.follows_compiled _).bind fun row => (follows_call (follows.evaluate _ none)).discard
  · exact (Run.follows_compiled _).bind fun rule => follows_runRule follows c _

theorem follows_transaction {act : Act σ α} {act' : Act τ α}
    (follows : session.Follows Good Match session') (inside : Follows Good Match act act') :
    Follows Good Match (transaction session act) (transaction session' act') := by
  refine (follows_call follows.start).bind fun _ => (follows_outcome inside).bind fun outcome => ?_
  cases outcome with
  | ok a => exact (follows_call follows.commit).bind fun _ => Run.follows_pure a
  | error cause => exact (follows_call follows.rollback).bind fun _ => Run.follows_throw cause

theorem follows_startOver (follows : session.Follows Good Match session') (c : Compilation)
    (m : Maintenance) : Follows Good Match (startOver session c m) (startOver session' c m) := by
  refine (Run.follows_compiled _).bind fun relations => ?_
  refine (Run.follows_forM (follows_runRule follows c) m.reset).bind fun _ => ?_
  exact Run.follows_forM (fun r => (follows_call (follows.evaluate _ none)).discard) relations

theorem follows_update (follows : session.Follows Good Match session') :
    Follows Good Match (update session) (update session') :=
  (follows_recompile _).bind fun c =>
    follows_transaction follows (follows_call (follows_runCycle follows c))

theorem follows_recompute (follows : session.Follows Good Match session') :
    Follows Good Match (recompute session) (recompute session') := by
  refine (follows_update follows).discard.bind fun _ =>
    follows_compilation fun c _ _ => follows_transaction follows ?_
  cases c.maintenance with
  | none => exact Run.follows_pure ({} : Cycle)
  | some m =>
    exact (follows_startOver follows c m).bind fun _ => follows_call (follows_runCycle follows c)

theorem follows_contents (follows : session.Follows Good Match session') (name : String) :
    Follows Good Match (contents session name) (contents session' name) := by
  refine follows_compilation fun c _ _ => (Run.follows_compiled _).bind fun r => ?_
  split
  · exact (follows_call (follows.query _ _)).bind fun rows => Run.follows_pure _
  · exact Run.follows_throw _

-- Whatever an engine is asked, an engine whose session follows does the same.
theorem follows_perform (follows : session.Follows Good Match session') (request : Request) :
    Follows Good Match (perform session request) (perform session' request) := by
  cases request with
  | exchange trust => exact (follows_recompile _).discard
  | maintenance => exact (follows_recompile _).discard
  | schema =>
    exact (follows_recompile _).bind fun c => (Run.follows_compiled _).bind fun statements =>
      follows_call (follows.batch statements)
  | program => exact ((follows_recompile _).bind fun c => Run.follows_compiled _).discard
  | insert name tuple =>
    exact (follows_recompile _).bind fun c => (Run.follows_compiled _).bind fun r =>
      (Run.follows_compiled _).bind fun rule => follows_runRule follows c rule
  | delete name tuple =>
    exact (follows_recompile _).bind fun c => (Run.follows_compiled _).bind fun r =>
      (Run.follows_compiled _).bind fun rule => (follows_runRule follows c rule).bind fun _ =>
        follows_cancel follows c r tuple
  | load name tuples =>
    exact ((follows_recompile _).bind fun c => (Run.follows_compiled _).bind fun r =>
      (Run.follows_compiled _).bind fun rows => follows_call (follows.load _ _ rows)).discard
  | update => exact (follows_update follows).discard
  | recompute => exact (follows_recompute follows).discard

end Follows

end Engine

-- What is said to a session that an archive has to read.
inductive Message where
  | evaluate (s : Statement)
  | batch (statements : List Statement)
  | load (table : String) (columns : List String)
  | query (columns : List String) (name : String)

def plainColumns (columns : List String) : Bool :=
  !columns.isEmpty && columns.all fun c => Sql.plainName c && (Sql.Syntax.truth? c).isNone

-- A message whose text can be read back, and which an archive can carry out.
def Message.IsClear (called : String → Prop) : Message → Prop
  | evaluate s => s.IsSendable called ∧ s.isLegible = true
  | batch statements => (∀ s ∈ statements, s.IsSendable called) ∧ ∀ s ∈ statements, s.isLegible = true
  | load table columns => Sql.plainTable table = true ∧ plainColumns columns = true ∧
    Sql.isFreeName table = true ∧ Statement.freeNames columns = true
  | query columns name => Sql.plainTable name = true ∧ plainColumns columns = true ∧
    Sql.isFreeName name = true ∧ Statement.freeNames columns = true

instance Message.decidableIsClear (called : String → Prop) [DecidablePred called] :
    (m : Message) → Decidable (m.IsClear called)
  | evaluate _ => inferInstanceAs (Decidable (_ ∧ _))
  | batch _ => inferInstanceAs (Decidable (_ ∧ _))
  | load _ _ => inferInstanceAs (Decidable (_ ∧ _))
  | query _ _ => inferInstanceAs (Decidable (_ ∧ _))

-- A session with all that was said to it.
structure Heard (σ : Type) where
  state : σ
  messages : List Message := []

namespace Heard

variable {σ α : Type}

def heard (messages : List Message) (r : Run σ α) : Run (Heard σ) α :=
  ExceptT.mk fun h =>
    let (result, s) := r.run h.state
    (result, ⟨s, h.messages ++ messages⟩)

def session (inside : Session σ) : Session (Heard σ) where
  evaluate s parameter := heard [.evaluate s] (inside.evaluate s parameter)
  batch statements := heard [.batch statements] (inside.batch statements)
  start := heard [] inside.start
  commit := heard [] inside.commit
  rollback := heard [] inside.rollback
  load table columns rows := heard [.load table columns] (inside.load table columns rows)
  query columns name := heard [.query columns name] (inside.query columns name)

def IsClear (called : String → Prop) (h : Heard σ) : Prop := ∀ m ∈ h.messages, m.IsClear called

instance (called : String → Prop) [DecidablePred called] (h : Heard σ) : Decidable (h.IsClear called) :=
  inferInstanceAs (Decidable (∀ m ∈ h.messages, m.IsClear called))

-- A call is followed if it is where what is said is clear.
theorem follows_heard {τ : Type} {called : String → Prop} {Match : σ → τ → Prop} {messages : List Message}
    {act : Run σ α} {act' : Run τ α}
    (follows : (∀ m ∈ messages, m.IsClear called) → ∀ s t, Match s t →
      (act'.run t).1 = (act.run s).1 ∧ Match (act.run s).2 (act'.run t).2) :
    Run.Follows (IsClear called) (fun h t => Match h.state t) (heard messages act) act' := by
  intro h t
  have run : (heard messages act).run h =
      ((act.run h.state).1, ⟨(act.run h.state).2, h.messages ++ messages⟩) := rfl
  rw [run]
  refine ⟨fun clear => (List.forall_mem_append.mp clear).1, fun clear matched => ?_⟩
  exact follows (List.forall_mem_append.mp clear).2 h.state t matched

end Heard

namespace Textual

variable {called : String → Prop} {store : Store} {t : Textual}

structure Mirrors (called : String → Prop) (store : Store) (t : Textual) : Prop where
  archive : t.archive.Mirrors called store.database
  saved : Option.Rel (fun db a => Archive.Mirrors called db a) store.saved t.saved
  access : t.access = .full

theorem fresh_mirrors : ({} : Textual).Mirrors called {} where
  archive := ⟨rfl, fun _ => rfl, fun _ _ found => by cases found⟩
  saved := .none
  access := rfl

-- What a store does with a change of its database, or with its failure.
def kept (store : Store) : Except Fault (Database × Nat) → Except RunError Nat × Store
  | .ok (database, count) => (.ok count, { store with database := database })
  | .error fault => (.error (Store.toError fault), store)

theorem run_evaluate (store : Store) (s : Statement) (parameter : Option Int) :
    (Store.evaluate s parameter).run store =
      kept store (store.database.execute (parameter.getD 0) s) := by
  change (match store.database.execute (parameter.getD 0) s with
    | .ok (database, changed) => _
    | .error fault => _ : Run Store Nat).run store = _
  cases store.database.execute (parameter.getD 0) s <;> rfl

theorem run_load (store : Store) (table : String) (columns : List String) (rows : List Sql.Row) :
    (Store.load table columns rows).run store = kept store (store.database.load table columns rows) := by
  change (match store.database.load table columns rows with
    | .ok (database, count) => _
    | .error fault => _ : Run Store Nat).run store = _
  cases store.database.load table columns rows <;> rfl

theorem change_mirrors {f : Archive → Except Fault (Archive × Nat)} {r : Except Fault (Database × Nat)}
    (alike : Archive.Alike called r (f t.archive)) (mirrors : t.Mirrors called store) :
    ((change f).run t).1 = (kept store r).1 ∧
      ((change f).run t).2.Mirrors called (kept store r).2 := by
  have run : (change f).run t = match f t.archive with
      | .ok (archive, count) => (.ok count, { t with archive := archive })
      | .error fault => (.error (.ofFailure (.failed fault.code fault.message)), t) := by
    unfold change
    rw [Run.run_get_bind, mirrors.access]
    cases f t.archive <;> rfl
  rw [run]
  generalize f t.archive = made at alike
  cases alike with
  | refused code => exact ⟨by simp only [code]; rfl, mirrors⟩
  | done after => exact ⟨rfl, after, mirrors.saved, mirrors.access⟩

theorem evaluate_mirrors {s : Statement} {parameter : Option Int}
    (sendable : s.IsSendable called) (read : Sql.Reads (trimmed s.render) s.written)
    (mirrors : t.Mirrors called store) :
    ((evaluate s parameter).run t).1 = ((Store.evaluate s parameter).run store).1 ∧
      ((evaluate s parameter).run t).2.Mirrors called ((Store.evaluate s parameter).run store).2 := by
  rw [run_evaluate]
  refine change_mirrors ?_ mirrors
  rw [Archive.evaluate, read t.archive]
  exact Archive.execute_alike mirrors.archive _ sendable

theorem load_mirrors {table : String} {columns : List String} {rows : List Sql.Row}
    (tabled : Sql.plainTable table = true) (plain : plainColumns columns = true)
    (read : Sql.Reads (trimmed (Sql.loadText table columns))
      (.insert table columns (.values (columns.map fun _ => .parameter))))
    (mirrors : t.Mirrors called store) :
    ((load table columns rows).run t).1 = ((Store.load table columns rows).run store).1 ∧
      ((load table columns rows).run t).2.Mirrors called ((Store.load table columns rows).run store).2 := by
  rw [run_load]
  refine change_mirrors ?_ mirrors
  simp only [plainColumns, Bool.and_eq_true, Bool.not_eq_true', List.all_eq_true] at plain
  have named : columns.all Sql.plainName = true :=
    List.all_eq_true.mpr fun c inside => (plain.2 c inside).1
  rw [Archive.load, read t.archive, Database.load, plain.1, if_neg Bool.false_ne_true]
  have opened (s : Sql.Syntax.Statement) (f : Option Sql.Syntax.Statement → Except Fault (Archive × Nat)) :
      (Except.ok (some s) >>= f) = f (some s) := rfl
  rw [opened]
  dsimp only
  rw [Archive.filled_eq mirrors.archive tabled named]
  rcases Archive.target_cases store.database table with ⟨fault, code, target⟩ | ⟨own, found, target⟩
  · rw [target]
    exact .refused code
  · rw [target]
    change Archive.Alike called (own.checkColumns table columns >>= _)
      ((own.checkColumns table columns >>= fun _ => .ok own.folded) >>= _)
    rcases Archive.checkColumns_cases own table columns with ⟨fault, code, checked⟩ | checked
    · rw [checked]
      exact .refused code
    · rw [checked]
      have added :=
        Archive.done_insertRows mirrors.archive (Bool.and_eq_true_iff.mp tabled).1 named found rows
      have width : Archive.checkWidth (Sql.Syntax.InsertSource.values
          (columns.map fun _ => .parameter)).width columns = .ok () :=
        if_pos (List.length_map _)
      change Archive.Alike called _ (Archive.checkWidth _ columns >>= _)
      rw [width, mirrors.archive.tables]
      exact added

theorem query_mirrors {columns : List String} {name : String} (tabled : Sql.plainTable name = true)
    (plain : plainColumns columns = true)
    (read : Sql.Reads (Sql.readText columns name) (.select (Archive.reader columns name)))
    (mirrors : t.Mirrors called store) :
    ((query columns name).run t).1 = ((Store.query columns name).run store).1 ∧
      ((query columns name).run t).2.Mirrors called ((Store.query columns name).run store).2 := by
  simp only [plainColumns, Bool.and_eq_true, Bool.not_eq_true'] at plain
  obtain ⟨same, code⟩ := Archive.select_alike mirrors.archive tabled plain.2 plain.1
  have shown : t.archive.query (Sql.readText columns name) = store.database.read columns name := by
    simp only [Archive.query, read t.archive, bind, Except.bind, Archive.sizeFault_reader, same]
  have run : (query columns name).run t =
      ((t.archive.query (Sql.readText columns name)).mapError
        fun fault => .ofFailure (.failed fault.code fault.message), t) := by
    unfold query
    rw [Run.run_get_bind]
    cases t.archive.query (Sql.readText columns name) <;> rfl
  have runStore : (Store.query columns name).run store =
      ((store.database.read columns name).mapError Store.toError, store) := by
    unfold Store.query
    rw [Run.run_get_bind]
    cases store.database.read columns name <;> rfl
  rw [run, runStore, shown]
  refine ⟨?_, mirrors⟩
  cases ran : store.database.read columns name with
  | ok rows => rfl
  | error fault =>
    simp only [Except.mapError, code fault ran]
    rfl

def evaluateAll (statements : List Statement) : Run Store Unit :=
  statements.forM fun s => discard (Store.evaluate s none)

theorem run_evaluateAll (store : Store) (s : Statement) (rest : List Statement) :
    (evaluateAll (s :: rest)).run store = match store.database.execute 0 s with
      | .ok (database, _) => (evaluateAll rest).run { store with database := database }
      | .error fault => (.error (Store.toError fault), store) := by
  change (discard (Store.evaluate s none) >>= fun _ => evaluateAll rest).run store = _
  rw [Run.run_discard_bind, run_evaluate, Option.getD_none]
  cases store.database.execute 0 s <;> rfl

-- Statements that are read off a text go as they do one after the other.
theorem runAll_mirrors {statements : List Statement} {tokens : List Token} {a : Archive} {steps : Nat}
    (reads : Sql.ReadsAll tokens (statements.map Statement.written)) (enough : statements.length ≤ steps)
    (sendable : ∀ s ∈ statements, s.IsSendable called) (mirrors : a.Mirrors called store.database) :
    ((evaluateAll statements).run store).1 = (Archive.runAll steps tokens a).2.mapError Store.toError ∧
      (∀ fault, (Archive.runAll steps tokens a).2 = .error fault → fault.code = 1) ∧
      (Archive.runAll steps tokens a).1.Mirrors called ((evaluateAll statements).run store).2.database ∧
      ((evaluateAll statements).run store).2.saved = store.saved := by
  induction statements generalizing tokens a steps store with
  | nil =>
    have stopped : Archive.runAll steps tokens a = (a, .ok ()) := by
      cases steps with
      | zero => rfl
      | succ steps =>
        cases reads with
        | none ended => rw [Archive.runAll, ended]
    rw [stopped]
    exact ⟨rfl, fun _ impossible => (by cases impossible), mirrors, rfl⟩
  | cons s rest ih =>
    obtain ⟨own, later⟩ := List.forall_mem_cons.mp sendable
    cases steps with
    | zero => cases enough
    | succ steps =>
      cases reads with
      | @next _ left _ _ first others =>
        have alike := Archive.execute_alike (k := 0) mirrors (Archive.spelled tokens left) own
        rw [run_evaluateAll, Archive.runAll, first]
        dsimp only
        generalize store.database.execute 0 s = r at alike
        generalize a.execute 0 s.written (Archive.spelled tokens left) = made at alike
        cases alike with
        | refused code =>
          refine ⟨rfl, fun _ same => ?_, mirrors, rfl⟩
          cases same
          exact code
        | done after => exact ih others (Nat.le_of_succ_le_succ enough) later after

theorem run_batch (full : t.access = .full) (statements : List Statement) :
    (batch statements).run t =
      ((t.archive.batch (";\n".intercalate (statements.map Statement.render))).2.mapError
          fun fault => .ofFailure (.failed fault.code fault.message),
        { t with
          archive := (t.archive.batch (";\n".intercalate (statements.map Statement.render))).1 }) := by
  obtain ⟨archive, saved, access⟩ := t
  cases full
  -- Without a name for what the archive answers, unification would start to run it.
  generalize text : ";\n".intercalate (statements.map Statement.render) = sent
  unfold batch
  rw [Run.run_get_bind, text]
  dsimp only
  generalize archive.batch sent = ran
  obtain ⟨after, result⟩ := ran
  cases result <;> rfl

theorem batch_mirrors {statements : List Statement} (clear : (Message.batch statements).IsClear called)
    (mirrors : t.Mirrors called store) :
    ((batch statements).run t).1 = ((Store.session.batch statements).run store).1 ∧
      ((batch statements).run t).2.Mirrors called ((Store.session.batch statements).run store).2 := by
  obtain ⟨sendable, legible⟩ := clear
  obtain ⟨enough, reads⟩ := Statement.readsAll_render legible
  obtain ⟨same, code, after, saved⟩ := runAll_mirrors reads enough sendable mirrors.archive
  have store_runs : Store.session.batch statements = evaluateAll statements := rfl
  rw [run_batch mirrors.access, store_runs, Archive.batch]
  generalize Archive.runAll _ _ t.archive = ran at same code after
  obtain ⟨a, result⟩ := ran
  refine ⟨?_, after, ?_, mirrors.access⟩
  · rw [same]
    cases result with
    | ok => rfl
    | error fault =>
      simp only [Except.mapError, code fault rfl]
      rfl
  · rw [saved]
    exact mirrors.saved

theorem start_mirrors (mirrors : t.Mirrors called store) :
    (start.run t).1 = (Store.start.run store).1 ∧
      (start.run t).2.Mirrors called (Store.start.run store).2 := by
  obtain ⟨database, saved⟩ := store
  obtain ⟨archive, saved', access⟩ := t
  obtain ⟨same, kept, full⟩ := mirrors
  cases kept with
  | none => exact ⟨rfl, same, .some same, full⟩
  | some before => exact ⟨rfl, same, .some before, full⟩

theorem commit_mirrors (mirrors : t.Mirrors called store) :
    (commit.run t).1 = (Store.commit.run store).1 ∧
      (commit.run t).2.Mirrors called (Store.commit.run store).2 := by
  obtain ⟨database, saved⟩ := store
  obtain ⟨archive, saved', access⟩ := t
  obtain ⟨same, kept, full⟩ := mirrors
  cases kept with
  | none => exact ⟨rfl, same, .none, full⟩
  | some before => exact ⟨rfl, same, .none, full⟩

theorem rollback_mirrors (mirrors : t.Mirrors called store) :
    (rollback.run t).1 = (Store.rollback.run store).1 ∧
      (rollback.run t).2.Mirrors called (Store.rollback.run store).2 := by
  obtain ⟨database, saved⟩ := store
  obtain ⟨archive, saved', access⟩ := t
  obtain ⟨same, kept, full⟩ := mirrors
  cases kept with
  | none => exact ⟨rfl, same, .none, full⟩
  | some before => exact ⟨rfl, before, .none, full⟩

-- As long as what is said is clear, speaking to an archive is no different from executing statements.
theorem session_follows :
    (Heard.session Store.session).Follows (Heard.IsClear called) (fun h t => t.Mirrors called h.state)
      session where
  evaluate s parameter := by
    change Run.Follows _ _ (Heard.heard [.evaluate s] (Store.evaluate s parameter)) (evaluate s parameter)
    refine Heard.follows_heard fun clear _ _ mirrors => ?_
    obtain ⟨sendable, legible⟩ := clear _ (List.mem_singleton_self _)
    exact evaluate_mirrors sendable (Statement.reads_render legible) mirrors
  batch statements := by
    change Run.Follows _ _ (Heard.heard [.batch statements] (Store.session.batch statements))
      (batch statements)
    exact Heard.follows_heard fun clear _ _ mirrors =>
      batch_mirrors (clear _ (List.mem_singleton_self _)) mirrors
  start := by
    change Run.Follows _ _ (Heard.heard [] Store.start) start
    exact Heard.follows_heard fun _ _ _ mirrors => start_mirrors mirrors
  commit := by
    change Run.Follows _ _ (Heard.heard [] Store.commit) commit
    exact Heard.follows_heard fun _ _ _ mirrors => commit_mirrors mirrors
  rollback := by
    change Run.Follows _ _ (Heard.heard [] Store.rollback) rollback
    exact Heard.follows_heard fun _ _ _ mirrors => rollback_mirrors mirrors
  load table columns rows := by
    change Run.Follows _ _ (Heard.heard [.load table columns] (Store.load table columns rows))
      (load table columns rows)
    refine Heard.follows_heard fun clear _ _ mirrors => ?_
    obtain ⟨tabled, plain, free, named⟩ := clear _ (List.mem_singleton_self _)
    exact load_mirrors tabled plain (Sql.reads_loadText free named) mirrors
  query columns name := by
    change Run.Follows _ _ (Heard.heard [.query columns name] (Store.query columns name))
      (query columns name)
    refine Heard.follows_heard fun clear _ _ mirrors => ?_
    obtain ⟨tabled, plain, free, named⟩ := clear _ (List.mem_singleton_self _)
    exact query_mirrors tabled plain (Sql.reads_readText free named) mirrors

end Textual

namespace Engine

variable {σ τ : Type} {Good : σ → Prop} {Match : σ → τ → Prop} {session : Session σ}
  {session' : Session τ}

inductive Question where
  | perform (request : Request)
  | contents (name : String)

def ask (session : Session σ) : Question → Act σ (List (List Literal))
  | .perform request => do
    perform session request
    return []
  | .contents name => contents session name

-- The answers to questions, and the engine after them, whichever of them failed.
def answers (session : Session σ) : List Question → Engine σ →
    List (Except RunError (List (List Literal))) × Engine σ
  | [], e => ([], e)
  | question :: rest, e =>
    let (answer, e) := (ask session question).run e
    let (others, e) := answers session rest e
    (answer :: others, e)

theorem follows_ask (follows : session.Follows Good Match session') (question : Question) :
    Follows Good Match (ask session question) (ask session' question) := by
  cases question with
  | perform request => exact (follows_perform follows request).bind fun _ => Run.follows_pure []
  | contents name => exact follows_contents follows name

-- Whatever an engine is asked, an engine whose session follows gives the same answers.
theorem follows_answers (follows : session.Follows Good Match session') (questions : List Question)
    (e : Engine σ) (e' : Engine τ) :
    (Good (answers session questions e).2.state → Good e.state) ∧
      (Good (answers session questions e).2.state → Matches Match e e' →
        (answers session' questions e').1 = (answers session questions e).1 ∧
          Matches Match (answers session questions e).2 (answers session' questions e').2) := by
  induction questions generalizing e e' with
  | nil => exact ⟨id, fun _ matched => ⟨rfl, matched⟩⟩
  | cons question rest ih =>
    obtain ⟨back, on⟩ := follows_ask follows question e e'
    obtain ⟨backRest, onRest⟩ := ih ((ask session question).run e).2 ((ask session' question).run e').2
    refine ⟨fun good => back (backRest good), fun good matched => ?_⟩
    obtain ⟨same, after⟩ := on (backRest good) matched
    obtain ⟨others, ended⟩ := onRest good after
    exact ⟨congrArg₂ List.cons same others, ended⟩

theorem follows_unheard (inside : Session σ) :
    (Heard.session inside).Follows (fun _ => True) (fun h s => h.state = s) inside := by
  have plain {α : Type} (messages : List Message) (act : Run σ α) :
      Run.Follows (fun _ => True) (fun h s => h.state = s) (Heard.heard messages act) act := by
    refine fun h s => ⟨fun _ => trivial, ?_⟩
    rintro - rfl
    exact ⟨rfl, rfl⟩
  exact ⟨fun s _ => plain [.evaluate s] _, fun statements => plain [.batch statements] _, plain [] _,
    plain [] _, plain [] _, fun table columns _ => plain [.load table columns] _,
    fun columns name => plain [.query columns name] _⟩

-- An engine on a store and one on an archive that mirrors it, asked the same, give the same answers,
-- and the archive goes on mirroring the store, as long as all that is said is clear.
theorem spoken_answers {called : String → Prop} {store : Store} {t : Textual}
    (mirrors : t.Mirrors called store) (c : Compilation) (questions : List Question)
    (clear : (answers (Heard.session Store.session) questions ⟨c, ⟨store, []⟩⟩).2.state.IsClear called) :
    (answers Textual.session questions ⟨c, t⟩).1 = (answers Store.session questions ⟨c, store⟩).1 ∧
      Matches (fun store t => t.Mirrors called store) (answers Store.session questions ⟨c, store⟩).2
        (answers Textual.session questions ⟨c, t⟩).2 := by
  obtain ⟨-, spoken⟩ := follows_answers (@Textual.session_follows called) questions
    ⟨c, ⟨store, []⟩⟩ ⟨c, t⟩
  obtain ⟨-, unheard⟩ := follows_answers (follows_unheard Store.session) questions ⟨c, ⟨store, []⟩⟩
    ⟨c, store⟩
  obtain ⟨same, compiled, mirrored⟩ := spoken clear ⟨rfl, mirrors⟩
  obtain ⟨own, kept, state⟩ := unheard trivial ⟨rfl, rfl⟩
  exact ⟨same.trans own.symm, compiled.trans kept.symm, state ▸ mirrored⟩

-- All that is said on the way of one tuple into its relation is clear.
example : (do
    let program ← (Program.parse "peer A { relation R(a: int); }").toOption
    let c ← (Compilation.ofCatalog program.catalog {}).toOption
    let (found, e) := answers (Heard.session Store.session)
      [.perform .schema, .perform (.insert "R" [.integer 1]), .perform .update, .contents "R"] ⟨c, ⟨{}, []⟩⟩
    return decide (e.state.IsClear fun _ => False) &&
      found.getLast?.any (·.toOption = some [[.integer 1]])) = some true := by
  decide +kernel

end Engine

end PeerExchange
