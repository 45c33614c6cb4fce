import PeerExchange.Proofs.EditedRelations
import PeerExchange.Session.Scripted

namespace PeerExchange

namespace Engine

variable {σ α β : Type} {P : Compilation → Prop} {e : Engine σ}

def Keeps (P : Compilation → Prop) (act : Act σ α) : Prop :=
  Run.Preserves (fun e => P e.compilation) act

section Keeps

theorem keeps_call (r : Run σ α) : Keeps P (call r) := fun _ had => ⟨had, fun _ _ => trivial⟩

theorem preserves_outcome {P : Engine σ → Prop} {act : Act σ α} (preserves : Run.Preserves P act) :
    Run.Preserves P (outcome act) :=
  fun e had => ⟨(preserves e had).1, fun _ _ => trivial⟩

theorem run_recompile (f : Compilation → Compilation × Compiled Unit) (e : Engine σ) :
    (recompile f).run e = ((f e.compilation).2.mapError .compile |>.map fun _ => (f e.compilation).1,
      { e with compilation := (f e.compilation).1 }) := by
  have tail (outcome : Compiled Unit) (c : Compilation) :
      (Run.ofCompiled outcome >>= fun _ => pure c : Act σ Compilation).run
        { e with compilation := c } =
      (outcome.mapError .compile |>.map fun _ => c, { e with compilation := c }) := by
    cases outcome <;> rfl
  exact tail _ _

theorem keeps_recompile {f : Compilation → Compilation × Compiled Unit}
    (kept : ∀ c, P c → P (f c).1) : Keeps P (recompile f : Act σ Compilation) := by
  intro e had
  rw [run_recompile]
  exact ⟨kept _ had, fun _ _ => trivial⟩

end Keeps

-- What an engine can be asked to do that compiles, edits or runs something.
inductive Request where
  | exchange (trust : TrustPolicy)
  | maintenance
  | schema
  | program
  | insert (name : String) (tuple : List Literal)
  | delete (name : String) (tuple : List Literal)
  | load (name : String) (tuples : List (List Literal))
  | update
  | recompute

def perform (session : Session σ) : Request → Act σ Unit
  | .exchange trust => discard (exchangeUnder trust)
  | .maintenance => discard maintained
  | .schema => createSchema session
  | .program => discard programSql
  | .insert name tuple => insert session name tuple
  | .delete name tuple => delete session name tuple
  | .load name tuples => discard (load session name tuples)
  | .update => discard (update session)
  | .recompute => discard (recompute session)

-- The engine after requests, of which any may have failed.
def after (session : Session σ) (requests : List Request) (e : Engine σ) : Engine σ :=
  requests.foldl (fun e request => ((perform session request).run e).2) e

section Requests

variable {session : Session σ}

theorem keeps_runRule (c : Compilation) (r : Rule) : Keeps P (runRule session c r) :=
  (Run.keeps_compiled _).bind fun _ _ => (Run.preserves_mapM fun _ _ => keeps_call _).bind fun _ _ =>
    (Run.preserves_counted _).discard

theorem keeps_cancel (c : Compilation) (r : Relation) (tuple : List Literal) :
    Keeps P (cancel session c r tuple) := by
  unfold cancel
  split
  · exact (Run.keeps_compiled _).bind fun _ _ => (keeps_call _).discard
  · exact (Run.keeps_compiled _).bind fun _ _ => keeps_runRule c _

theorem preserves_transaction {P : Engine σ → Prop} {act : Act σ α}
    (start : Run.Preserves P (call session.start)) (commit : Run.Preserves P (call session.commit))
    (rollback : Run.Preserves P (call session.rollback)) (preserves : Run.Preserves P act) :
    Run.Preserves P (transaction session act) := by
  refine start.bind fun _ _ => (preserves_outcome preserves).bind fun outcome _ => ?_
  cases outcome with
  | ok a => exact commit.bind fun _ _ => Run.keeps_pure trivial
  | error cause => exact rollback.bind fun _ _ => Run.keeps_throw cause

theorem keeps_transaction {act : Act σ α} (keeps : Keeps P act) : Keeps P (transaction session act) :=
  preserves_transaction (keeps_call _) (keeps_call _) (keeps_call _) keeps

theorem keeps_startOver (c : Compilation) (m : Maintenance) : Keeps P (startOver session c m) :=
  (Run.keeps_compiled _).bind fun _ _ => (Run.preserves_forM fun r _ => keeps_runRule c r).bind fun _ _ =>
    Run.preserves_forM fun _ _ => (keeps_call _).discard

theorem preserves_after {P : Engine σ → Prop} {requests : List Request}
    (each : ∀ request ∈ requests, Run.Preserves P (perform session request)) (had : P e) :
    P (after session requests e) := by
  induction requests generalizing e with
  | nil => exact had
  | cons first rest ih =>
    obtain ⟨here, later⟩ := List.forall_mem_cons.mp each
    exact ih later (here e had).1

-- A kind of compilations that compiling does not lead out of.
structure Compiles (P : Compilation → Prop) : Prop where
  exchanged : ∀ c trust c', P c → c.exchangeUnder trust = .ok c' → P c'
  maintained : ∀ c, P c → P c.maintained.1

variable (compiles : Compiles P)

include compiles

theorem keeps_exchangeUnder (trust : TrustPolicy) : Keeps P (exchangeUnder trust : Act σ Compilation) := by
  refine keeps_recompile fun c had => ?_
  split
  · rename_i made
    exact compiles.exchanged c trust _ had made
  · exact had

theorem keeps_ready : Keeps P (ready : Act σ Compilation) := by
  refine keeps_recompile fun c had => ?_
  unfold Compilation.ready
  split
  · exact had
  · exact compiles.maintained c had

theorem keeps_update : Keeps P (update session) :=
  (keeps_ready compiles).bind fun _ _ => keeps_transaction (keeps_call _)

theorem keeps_recompute : Keeps P (recompute session) := by
  refine (keeps_update compiles).discard.bind fun _ _ => Run.keeps_get.bind fun e _ => ?_
  refine keeps_transaction ?_
  split
  · exact Run.keeps_pure trivial
  · exact (keeps_startOver _ _).bind fun _ _ => keeps_call _

theorem keeps_perform (request : Request) : Keeps P (perform session request) := by
  cases request with
  | exchange trust => exact (keeps_exchangeUnder compiles trust).discard
  | maintenance => exact (keeps_recompile compiles.maintained).discard
  | schema =>
    exact (keeps_ready compiles).bind fun _ _ => (Run.keeps_compiled _).bind fun _ _ => keeps_call _
  | program => exact ((keeps_ready compiles).bind fun _ _ => (Run.keeps_compiled _).preserves).discard
  | insert name tuple =>
    exact (keeps_ready compiles).bind fun c _ => (Run.keeps_compiled _).bind fun _ _ =>
      (Run.keeps_compiled _).bind fun _ _ => keeps_runRule c _
  | delete name tuple =>
    exact (keeps_ready compiles).bind fun c _ => (Run.keeps_compiled _).bind fun _ _ =>
      (Run.keeps_compiled _).bind fun _ _ => (keeps_runRule c _).bind fun _ _ =>
        keeps_cancel c _ _
  | load name tuples =>
    exact ((keeps_ready compiles).bind fun _ _ => (Run.keeps_compiled _).bind fun _ _ =>
      (Run.keeps_compiled _).bind fun _ _ => keeps_call _).discard
  | update => exact (keeps_update compiles).discard
  | recompute => exact (keeps_recompute compiles).discard

theorem after_keeps (requests : List Request) (had : P e.compilation) :
    P (after session requests e).compilation :=
  preserves_after (P := fun e => P e.compilation) (fun request _ => keeps_perform compiles request) had

end Requests

theorem compiles_formed (declared : Catalog) : Compiles (Compilation.Formed declared) where
  exchanged _ _ _ formed made := formed.exchanged made
  maintained _ formed := formed.maintained

end Engine

namespace Compilation

variable {declared : Catalog} {config : Config} {c : Compilation}

theorem formed_of_created (created : ofCatalog declared config = .ok c) : Formed declared c :=
  (Reached.created created).formed

theorem Formed.current {m : Maintenance} (formed : Formed declared c) (found : c.maintenance = some m) :
    ∃ x, c.exchange = some x ∧ Maintenance.build x c.catalog = (c.catalog, .ok m) := by
  obtain ⟨x, earlier, exchange, built⟩ := formed.maintenance m found
  exact ⟨x, exchange, Maintenance.build_again built⟩

end Compilation

namespace Engine

variable {σ : Type}

theorem exchangeUnder_failed {trust : TrustPolicy} {cause : RunError} {e e' : Engine σ}
    (failed : (exchangeUnder trust).run e = (.error cause, e')) : e' = e := by
  rw [exchangeUnder, run_recompile] at failed
  split at failed
  · cases congrArg Prod.fst failed
  · exact (congrArg Prod.snd failed).symm

-- No program is stale and none is half installed, after any requests to an engine over an accepted
-- catalog: what is maintained is what the exchange program gives over the catalog as it is, and
-- compiling the mappings leaves everything in place when it fails.
theorem installed_programs_current {declared : Catalog} {config : Config} {c : Compilation}
    (created : Compilation.ofCatalog declared config = .ok c) (session : Session σ) (s : σ)
    (requests : List Request) :
    let e := after session requests ⟨c, s⟩
    (∀ m, e.compilation.maintenance = some m → ∃ x, e.compilation.exchange = some x ∧
      Maintenance.build x e.compilation.catalog = (e.compilation.catalog, .ok m)) ∧
    ∀ trust cause e', (exchangeUnder trust).run e = (.error cause, e') → e' = e := by
  intro e
  have formed : Compilation.Formed declared e.compilation :=
    after_keeps (compiles_formed declared) requests (Compilation.formed_of_created created)
  exact ⟨fun m found => formed.current found, fun trust cause e' failed => exchangeUnder_failed failed⟩

section Distrusted

def unaryRelation (name peer : String) : String × Relation :=
  (name, { name := name, peer := some peer, columns := [⟨"a", .integer, false⟩] })

-- Its mapping cannot be compiled, and is left out while its source is distrusted.
def guardedCatalog : Catalog where
  peers := [⟨"A", ["R", "S"]⟩, ⟨"B", ["T"]⟩]
  relations := .ofList [unaryRelation "R" "A", unaryRelation "S" "A", unaryRelation "T" "B"]
  mappings := [.ofHeads "m" [.ofRelation "T" [.var "x"]]
    [.ofRelation "R" [.var "x"], (Atom.ofRelation "S" [.var "x"]).negate]]

def guardedStart : Engine Script :=
  ⟨{ declared := guardedCatalog, catalog := guardedCatalog, config := {} }, ⟨[]⟩⟩

def guardedRequests : List Request :=
  [.exchange (TrustPolicy.set {} "B" "A" 0), .maintenance, .exchange {}]

def guardedEnd : Engine Script := after Script.session guardedRequests guardedStart

-- What was compiled under distrust stays when compiling under trust fails.
theorem installed_programs_current_distrusted :
    Compilation.ofCatalog guardedCatalog {} = .ok guardedStart.compilation ∧
    (∃ m, guardedEnd.compilation.maintenance = some m ∧
      ∃ x, guardedEnd.compilation.exchange = some x ∧
        Maintenance.build x guardedEnd.compilation.catalog =
          (guardedEnd.compilation.catalog, .ok m)) ∧
    ∃ cause, (exchangeUnder {}).run guardedEnd = (.error cause, guardedEnd) := by
  have created : Compilation.ofCatalog guardedCatalog {} = .ok guardedStart.compilation := by cbv
  have current := installed_programs_current created Script.session guardedStart.state guardedRequests
  have built : guardedEnd.compilation.maintenance.isSome = true := by decide +kernel
  have fails : ((exchangeUnder {}).run guardedEnd).1.isOk = false := by decide +kernel
  obtain ⟨m, found⟩ := Option.isSome_iff_exists.mp built
  refine ⟨created, ⟨m, found, current.1 m found⟩, ?_⟩
  obtain ⟨answer, e', ran⟩ : ∃ answer e', (exchangeUnder {}).run guardedEnd = (answer, e') := ⟨_, _, rfl⟩
  cases answer with
  | ok _ =>
    rw [ran] at fails
    cases fails
  | error cause =>
    obtain rfl := current.2 {} cause e' ran
    exact ⟨cause, ran⟩

end Distrusted

end Engine

end PeerExchange
