import PeerExchange.Compilation
import PeerExchange.Session.Basic

namespace PeerExchange

structure Cycle where
  statements : Nat := 0
  changes : Nat := 0
  iterations : Nat := 0
deriving DecidableEq

structure Running (σ : Type) where
  state : σ
  cycle : Cycle := {}

namespace Running

variable {σ α : Type}

def inner (r : Run σ α) : Run (Running σ) α := r.within state fun s t => { t with state := s }

def count (f : Cycle → Cycle) : Run (Running σ) Unit :=
  modify fun t => { t with cycle := f t.cycle }

def evaluateAll (session : Session σ) (k : Int) : List Sql.Statement → Run (Running σ) Nat
  | [] => return 0
  | s :: rest => do
    let changed ← inner (session.evaluate s (some k))
    count fun c => { c with statements := c.statements + 1 }
    return changed + (← evaluateAll session k rest)

def runGroup (session : Session σ) (c : Compilation) (rules : List Rule) (k : Int) :
    Run (Running σ) Nat := do
  let iteration := if c.config.inlineIteration then Iteration.literal k else .prepared
  let statements ← Run.ofCompiled (c.lowerGroup iteration rules)
  let changed ← Run.counted (← evaluateAll session k statements)
  let total ← Run.counted ((← get).cycle.changes + changed)
  count fun c => { c with changes := total }
  return changed

-- Takes steps, numbered from `k`, until one changes nothing. A loop that has not ended after
-- `limit` steps has diverged.
def untilStable (stratum limit : Nat) (step : Int → Run (Running σ) Nat) :
    Nat → Int → Run (Running σ) Unit
  | 0, _ => throw (.diverged stratum limit)
  | left + 1, k => do
    count fun c => { c with iterations := c.iterations + 1 }
    if (← step k) = 0 then return () else untilStable stratum limit step left (k + 1)

end Running

structure Machine (σ : Type) where
  runGroup : List Rule → Int → Run (Running σ) Nat
  clearPending : String → Run (Running σ) Unit
  limit : Nat

namespace Machine

variable {σ : Type}

def fixpoint (m : Machine σ) (stratum : Nat) (start : Int)
    (step : Int → Run (Running σ) Nat) : Run (Running σ) Unit :=
  Running.untilStable stratum m.limit step m.limit start

def runDeletion (m : Machine σ) (s : DeletionStratum) : Run (Running σ) Unit := do
  discard <| m.runGroup s.seed 0
  if s.recursive then
    m.fixpoint s.index 1 (m.runGroup s.iterate)
    m.fixpoint s.index 0 fun _ => m.runGroup s.rederive 0
  else
    discard <| m.runGroup s.iterate 0
    discard <| m.runGroup s.rederive 0

def insertionRound (m : Machine σ) (s : InsertionStratum) (k : Int) : Run (Running σ) Nat := do
  let changed ← m.runGroup s.iterate k
  if 0 < changed then discard <| m.runGroup s.merge (k + 1)
  return changed

def runInsertion (m : Machine σ) (s : InsertionStratum) : Run (Running σ) Unit := do
  discard <| m.runGroup s.seed 0
  if s.recursive then
    discard <| m.runGroup s.merge 0
    m.fixpoint s.index 0 (m.insertionRound s)
  else
    discard <| m.runGroup s.iterate 0
    discard <| m.runGroup s.merge 0

def runProgram (m : Machine σ) (program : Maintenance) : Run (Running σ) Unit := do
  program.deletion.forM m.runDeletion
  discard <| m.runGroup program.apply 0
  program.insertion.forM m.runInsertion
  program.relations.forM m.clearPending

end Machine

namespace Running

variable {σ : Type}

def clearPending (session : Session σ) (c : Compilation) (name : String) :
    Run (Running σ) Unit := do
  let r ← Run.ofCompiled (c.catalog.relation name)
  [TableKind.insertion, .deletion].forM fun kind =>
    discard <| inner (session.evaluate (.clearTable (r.tableName kind)) none)

def machine (session : Session σ) (c : Compilation) : Machine σ where
  runGroup := runGroup session c
  clearPending := clearPending session c
  limit := c.config.maxIterations

end Running

def Compilation.runCycle {σ : Type} (session : Session σ) (c : Compilation) : Run σ Cycle :=
  ExceptT.mk fun s =>
    match c.maintenance with
    | none => (.ok {}, s)
    | some m =>
      let (result, t) := ((Running.machine session c).runProgram m).run ⟨s, {}⟩
      (result.map fun _ => t.cycle, t.state)

end PeerExchange
