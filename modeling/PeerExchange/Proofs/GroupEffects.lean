import PeerExchange.Proofs.StatementEffects

namespace PeerExchange

open Sql (Batch Database Statement)

namespace Lowering

variable {ctx : Context} {catalog : Catalog} {config : Config} {iteration : Iteration}
  {rules : List Rule} {ss : List Statement} {r : Rule} {g : Group}

theorem edits_lowerRule (moves : ctx.rule.action = .derive ∨ ctx.rule.action = .retract)
    (lowered : lowerRule ctx = .ok ss) :
    ∃ head r, ctx.rule.head = [head] ∧ relationOf ctx head = .ok r ∧
      ∀ s ∈ ss, s.Edits (· = r.tableName head.kind) := by
  unfold lowerRule at lowered
  split at lowered
  · rename_i head heads
    obtain ⟨r, known, lowered⟩ := Compiled.bind_ok.mp lowered
    refine ⟨head, r, heads, known, ?_⟩
    rcases moves with derives | retracts
    · rw [derives] at lowered
      obtain ⟨s, inserts, lowered⟩ := Compiled.bind_ok.mp lowered
      cases lowered
      refine List.forall_mem_singleton.mpr ?_
      unfold lowerInsert at inserts
      dsimp only at inserts
      split at inserts
      · obtain ⟨values, -, inserts⟩ := Compiled.bind_ok.mp inserts
        cases inserts
        rfl
      · obtain ⟨sc, -, inserts⟩ := Compiled.bind_ok.mp inserts
        obtain ⟨projection, -, inserts⟩ := Compiled.bind_ok.mp inserts
        cases inserts
        rfl
    · rw [retracts] at lowered
      obtain ⟨s, deletes, lowered⟩ := Compiled.bind_ok.mp lowered
      cases lowered
      refine List.forall_mem_singleton.mpr ?_
      unfold lowerDelete at deletes
      dsimp only at deletes
      split at deletes
      · split at deletes
        · cases deletes
        · obtain ⟨conditions, -, deletes⟩ := Compiled.bind_ok.mp deletes
          cases deletes
          rfl
      · obtain ⟨sc, -, deletes⟩ := Compiled.bind_ok.mp deletes
        obtain ⟨own, -, deletes⟩ := Compiled.bind_ok.mp deletes
        cases deletes
        rfl
  · cases lowered

theorem lower_ok (lowered : r.lower catalog config iteration = .ok ss) :
    lowerRule ⟨catalog, config, r, iteration⟩ = .ok ss := by
  unfold Rule.lower at lowered
  split at lowered
  · cases lowered
    assumption
  · cases lowered

theorem foldl_add_ok (well : (rules.foldl (Group.add catalog config iteration) g).failures = []) :
    g.failures = [] ∧ ∃ lists,
      List.Forall₂ (fun r ss => r.lower catalog config iteration = .ok ss) rules lists ∧
      (rules.foldl (Group.add catalog config iteration) g).batch =
        lists.flatten.foldl (Batch.push (merging config)) g.batch := by
  induction rules generalizing g with
  | nil => exact ⟨well, [], .nil, rfl⟩
  | cons r rest ih =>
    obtain ⟨before, lists, each, batch⟩ := ih well
    unfold Group.add at before
    split at before
    · rename_i ss lowered
      refine ⟨before, ss :: lists, .cons lowered each, ?_⟩
      rw [List.foldl_cons, batch, List.flatten_cons, List.foldl_append, Group.add, lowered]
    · simp at before

end Lowering

namespace Compilation

variable {c : Compilation} {iteration : Iteration} {rules : List Rule} {ss : List Statement}
  {tables : String → Prop}

theorem lowerGroup_ok (lowered : c.lowerGroup iteration rules = .ok ss) :
    ∃ lists, List.Forall₂ (fun r ss => c.lower iteration r = .ok ss) rules lists ∧
      ss = (lists.flatten.foldl (Batch.push (Lowering.merging c.config)) {}).statements := by
  unfold lowerGroup Lowering.Group.result at lowered
  split at lowered
  · rename_i well
    cases lowered
    obtain ⟨-, lists, each, batch⟩ := Lowering.foldl_add_ok well
    exact ⟨lists, each, by rw [Lowering.Group.statements, Lowering.lowerGroup, batch]⟩
  · cases lowered

-- What the statements of all rules have and merged ones have with them, those of the group have.
theorem all_lowerGroup {P : Statement → Prop}
    (merged : ∀ {limit all first second whole}, P first → P second →
      Statement.merge? limit all first second = some whole → P whole)
    (lowered : c.lowerGroup iteration rules = .ok ss)
    (each : ∀ r ∈ rules, ∀ own, c.lower iteration r = .ok own → ∀ s ∈ own, P s) :
    ∀ s ∈ ss, P s := by
  obtain ⟨lists, lowers, rfl⟩ := lowerGroup_ok lowered
  refine Batch.all_statements merged fun s inside => ?_
  obtain ⟨own, listed, inside⟩ := List.mem_flatten.mp inside
  obtain ⟨r, member, found⟩ := Compiled.forall₂_source lowers listed
  exact each r member own found s inside

theorem mem_lowerGroup {r : Rule} (lowered : c.lowerGroup iteration rules = .ok ss)
    (member : r ∈ rules) :
    ∃ own, c.lower iteration r = .ok own ∧
      ∀ table conditions, .delete table conditions ∈ own → .delete table conditions ∈ ss := by
  obtain ⟨lists, lowers, rfl⟩ := lowerGroup_ok lowered
  obtain ⟨own, listed, found⟩ := Compiled.forall₂_result lowers member
  exact ⟨own, found, fun _ _ inside =>
    Batch.mem_statements (List.mem_flatten.mpr ⟨own, listed, inside⟩)⟩

theorem lowerGroup_singleton {r : Rule} (lowered : c.lowerGroup iteration [r] = .ok ss) :
    ∃ own, c.lower iteration r = .ok own ∧ ∀ s, own = [s] → ss = [s] := by
  obtain ⟨lists, lowers, rfl⟩ := lowerGroup_ok lowered
  obtain ⟨own, none, found, rest, rfl⟩ := List.forall₂_cons_left_iff.mp lowers
  cases rest
  refine ⟨own, found, ?_⟩
  rintro s rfl
  cases Lowering.merging c.config <;> rfl

theorem lowerGroup_nil : c.lowerGroup iteration [] = .ok [] := rfl

end Compilation

section Stores

variable {c : Compilation} {rules : List Rule} {ss : List Statement} {k : Int} {n : Nat}
  {s t : Running Store}

namespace Run

variable {σ α : Type}

theorem ends_compiled {act : Compiled α} {before after : σ} {a : α} :
    Ends (ofCompiled act) before a after ↔ act = .ok a ∧ before = after := by
  cases act with
  | ok b => exact ends_pure.trans (and_congr_left fun _ => ⟨congrArg _, Except.ok.inj⟩)
  | error cause =>
    constructor
    · intro ended
      cases congrArg Prod.fst ended
    · rintro ⟨failed, -⟩
      cases failed

theorem ends_counted {changes : Nat} {before after : σ} {a : Nat}
    (ended : Ends (counted changes) before a after) : changes = a ∧ before = after := by
  unfold counted at ended
  split at ended
  · exact ends_pure.mp ended
  · cases congrArg Prod.fst ended

theorem ends_get {before after a : σ} (ended : Ends (get : Run σ σ) before a after) :
    before = a ∧ before = after := by
  have equal : ((.ok before : Except RunError σ), before) = (.ok a, after) := ended
  exact ⟨Except.ok.inj (congrArg Prod.fst equal), congrArg Prod.snd equal⟩

theorem forM_keeps {f : α → Run σ Unit} {P : σ → Prop} {items : List α} {before after : σ}
    {u : Unit} (keeps : ∀ a ∈ items, ∀ s t, Ends (f a) s () t → P s → P t)
    (ended : Ends (items.forM f) before u after) (start : P before) : P after := by
  induction items generalizing before with
  | nil =>
    cases ends_forM_nil.mp ended
    exact start
  | cons first rest ih =>
    obtain ⟨keepsHere, keepsLater⟩ := List.forall_mem_cons.mp keeps
    obtain ⟨middle, here, later⟩ := ends_forM_cons.mp ended
    exact ih keepsLater later (keepsHere _ _ here start)

theorem forM_brings {f : α → Run σ Unit} {P Q : σ → Prop} {items : List α} {before after : σ}
    {u : Unit} (keeps : ∀ a ∈ items, ∀ s t, Ends (f a) s () t → P s → P t)
    (stays : ∀ a ∈ items, ∀ s t, Ends (f a) s () t → P s → Q s → Q t)
    (brings : ∃ a ∈ items, ∀ s t, Ends (f a) s () t → P s → Q t)
    (ended : Ends (items.forM f) before u after) (start : P before) : P after ∧ Q after := by
  induction items generalizing before with
  | nil =>
    obtain ⟨a, inside, -⟩ := brings
    cases inside
  | cons first rest ih =>
    obtain ⟨keepsHere, keepsLater⟩ := List.forall_mem_cons.mp keeps
    obtain ⟨-, staysLater⟩ := List.forall_mem_cons.mp stays
    obtain ⟨middle, here, later⟩ := ends_forM_cons.mp ended
    have between := keepsHere _ _ here start
    obtain ⟨a, inside, now⟩ := brings
    rcases List.mem_cons.mp inside with rfl | after
    · refine forM_keeps (P := fun s => P s ∧ Q s) (fun a inside s t ran both => ?_) later
        ⟨between, now _ _ here start⟩
      exact ⟨keepsLater a inside s t ran both.1, staysLater a inside s t ran both.1 both.2⟩
    · exact ih keepsLater staysLater ⟨a, after, now⟩ later between

end Run

namespace Store

variable {statement : Statement} {parameter : Option Int} {before after : Store}

theorem ends_evaluate (ended : Run.Ends (session.evaluate statement parameter) before n after) :
    before.database.execute (parameter.getD 0) statement = .ok (after.database, n) ∧
      after.saved = before.saved := by
  obtain ⟨store, middle, got, ended⟩ := Run.ends_bind.mp ended
  obtain ⟨rfl, rfl⟩ := Run.ends_get got
  split at ended
  · rename_i database changed ran
    have equal : ((.ok changed : Except RunError Nat), { before with database := database }) =
      (.ok n, after) := ended
    cases equal
    exact ⟨ran, rfl⟩
  · cases congrArg Prod.fst ended

end Store

namespace Running

theorem ends_inner {σ α : Type} {act : Run σ α} {s t : Running σ} {a : α} :
    Run.Ends (inner act) s a t ↔ Run.Ends act s.state a t.state ∧ t.cycle = s.cycle := by
  constructor
  · intro ended
    have equal : ((act.run s.state).1, { s with state := (act.run s.state).2 }) = (.ok a, t) := ended
    obtain ⟨first, rfl⟩ := Prod.mk.inj equal
    exact ⟨Prod.ext first rfl, rfl⟩
  · rintro ⟨ended, same⟩
    have equal : act.run s.state = (.ok a, t.state) := ended
    change ((act.run s.state).1, { s with state := (act.run s.state).2 }) = (.ok a, t)
    rw [equal, ← same]

theorem executes_evaluateAll (ended : Run.Ends (evaluateAll Store.session k ss) s n t) :
    Database.Executes k ss s.state.database n t.state.database := by
  induction ss generalizing s n with
  | nil =>
    obtain ⟨rfl, rfl⟩ := Run.ends_pure.mp ended
    exact .nil _
  | cons statement rest ih =>
    obtain ⟨changed, middle, here, ended⟩ := Run.ends_bind.mp ended
    obtain ⟨⟨⟩, counted, told, ended⟩ := Run.ends_bind.mp ended
    obtain ⟨more, last, later, ended⟩ := Run.ends_bind.mp ended
    obtain ⟨rfl, rfl⟩ := Run.ends_pure.mp ended
    have others := ih later
    rw [← ends_count.mp told] at others
    exact .cons (Store.ends_evaluate (ends_inner.mp here).1).1 others

theorem executes_runGroup (ended : Run.Ends (runGroup Store.session c rules k) s n t) :
    ∃ iteration ss changed, c.lowerGroup iteration rules = .ok ss ∧
      Database.Executes k ss s.state.database changed t.state.database := by
  obtain ⟨ss, s₁, lowered, ended⟩ := Run.ends_bind.mp ended
  obtain ⟨lowers, same⟩ := Run.ends_compiled.mp lowered
  obtain ⟨changed, s₂, ran, ended⟩ := Run.ends_bind.mp ended
  obtain ⟨m, s₃, checked, ended⟩ := Run.ends_bind.mp ended
  obtain ⟨running, s₄, got, ended⟩ := Run.ends_bind.mp ended
  obtain ⟨total, s₅, summed, ended⟩ := Run.ends_bind.mp ended
  obtain ⟨⟨⟩, s₆, told, ended⟩ := Run.ends_bind.mp ended
  have executes := executes_evaluateAll ran
  -- Nothing after the statements touches the database.
  rw [← same, (Run.ends_counted checked).2, (Run.ends_get got).2, (Run.ends_counted summed).2]
    at executes
  rw [← (Run.ends_pure.mp ended).2, ← ends_count.mp told]
  exact ⟨_, ss, changed, lowers, executes⟩

def Keeps (holds : Database → Prop) {α : Type} (act : Run (Running Store) α) : Prop :=
  ∀ s a t, Run.Ends act s a t → holds s.state.database → holds t.state.database

def KeptBy (c : Compilation) (holds : Database → Prop) (rules : List Rule) : Prop :=
  ∀ iteration ss, c.lowerGroup iteration rules = .ok ss → ∀ s ∈ ss, ∀ k db db' n,
    holds db → db.execute k s = .ok (db', n) → holds db'

theorem keeps_machine (c : Compilation) (holds : Database → Prop) :
    (machine Store.session c).Lifts (KeptBy c holds) (Keeps holds) where
  pure a s b t ended before := by
    obtain ⟨-, rfl⟩ := Run.ends_pure.mp ended
    exact before
  bind first next s b t ended before := by
    obtain ⟨a, middle, here, later⟩ := Run.ends_bind.mp ended
    exact next a middle b t later (first s a middle here before)
  diverged stratum s a t ended := by cases congrArg Prod.fst ended
  count f s a t ended before := by
    cases ends_count.mp ended
    exact before
  group rules k _ _ each s n t ended before := by
    obtain ⟨iteration, ss, changed, lowered, ran⟩ := executes_runGroup ended
    exact ran.keeps (fun s inside => each iteration ss lowered s inside k) before

end Running

end Stores

end PeerExchange
