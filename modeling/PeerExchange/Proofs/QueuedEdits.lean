import PeerExchange.Proofs.EditedRelations
import PeerExchange.Proofs.LoadedTuples
import PeerExchange.Proofs.PendingRows

namespace PeerExchange

open Compilation (Formed OwnsTables)
open Maintenance (Standing)
open Run (Ends)
open Sql (Row)

inductive Edit where
  | insert (tuple : List Literal)
  | delete (tuple : List Literal)
  | load (tuples : List (List Literal))

namespace Edit

variable {r : Relation} {edit : Edit} {edits before : List Edit} {v : TableKind → Row → Prop} {row : Row}

def request (name : String) : Edit → Engine.Request
  | insert tuple => .insert name tuple
  | delete tuple => .delete name tuple
  | load tuples => .load name tuples

def Adds (r : Relation) : Edit → Row → Prop
  | insert tuple, row => r.Stores tuple row
  | delete _, _ => False
  | load tuples, row => ∃ tuple ∈ tuples, r.Stores tuple row

def Removes (r : Relation) : Edit → Row → Prop
  | delete tuple, row => r.Stores tuple row
  | insert _, _ | load _, _ => False

def TakesBack (r : Relation) : Edit → Row → Prop
  | delete tuple, row => r.TakesBack tuple row
  | insert _, _ | load _, _ => False

def apply (r : Relation) (holds : Row → Prop) (edit : Edit) (row : Row) : Prop :=
  edit.Adds r row ∨ holds row ∧ ¬ edit.Removes r row

def meaning (r : Relation) (edits : List Edit) (holds : Row → Prop) : Row → Prop :=
  edits.foldl (apply r) holds

def queue (r : Relation) (v : TableKind → Row → Prop) (edit : Edit) : TableKind → Row → Prop
  | .base => v .base
  | .insertion => fun row => edit.Adds r row ∨ v .insertion row ∧ ¬ edit.TakesBack r row
  | .deletion => fun row => v .deletion row ∨ edit.Removes r row

def queued (r : Relation) (edits : List Edit) (v : TableKind → Row → Prop) : TableKind → Row → Prop :=
  edits.foldl (queue r) v

-- What a relation holds once everything that is pending is carried out.
def outlook (v : TableKind → Row → Prop) (row : Row) : Prop :=
  (v .base row ∧ ¬ v .deletion row) ∨ v .insertion row

def Lost (r : Relation) (edits : List Edit) (v : TableKind → Row → Prop) (row : Row) : Prop :=
  ∃ before tuple later, edits = before ++ delete tuple :: later ∧ queued r before v .insertion row ∧
    r.TakesBack tuple row ∧ ¬ r.Stores tuple row ∧
    ¬ (v .base row ∧ ¬ queued r before v .deletion row) ∧
    ∀ edit ∈ later, ¬ edit.Adds r row ∧ ¬ edit.Removes r row

def Stuck (r : Relation) (edits : List Edit) (v : TableKind → Row → Prop) (row : Row) : Prop :=
  ∃ before tuple later, edits = before ++ delete tuple :: later ∧ queued r before v .insertion row ∧
    r.Stores tuple row ∧ ¬ r.TakesBack tuple row ∧ ∀ edit ∈ later, ¬ edit.Adds r row

theorem outlook_iff : outlook v row ↔ (v .base row ∧ ¬ v .deletion row) ∨ v .insertion row := .rfl

theorem meaning_concat {holds : Row → Prop} :
    meaning r (before ++ [edit]) holds = apply r (meaning r before holds) edit := by
  rw [meaning, List.foldl_concat]
  rfl

theorem queued_concat : queued r (before ++ [edit]) v = queue r (queued r before v) edit := by
  rw [queued, List.foldl_concat]
  rfl

theorem queued_base : queued r edits v .base = v .base := by
  induction edits using List.reverseRecOn with
  | nil => rfl
  | append_singleton before edit ih =>
    rw [queued_concat]
    exact ih

theorem exists_delete_concat {p : List Edit → List Literal → List Edit → Prop} :
    (∃ first tuple later, before ++ [edit] = first ++ delete tuple :: later ∧ p first tuple later) ↔
      (∃ tuple, edit = delete tuple ∧ p before tuple []) ∨
        ∃ first tuple later, before = first ++ delete tuple :: later ∧ p first tuple (later ++ [edit]) := by
  constructor
  · rintro ⟨first, tuple, later, same, holds⟩
    obtain rfl | ⟨later, last, rfl⟩ := List.eq_nil_or_concat later
    · obtain ⟨rfl, last⟩ := List.append_inj' same rfl
      exact .inl ⟨tuple, List.singleton_inj.mp last, holds⟩
    · rw [List.concat_eq_append] at same holds
      rw [← List.cons_append, ← List.append_assoc] at same
      obtain ⟨rfl, ended⟩ := List.append_inj' same rfl
      cases List.singleton_inj.mp ended
      exact .inr ⟨first, tuple, later, rfl, holds⟩
  · rintro (⟨tuple, rfl, holds⟩ | ⟨first, tuple, later, rfl, holds⟩)
    · exact ⟨before, tuple, [], rfl, holds⟩
    · exact ⟨first, tuple, later ++ [edit], by simp, holds⟩

theorem meaning_of_kept (kept : v .base row ∧ ¬ queued r edits v .deletion row) :
    meaning r edits (outlook v) row := by
  induction edits using List.reverseRecOn with
  | nil => exact .inl kept
  | append_singleton before edit ih =>
    rw [queued_concat] at kept
    rw [meaning_concat]
    obtain ⟨held, alive⟩ := kept
    exact .inr ⟨ih ⟨held, fun gone => alive (.inl gone)⟩, fun removed => alive (.inr removed)⟩

section Rows

variable (own : ∀ tuple other, r.Stores tuple row → r.TakesBack other row → r.TakesBack tuple row)

include own

theorem meaning_of_pending {tuple : List Literal} (pending : queued r edits v .insertion row)
    (taken : r.TakesBack tuple row) : meaning r edits (outlook v) row := by
  induction edits using List.reverseRecOn with
  | nil => exact .inr pending
  | append_singleton before edit ih =>
    rw [queued_concat] at pending
    rw [meaning_concat]
    obtain added | ⟨waiting, left⟩ := pending
    · exact .inl added
    · refine .inr ⟨ih waiting, fun removed => left ?_⟩
      cases edit with
      | insert | load => exact removed
      | delete given => exact own given tuple removed taken

theorem lost_iff : Lost r edits v row ↔
    meaning r edits (outlook v) row ∧ ¬ outlook (queued r edits v) row := by
  induction edits using List.reverseRecOn with
  | nil =>
    refine iff_of_false ?_ fun both => both.2 both.1
    rintro ⟨before, tuple, later, same, -⟩
    exact absurd same (by simp)
  | append_singleton before edit ih =>
    have kept := @meaning_of_kept r before v row
    have pending (tuple : List Literal) := @meaning_of_pending r before v row own tuple
    have step : Lost r (before ++ [edit]) v row ↔
        (∃ tuple, edit = delete tuple ∧ queued r before v .insertion row ∧ r.TakesBack tuple row ∧
          ¬ r.Stores tuple row ∧ ¬ (v .base row ∧ ¬ queued r before v .deletion row)) ∨
        Lost r before v row ∧ ¬ edit.Adds r row ∧ ¬ edit.Removes r row := by
      rw [Lost, exists_delete_concat]
      simp only [Lost, List.forall_mem_append, List.forall_mem_singleton, List.not_mem_nil,
        false_implies, implies_true, and_true]
      refine or_congr .rfl ⟨?_, ?_⟩
      · rintro ⟨first, tuple, later, same, waiting, taken, other, gone, silent, last⟩
        exact ⟨⟨first, tuple, later, same, waiting, taken, other, gone, silent⟩, last⟩
      · rintro ⟨⟨first, tuple, later, same, waiting, taken, other, gone, silent⟩, last⟩
        exact ⟨first, tuple, later, same, waiting, taken, other, gone, silent, last⟩
    rw [step, ih, meaning_concat, queued_concat]
    change _ ↔ (edit.Adds r row ∨ meaning r before (outlook v) row ∧ ¬ edit.Removes r row) ∧
      ¬ ((queued r before v .base row ∧ ¬ (queued r before v .deletion row ∨ edit.Removes r row)) ∨
        edit.Adds r row ∨ queued r before v .insertion row ∧ ¬ edit.TakesBack r row)
    simp only [outlook_iff, queued_base]
    generalize meaning r before (outlook v) row = meant at kept pending ⊢
    generalize v .base row = held at kept ⊢
    generalize queued r before v .deletion row = gone at kept ⊢
    generalize queued r before v .insertion row = waiting at pending ⊢
    cases edit with
    | insert | load =>
      simp only [Adds, Removes, TakesBack, reduceCtorEq, false_and, exists_false]
      grind
    | delete tuple =>
      have pending := pending tuple
      simp only [Adds, Removes, TakesBack, delete.injEq, exists_eq_left']
      grind

theorem stuck_iff : Stuck r edits v row ↔
    ¬ meaning r edits (outlook v) row ∧ outlook (queued r edits v) row := by
  induction edits using List.reverseRecOn with
  | nil =>
    refine iff_of_false ?_ fun both => both.1 both.2
    rintro ⟨before, tuple, later, same, -⟩
    exact absurd same (by simp)
  | append_singleton before edit ih =>
    have kept := @meaning_of_kept r before v row
    have pending (tuple : List Literal) := @meaning_of_pending r before v row own tuple
    have step : Stuck r (before ++ [edit]) v row ↔
        (∃ tuple, edit = delete tuple ∧ queued r before v .insertion row ∧ r.Stores tuple row ∧
          ¬ r.TakesBack tuple row) ∨ Stuck r before v row ∧ ¬ edit.Adds r row := by
      rw [Stuck, exists_delete_concat]
      simp only [Stuck, List.forall_mem_append, List.forall_mem_singleton, List.not_mem_nil,
        false_implies, implies_true, and_true]
      refine or_congr .rfl ⟨?_, ?_⟩
      · rintro ⟨first, tuple, later, same, waiting, stores, left, silent, last⟩
        exact ⟨⟨first, tuple, later, same, waiting, stores, left, silent⟩, last⟩
      · rintro ⟨⟨first, tuple, later, same, waiting, stores, left, silent⟩, last⟩
        exact ⟨first, tuple, later, same, waiting, stores, left, silent, last⟩
    rw [step, ih, meaning_concat, queued_concat]
    change _ ↔ ¬ (edit.Adds r row ∨ meaning r before (outlook v) row ∧ ¬ edit.Removes r row) ∧
      ((queued r before v .base row ∧ ¬ (queued r before v .deletion row ∨ edit.Removes r row)) ∨
        edit.Adds r row ∨ queued r before v .insertion row ∧ ¬ edit.TakesBack r row)
    simp only [outlook_iff, queued_base]
    generalize meaning r before (outlook v) row = meant at kept pending ⊢
    generalize v .base row = held at kept ⊢
    generalize queued r before v .deletion row = gone at kept ⊢
    generalize queued r before v .insertion row = waiting at pending ⊢
    cases edit with
    | insert | load =>
      simp only [Adds, Removes, TakesBack, reduceCtorEq, false_and, exists_false]
      grind
    | delete tuple =>
      have pending := pending tuple
      simp only [Adds, Removes, TakesBack, delete.injEq, exists_eq_left']
      grind

theorem outlook_iff_meaning :
    (outlook (queued r edits v) row ↔ meaning r edits (outlook v) row) ↔
      ¬ Lost r edits v row ∧ ¬ Stuck r edits v row := by
  rw [lost_iff own, stuck_iff own]
  generalize outlook (queued r edits v) row = carried
  generalize meaning r edits (outlook v) row = meant
  tauto

end Rows

theorem outlook_of_unkeyed (unkeyed : r.key = []) :
    outlook (queued r edits v) row ↔ meaning r edits (outlook v) row := by
  have same (tuple : List Literal) : r.TakesBack tuple row ↔ r.Stores tuple row := by
    rw [Relation.TakesBack, if_pos unkeyed]
  refine (outlook_iff_meaning fun tuple _ stores _ => (same tuple).mpr stores).mpr ⟨?_, ?_⟩
  · rintro ⟨-, tuple, -, -, -, taken, other, -⟩
    exact other ((same tuple).mp taken)
  · rintro ⟨-, tuple, -, -, -, stores, left, -⟩
    exact left ((same tuple).mpr stores)

end Edit

namespace Store

theorem ends_load {table : String} {columns : List String} {rows : List Row} {before after : Store}
    {n : Nat} (ended : Ends (session.load table columns rows) before n after) :
    before.database.load table columns rows = .ok (after.database, n) := by
  obtain ⟨store, middle, got, ended⟩ := Run.ends_bind.mp ended
  obtain ⟨rfl, rfl⟩ := Run.ends_get got
  split at ended
  · rename_i database changed ran
    have equal : ((.ok changed : Except RunError Nat), { before with database := database }) =
      (.ok n, after) := ended
    cases equal
    exact ran
  · cases congrArg Prod.fst ended

end Store

namespace Engine

variable {config : Config} {c : Compilation} {r : Relation} {name : String} {edit : Edit}
  {edits : List Edit} {e e' e'' : Engine Store} {v : TableKind → Row → Prop} {tuple : List Literal}

-- An engine with everything compiled, on a database that holds the given rows for a relation.
structure Queues (c : Compilation) (r : Relation) (v : TableKind → Row → Prop) (e : Engine Store) :
    Prop where
  ready : e.compilation.ready = (c, .ok ())
  standing : Standing r (· = v) e.state.database

theorem ready_again (made : e.compilation.ready = (c, .ok ())) : c.ready = (c, .ok ()) := by
  obtain ⟨m, found⟩ := Compilation.ready_maintained made
  rw [Compilation.ready, found]
  rfl

theorem fills_imported {row : Row} (imported : importedRow r tuple = .ok row) : r.Fills row :=
  Relation.length_toRow (importedRow_ok.mp imported).1 (importedRow_ok.mp imported).2

theorem becomes_stated {rule : Rule} {id : String} {kind : TableKind}
    (known : c.catalog.relations.get? r.name = some r ∧ r.stratified = false)
    (stored : ∀ kind, r.StoredIn kind e.state.database)
    (stated : fact c r id kind tuple = .ok rule)
    (ended : Ends (runRule Store.session c rule) e () e') :
    r.Becomes e.state.database e'.state.database kind (fun row =>
        r.Contains e.state.database kind row ∨ r.Stores tuple row) ∧
      e'.compilation = e.compilation ∧ ∃ row, importedRow r tuple = .ok row := by
  obtain ⟨row, es, arity, laid, -, spells, lowered⟩ := states_row known stated
  have imported := importedRow_ok.mpr ⟨arity, laid⟩
  obtain ⟨n, -, ran, same⟩ := (ends_runRule lowered).mp ended
  obtain ⟨executed, -⟩ := Store.ends_evaluate ran
  have loaded := (spells.execute e.state.database).symm.trans executed
  have becomes := Relation.becomes_load known.2 stored
    (List.forall_mem_singleton.mpr (fills_imported imported)) loaded
  refine ⟨?_, same, row, imported⟩
  have held : (fun other => r.Contains e.state.database kind other ∨
      Row.HeldIn ([row].map r.kept) other) = fun other =>
        r.Contains e.state.database kind other ∨ r.Stores tuple other := by
    funext other
    rw [Relation.stores_iff imported]
    simp [Row.HeldIn]
  exact held ▸ becomes

theorem ends_cancel : Ends (cancel Store.session c r tuple) e () e' ↔
    (r.key = [] ∧ ∃ row n, r.toRow tuple = .ok row ∧
        (Store.session.evaluate (cancelByValue r row) none).run e.state = (.ok n, e'.state) ∧
        e'.compilation = e.compilation) ∨
      r.key ≠ [] ∧ ∃ rule, fact c r "cancel" .insertion tuple = .ok rule ∧
        Ends (runRule Store.session c { rule with action := .retract }) e () e' := by
  unfold cancel
  by_cases unkeyed : r.key = []
  · simp only [unkeyed, List.isEmpty_nil, if_true, Run.ends_bind, Run.ends_compiled, Run.ends_discard,
      ends_call, true_and, ne_eq, not_true_eq_false, false_and, or_false]
    constructor
    · rintro ⟨row, _, ⟨laid, rfl⟩, n, ran⟩
      exact ⟨row, n, laid, ran⟩
    · rintro ⟨row, n, laid, ran⟩
      exact ⟨row, e, ⟨laid, rfl⟩, n, ran⟩
  · simp only [unkeyed, List.isEmpty_iff, if_false, Run.ends_bind, Run.ends_compiled, false_and, ne_eq,
      not_false_eq_true, true_and, false_or]
    constructor
    · rintro ⟨rule, _, ⟨stated, rfl⟩, ran⟩
      exact ⟨rule, stated, ran⟩
    · rintro ⟨rule, stated, ran⟩
      exact ⟨rule, e, ⟨stated, rfl⟩, ran⟩

theorem ends_delete : Ends (delete Store.session name tuple) e () e' ↔
    ∃ c r rule middle, e.compilation.ready = (c, .ok ()) ∧ editable c name = .ok r ∧
      fact c r "delete" .deletion tuple = .ok rule ∧
      Ends (runRule Store.session c rule) { e with compilation := c } () middle ∧
      Ends (cancel Store.session c r tuple) middle () e' := by
  simp only [delete, Run.ends_bind, ends_ready, Run.ends_compiled]
  constructor
  · rintro ⟨c, _, ⟨made, rfl⟩, r, _, ⟨edited, rfl⟩, rule, _, ⟨stated, rfl⟩, _, middle, ran, taken⟩
    exact ⟨c, r, rule, middle, made, edited, stated, ran, taken⟩
  · rintro ⟨c, r, rule, middle, made, edited, stated, ran, taken⟩
    exact ⟨c, _, ⟨made, rfl⟩, r, _, ⟨edited, rfl⟩, rule, _, ⟨stated, rfl⟩, (), middle, ran, taken⟩

theorem becomes_cancelled {row : Row}
    (known : c.catalog.relations.get? r.name = some r ∧ r.stratified = false)
    (stored : ∀ kind, r.StoredIn kind e.state.database) (imported : importedRow r tuple = .ok row)
    (ended : Ends (cancel Store.session c r tuple) e () e') :
    r.Becomes e.state.database e'.state.database .insertion (fun row =>
        r.Contains e.state.database .insertion row ∧ ¬ r.TakesBack tuple row) ∧
      e'.compilation = e.compilation := by
  unfold Relation.TakesBack
  rcases ends_cancel.mp ended with ⟨unkeyed, laid, n, made, ran, same⟩ | ⟨keyed, rule, stated, ran⟩
  · simp only [unkeyed, if_true]
    cases made.symm.trans (importedRow_ok.mp imported).2
    exact ⟨Relation.becomes_cancelByValue known.2 stored imported (Store.ends_evaluate ran).1, same⟩
  · simp only [keyed, if_false]
    obtain ⟨-, -, rfl⟩ := (fact_ok known.1).mp stated
    obtain ⟨ss, _, compiled, -⟩ := Run.ends_bind.mp ran
    obtain ⟨lowered, -⟩ := Run.ends_compiled.mp compiled
    obtain ⟨conditions, rfl, compares⟩ := Relation.lower_cancellation known.1 lowered
    obtain ⟨n, -, evaluated, same⟩ := (ends_runRule lowered).mp ran
    exact ⟨Relation.becomes_cancelByKey known.2 stored imported compares
      (Store.ends_evaluate evaluated).1, same⟩

theorem Queues.afterEdit (known : c.catalog.relations.get? r.name = some r ∧ r.stratified = false)
    (edited : editable c name = .ok r) (queues : Queues c r v e)
    (ended : Ends (perform Store.session (edit.request name)) e () e') :
    Queues c r (edit.queue r v) e' := by
  obtain ⟨ready, stored, rfl⟩ := queues
  have again := ready_again ready
  cases edit with
  | insert tuple =>
    obtain ⟨_, _, rule, made, into, stated, ran⟩ := ends_insert.mp ended
    cases ready.symm.trans made
    cases edited.symm.trans into
    obtain ⟨becomes, same, -⟩ := becomes_stated (e := ⟨c, e.state⟩) known stored stated ran
    refine ⟨same.symm ▸ again, becomes.stored, ?_⟩
    rw [becomes.contains]
    funext kind row
    cases kind <;> simp [Edit.queue, Edit.Adds, Edit.Removes, Edit.TakesBack, or_comm]
  | load tuples =>
    obtain ⟨n, loaded⟩ := Run.ends_discard.mp ended
    obtain ⟨_, _, rows, made, into, laid, ran, same⟩ := ends_load.mp loaded
    cases ready.symm.trans made
    cases edited.symm.trans into
    have each := Compiled.forall₂_of_mapM laid
    have full : ∀ row ∈ rows, r.Fills row := fun row inside => by
      obtain ⟨tuple, -, imported⟩ := Compiled.forall₂_source each inside
      exact fills_imported imported
    have becomes := Relation.becomes_load known.2 stored full (Store.ends_load ran)
    have held (row : Row) : Row.HeldIn (rows.map r.kept) row ↔ ∃ tuple ∈ tuples, r.Stores tuple row := by
      constructor
      · rintro ⟨_, inside, same⟩
        obtain ⟨laid, listed, rfl⟩ := List.mem_map.mp inside
        obtain ⟨tuple, given, imported⟩ := Compiled.forall₂_source each listed
        exact ⟨tuple, given, laid, imported, same⟩
      · rintro ⟨tuple, given, laid, imported, same⟩
        obtain ⟨row, listed, made⟩ := Compiled.forall₂_result each given
        cases imported.symm.trans made
        exact ⟨_, List.mem_map_of_mem listed, same⟩
    refine ⟨same.symm ▸ again, becomes.stored, ?_⟩
    rw [becomes.contains]
    funext kind row
    cases kind <;> simp [Edit.queue, Edit.Adds, Edit.Removes, Edit.TakesBack, held, or_comm]
  | delete tuple =>
    obtain ⟨_, _, rule, middle, made, into, stated, ran, taken⟩ := ends_delete.mp ended
    cases ready.symm.trans made
    cases edited.symm.trans into
    obtain ⟨added, same, row, imported⟩ := becomes_stated (e := ⟨c, e.state⟩) known stored stated ran
    obtain ⟨taken, last⟩ := becomes_cancelled known added.stored imported taken
    refine ⟨(last.trans same).symm ▸ again, taken.stored, ?_⟩
    rw [taken.contains, added.contains]
    funext kind row
    cases kind <;> simp [Edit.queue, Edit.Adds, Edit.Removes, Edit.TakesBack]

theorem Queues.afterEdits (known : c.catalog.relations.get? r.name = some r ∧ r.stratified = false)
    (edited : editable c name = .ok r) (queues : Queues c r v e)
    (ended : Ends (edits.forM fun edit => perform Store.session (edit.request name)) e () e') :
    Queues c r (Edit.queued r edits v) e' := by
  induction edits generalizing e v with
  | nil =>
    cases Run.ends_forM_nil.mp ended
    exact queues
  | cons edit rest ih =>
    obtain ⟨middle, first, later⟩ := Run.ends_forM_cons.mp ended
    exact ih (queues.afterEdit known edited first) later

theorem ends_transaction {α : Type} {act : Act Store α} {a : α}
    (ended : Ends (transaction Store.session act) e a e') :
    ∃ first last, first.compilation = e.compilation ∧ first.state.database = e.state.database ∧
      Ends act first a last ∧ e'.state.database = last.state.database := by
  obtain ⟨⟨⟩, first, started, ended⟩ := Run.ends_bind.mp ended
  obtain ⟨started, same⟩ := ends_call.mp started
  have begun : first.state.database = e.state.database := by
    obtain ⟨store, _, got, started⟩ := Run.ends_bind.mp started
    obtain ⟨rfl, rfl⟩ := Run.ends_get got
    split at started
    · exact congrArg (fun p : Except RunError Unit × Store => p.2.database) started.symm
    · cases congrArg Prod.fst started
  obtain ⟨result, last, ran, ended⟩ := Run.ends_bind.mp ended
  have ran : act.run first = (result, last) := by
    have equal : ((.ok (act.run first).1 : Except RunError (Except RunError α)), (act.run first).2) =
      (.ok result, last) := ran
    obtain ⟨same, rfl⟩ := Prod.mk.inj equal
    exact Prod.ext (Except.ok.inj same) rfl
  cases result with
  | error cause =>
    obtain ⟨_, _, _, ended⟩ := Run.ends_bind.mp ended
    cases congrArg Prod.fst ended
  | ok b =>
    obtain ⟨⟨⟩, closed, committed, ended⟩ := Run.ends_bind.mp ended
    obtain ⟨rfl, rfl⟩ := Run.ends_pure.mp ended
    refine ⟨first, last, same, begun, ran, ?_⟩
    obtain ⟨committed, -⟩ := ends_call.mp committed
    obtain ⟨store, _, got, committed⟩ := Run.ends_bind.mp committed
    obtain ⟨rfl, rfl⟩ := Run.ends_get got
    split at committed
    · exact congrArg (fun p : Except RunError Unit × Store => p.2.database) committed.symm
    · cases congrArg Prod.fst committed

theorem ends_update {cycle : Cycle} (made : e.compilation.ready = (c, .ok ()))
    (ended : Ends (update Store.session) e cycle e') :
    ∃ (m : Maintenance) (s t : Running Store), c.maintenance = some m ∧
      s.state.database = e.state.database ∧
      Ends ((Running.machine Store.session c).runProgram m) s () t ∧
      e'.state.database = t.state.database := by
  obtain ⟨_, _, readied, ended⟩ := Run.ends_bind.mp ended
  obtain ⟨again, rfl⟩ := ends_ready.mp readied
  cases made.symm.trans again
  obtain ⟨first, last, -, begun, ran, done⟩ := ends_transaction ended
  obtain ⟨ran, -⟩ := ends_call.mp ran
  obtain ⟨m, found⟩ := Compilation.ready_maintained made
  rw [Compilation.run_runCycle, found] at ran
  dsimp only at ran
  match outcome : ((Running.machine Store.session c).runProgram m).run ⟨first.state, {}⟩ with
  | (.error cause, t) =>
    rw [outcome] at ran
    cases congrArg Prod.fst ran
  | (.ok (), t) =>
    rw [outcome] at ran
    exact ⟨m, ⟨first.state, {}⟩, t, found, begun, outcome, done.trans (congrArg (·.2.database) ran).symm⟩

-- After edits and a cycle, a relation holds what the edits mean, but for pending rows that the
-- deletion of another tuple took back, or that the deletion of their own tuple left. Without a key
-- there are none of either.
theorem edits_mean {text : String} {program : Program} (parsed : Program.parse text = .ok program)
    (created : Compilation.ofCatalog program.catalog config = .ok c) (store : Store)
    (requests : List Request) {cycle : Cycle}
    (starts : e = after Store.session requests ⟨c, store⟩) (edited : EditsInto e name r)
    (apart : OwnsTables e.compilation.ready.1.catalog r)
    (stored : ∀ kind, r.StoredIn kind e.state.database)
    (ran : Ends (edits.forM fun edit => perform Store.session (edit.request name)) e () e')
    (updated : Ends (update Store.session) e' cycle e'') :
    let holds := Edit.outlook (r.Contains e.state.database)
    (∀ kind, r.StoredIn kind e''.state.database) ∧ Maintenance.Settled (r.Contains e''.state.database) ∧
      (∀ row, (r.Contains e''.state.database .base row ↔ Edit.meaning r edits holds row) ↔
        ¬ Edit.Lost r edits (r.Contains e.state.database) row ∧
          ¬ Edit.Stuck r edits (r.Contains e.state.database) row) ∧
      (r.key = [] → ∀ row, r.Contains e''.state.database .base row ↔ Edit.meaning r edits holds row) := by
  intro holds
  have formed : Formed program.catalog e.compilation :=
    starts ▸ after_keeps (compiles_formed _) requests (Compilation.formed_of_created created)
  obtain ⟨c', made, into⟩ := edited
  have known := known_of_editable formed made into
  have queues : Queues c' r (Edit.queued r edits (r.Contains e.state.database)) e' :=
    Queues.afterEdits known into ⟨made, stored, rfl⟩ ran
  obtain ⟨m, s, t, found, begun, cycled, done⟩ := ends_update queues.ready updated
  have last := formed.ready
  rw [made] at last apart
  obtain ⟨x, catalog, edits_, built⟩ := last.edited (Program.parse_declared parsed) found into apart
  have carried := Maintenance.standing_cycle edits_ built (begun ▸ queues.standing) cycled
  rw [← done] at carried
  obtain ⟨stored', rows, settled⟩ := carried
  have distinct : Sql.Distinct (Lowering.columnNames r .base) := (stored .base).distinct
  refine ⟨stored', settled, fun row => ?_, fun unkeyed row => ?_⟩
  · exact (iff_congr (rows row) .rfl).trans
      (Edit.outlook_iff_meaning fun tuple other stores taken => Relation.takesBack_own distinct stores taken)
  · exact (rows row).trans (Edit.outlook_of_unkeyed unkeyed)

section Keys

def entryCatalog : Catalog where
  peers := [⟨"A", ["R"]⟩]
  relations := .ofList [("R", { name := "R", peer := some "A", key := [0]
                                columns := [⟨"a", .integer, false⟩, ⟨"b", .integer, false⟩] })]

def entryStart : Compilation := { declared := entryCatalog, catalog := entryCatalog, config := {} }

def entryEngine : Engine Store := after Store.session [.schema] ⟨entryStart, {}⟩

def entryRelation : Relation :=
  { name := "R_L", peer := some "A", role := .localEdits, key := [0]
    columns := [⟨"a", .integer, false⟩, ⟨"b", .integer, false⟩] }

def entry (a b : Int) : List Literal := [.integer a, .integer b]

theorem entry_created : Compilation.ofCatalog entryCatalog {} = .ok entryStart := by cbv

theorem entry_parsed : ∃ program,
    Program.parse "peer A { relation R(a: int key, b: int); }" = .ok program ∧
      program.catalog = entryCatalog := by
  have parses : Program.parsesTo "peer A { relation R(a: int key, b: int); }" entryCatalog = true := by
    decide +kernel
  exact Program.parsesTo_parts parses

theorem entry_stored (kind : TableKind) : entryRelation.StoredIn kind entryEngine.state.database := by
  cases kind <;> decide +kernel

theorem entry_apart : OwnsTables entryEngine.compilation.ready.1.catalog entryRelation := by
  have names : (entryEngine.compilation.ready.1.catalog.relations.values.map fun r => r.name) =
      ["R", "R_L"] := by decide +kernel
  intro other inside _ differ kind kind'
  have named : other.name = "R" := by
    have listed := List.mem_map_of_mem (f := fun r : Relation => r.name) inside
    rw [names] at listed
    rcases List.mem_pair.mp listed with same | same
    · exact same
    · exact absurd same differ
  rw [Relation.tableName, named]
  cases kind <;> cases kind' <;> decide +kernel

theorem entry_edited : EditsInto entryEngine "R" entryRelation := by
  have made : entryEngine.compilation.ready.2.toOption = some () := by decide +kernel
  have into : (editable entryEngine.compilation.ready.1 "R").toOption = some entryRelation := by
    decide +kernel
  exact ⟨_, Prod.ext rfl (eq_ok_of_toOption made), eq_ok_of_toOption into⟩

def carriedOut (edits : List Edit) : Act Store (List Row) := do
  edits.forM fun edit => perform Store.session (edit.request "R")
  discard <| update Store.session
  return (← get).state.database.rows "R_L"

theorem carriedOut_parts {edits : List Edit} {rows : List Row}
    (ran : ((carriedOut edits).run entryEngine).1.toOption = some rows) : ∃ e' cycle e'',
      Ends (edits.forM fun edit => perform Store.session (edit.request "R")) entryEngine () e' ∧
      Ends (update Store.session) e' cycle e'' ∧ e''.state.database.rows "R_L" = rows := by
  match ended : (carriedOut edits).run entryEngine with
  | (.error cause, t) =>
    rw [ended] at ran
    cases ran
  | (.ok found, t) =>
    rw [ended] at ran
    cases ran
    obtain ⟨⟨⟩, e', first, rest⟩ := Run.ends_bind.mp ended
    obtain ⟨⟨⟩, e'', second, rest⟩ := Run.ends_bind.mp rest
    obtain ⟨cycle, second⟩ := Run.ends_discard.mp second
    obtain ⟨_, _, got, rest⟩ := Run.ends_bind.mp rest
    obtain ⟨rfl, rfl⟩ := Run.ends_get got
    exact ⟨e', cycle, e'', first, second, (Run.ends_pure.mp rest).1⟩

theorem edits_mean_entry : ∃ e' cycle e'',
    Ends ([.insert (entry 1 2), .delete (entry 3 2)].forM fun edit : Edit =>
      perform Store.session (edit.request "R")) entryEngine () e' ∧
    Ends (update Store.session) e' cycle e'' ∧
    entryRelation.Contains e''.state.database .base [.integer 1, .integer 2] := by
  have rows : ((carriedOut [.insert (entry 1 2), .delete (entry 3 2)]).run entryEngine).1.toOption =
      some [[.integer 1, .integer 2]] := by decide +kernel
  obtain ⟨e', cycle, e'', ran, updated, -⟩ := carriedOut_parts rows
  obtain ⟨program, parsed, same⟩ := entry_parsed
  obtain ⟨-, -, exactly, -⟩ := edits_mean parsed (same ▸ entry_created) {} [.schema] rfl entry_edited
    entry_apart entry_stored ran updated
  have first : entryRelation.Stores (entry 1 2) [.integer 1, .integer 2] := ⟨_, rfl, rfl⟩
  have other : ¬ entryRelation.Stores (entry 3 2) [.integer 1, .integer 2] := by
    rintro ⟨_, ⟨⟩, same⟩
    exact absurd same (by decide)
  have apart : ¬ entryRelation.TakesBack (entry 3 2) [.integer 1, .integer 2] := by
    intro taken
    obtain ⟨_, _, _, ⟨⟩, ⟨⟩, ⟨⟩, -, same⟩ := taken 0 (List.mem_singleton_self 0)
    exact absurd same (by decide)
  -- The only deletion is of a tuple with another key.
  have deletes {before later : List Edit} {tuple : List Literal}
      (split : [.insert (entry 1 2), .delete (entry 3 2)] = before ++ Edit.delete tuple :: later) :
      tuple = entry 3 2 := by
    have inside : Edit.delete tuple ∈ [Edit.insert (entry 1 2), .delete (entry 3 2)] := by
      rw [split]
      exact List.mem_append_right _ List.mem_cons_self
    simpa using inside
  refine ⟨e', cycle, e'', ran, updated, ((exactly _).mpr ⟨?_, ?_⟩).mpr ?_⟩
  · rintro ⟨_, _, _, split, -, taken, -⟩
    exact apart (deletes split ▸ taken)
  · rintro ⟨_, _, _, split, -, stores, -⟩
    exact other (deletes split ▸ stores)
  · exact .inr ⟨.inl first, other⟩

-- The deletion of another tuple with the key of a pending one takes that back.
theorem other_tuple_taken_back : ∃ e' cycle e'',
    Ends ([.insert (entry 1 2), .delete (entry 1 3)].forM fun edit : Edit =>
      perform Store.session (edit.request "R")) entryEngine () e' ∧
    Ends (update Store.session) e' cycle e'' ∧ e''.state.database.rows "R_L" = [] ∧
    Edit.meaning entryRelation [.insert (entry 1 2), .delete (entry 1 3)]
      (Edit.outlook (entryRelation.Contains entryEngine.state.database)) [.integer 1, .integer 2] := by
  have rows : ((carriedOut [.insert (entry 1 2), .delete (entry 1 3)]).run entryEngine).1.toOption =
      some [] := by decide +kernel
  obtain ⟨e', cycle, e'', ran, updated, none⟩ := carriedOut_parts rows
  have first : entryRelation.Stores (entry 1 2) [.integer 1, .integer 2] := ⟨_, rfl, rfl⟩
  have other : ¬ entryRelation.Stores (entry 1 3) [.integer 1, .integer 2] := by
    rintro ⟨_, ⟨⟩, same⟩
    exact absurd same (by decide)
  exact ⟨e', cycle, e'', ran, updated, none, .inr ⟨.inl first, other⟩⟩

end Keys

end Engine

end PeerExchange
