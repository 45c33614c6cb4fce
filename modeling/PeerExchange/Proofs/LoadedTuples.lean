import PeerExchange.Proofs.InstalledPrograms
import PeerExchange.Proofs.StatedTuples
import PeerExchange.Session.Memory

namespace PeerExchange

open Compiled (bind_ok)
open Sql (Expr)

namespace Compilation

variable {declared : Catalog} {c c' : Compilation}

theorem ready_maintained (ran : c.ready = (c', .ok ())) : ∃ m, c'.maintenance = some m := by
  unfold Compilation.ready at ran
  split at ran
  · rename_i built
    cases ran
    exact Option.isSome_iff_exists.mp built
  · unfold maintained at ran
    split at ran
    · cases congrArg Prod.snd ran
    · split at ran
      · cases congrArg Prod.snd ran
      · split at ran
        · cases ran
          exact ⟨_, rfl⟩
        · cases congrArg Prod.snd ran

theorem Formed.ready (formed : Formed declared c) : Formed declared c.ready.1 := by
  unfold Compilation.ready
  split
  · exact formed
  · exact formed.maintained

end Compilation

namespace Store

variable {store : Store} {db : Sql.Database} {n : Nat}

theorem run_evaluate {statement : Sql.Statement}
    (ran : store.database.execute 0 statement = .ok (db, n)) :
    (session.evaluate statement none).run store = (.ok n, { store with database := db }) := by
  have got : (get : Run Store Store).run store = (.ok store, store) := rfl
  change (Store.evaluate statement none).run store = _
  unfold Store.evaluate
  rw [Run.run_bind, got]
  dsimp only
  rw [Option.getD_none, ran]
  rfl

theorem run_load {table : String} {columns : List String} {rows : List Sql.Row}
    (ran : store.database.load table columns rows = .ok (db, n)) :
    (session.load table columns rows).run store = (.ok n, { store with database := db }) := by
  have got : (get : Run Store Store).run store = (.ok store, store) := rfl
  change (Store.load table columns rows).run store = _
  unfold Store.load
  rw [Run.run_bind, got]
  dsimp only
  rw [ran]
  rfl

end Store

namespace Engine

open Run (Ends ends_bind ends_compiled ends_pure)

section Edits

variable {σ α : Type} {session : Session σ} {e e' : Engine σ} {c : Compilation} {name : String}
  {tuple : List Literal} {n : Nat}

theorem ends_call {act : Run σ α} {a : α} : Ends (call act) e a e' ↔
    act.run e.state = (.ok a, e'.state) ∧ e'.compilation = e.compilation := by
  change ((act.run e.state).1, { e with state := (act.run e.state).2 }) = (.ok a, e') ↔ _
  constructor
  · intro ended
    obtain ⟨first, rfl⟩ := Prod.mk.inj ended
    exact ⟨Prod.ext first rfl, rfl⟩
  · rintro ⟨ran, same⟩
    rw [ran, ← same]

theorem ends_ready : Ends ready e c e' ↔
    e.compilation.ready = (c, .ok ()) ∧ e' = { e with compilation := c } := by
  unfold Ends ready
  rw [run_recompile]
  rcases e.compilation.ready with ⟨made, _ | _⟩
  · exact ⟨nofun, nofun⟩
  · constructor
    · intro ended
      cases ended
      exact ⟨rfl, rfl⟩
    · rintro ⟨same, rfl⟩
      cases same
      rfl

theorem ends_of_isOk {act : Run σ α} {s : σ} (finished : (act.run s).1.isOk = true) :
    ∃ a t, Ends act s a t := by
  match outcome : act.run s with
  | (.ok a, t) => exact ⟨a, t, outcome⟩
  | (.error cause, t) =>
    rw [outcome] at finished
    cases finished

theorem eq_ok_of_toOption {result : Except ε α} {a : α} (found : result.toOption = some a) :
    result = .ok a := by
  cases result with
  | ok b => exact congrArg _ (Option.some.inj found)
  | error cause => cases found

theorem ends_counted_iff {changes : Nat} {a : Nat} {s t : σ} :
    Ends (Run.counted changes) s a t ↔ changes < 2 ^ 64 ∧ changes = a ∧ s = t := by
  unfold Run.counted
  split
  · rename_i small
    exact ends_pure.trans (and_iff_right small).symm
  · rename_i large
    exact iff_of_false nofun fun ⟨small, _⟩ => large small

theorem ends_runRule {rule : Rule} {statement : Sql.Statement}
    (lowered : c.lower (.literal 0) rule = .ok [statement]) :
    Ends (runRule session c rule) e () e' ↔ ∃ n, n < 2 ^ 64 ∧
      (session.evaluate statement none).run e.state = (.ok n, e'.state) ∧
      e'.compilation = e.compilation := by
  have evaluated (changes : List Nat) (u : Engine σ) :
      Ends ([statement].mapM fun s => call (session.evaluate s none)) e changes u ↔ ∃ n, changes = [n] ∧
        (session.evaluate statement none).run e.state = (.ok n, u.state) ∧
        u.compilation = e.compilation := by
    simp only [List.mapM_cons, List.mapM_nil, ends_bind, ends_pure, ends_call]
    constructor
    · rintro ⟨n, _, ran, _, _, ⟨rfl, rfl⟩, rfl, rfl⟩
      exact ⟨n, rfl, ran⟩
    · rintro ⟨n, rfl, ran⟩
      exact ⟨n, u, ran, [], u, ⟨rfl, rfl⟩, rfl, rfl⟩
  simp only [runRule, lowered, ends_bind, ends_compiled, Run.ends_discard, ends_counted_iff]
  constructor
  · rintro ⟨_, _, ⟨same, rfl⟩, changes, u, ran, _, small, rfl, rfl⟩
    cases same
    obtain ⟨n, rfl, evaluates⟩ := (evaluated changes u).mp ran
    exact ⟨n, by simpa using small, evaluates⟩
  · rintro ⟨n, small, ran⟩
    exact ⟨[statement], e, ⟨rfl, rfl⟩, [n], e', (evaluated [n] e').mpr ⟨n, rfl, ran⟩, n,
      by simpa using small, by simp, rfl⟩

theorem ends_insert : Ends (insert session name tuple) e () e' ↔
    ∃ c r rule, e.compilation.ready = (c, .ok ()) ∧ editable c name = .ok r ∧
      fact c r "insert" .insertion tuple = .ok rule ∧
      Ends (runRule session c rule) { e with compilation := c } () e' := by
  simp only [insert, ends_bind, ends_ready, ends_compiled]
  constructor
  · rintro ⟨c, _, ⟨made, rfl⟩, r, _, ⟨edited, rfl⟩, rule, _, ⟨stated, rfl⟩, ran⟩
    exact ⟨c, r, rule, made, edited, stated, ran⟩
  · rintro ⟨c, r, rule, made, edited, stated, ran⟩
    exact ⟨c, _, ⟨made, rfl⟩, r, _, ⟨edited, rfl⟩, rule, _, ⟨stated, rfl⟩, ran⟩

theorem ends_load {tuples : List (List Literal)} : Ends (load session name tuples) e n e' ↔
    ∃ c r rows, e.compilation.ready = (c, .ok ()) ∧ editable c name = .ok r ∧
      tuples.mapM (importedRow r) = .ok rows ∧
      (session.load (r.tableName .insertion) (Lowering.columnNames r .insertion) rows).run e.state =
        (.ok n, e'.state) ∧ e'.compilation = c := by
  simp only [load, ends_bind, ends_ready, ends_compiled, ends_call]
  constructor
  · rintro ⟨c, _, ⟨made, rfl⟩, r, _, ⟨edited, rfl⟩, rows, _, ⟨laid, rfl⟩, ran, kept⟩
    exact ⟨c, r, rows, made, edited, laid, ran, kept⟩
  · rintro ⟨c, r, rows, made, edited, laid, ran, kept⟩
    exact ⟨c, _, ⟨made, rfl⟩, r, _, ⟨edited, rfl⟩, rows, _, ⟨laid, rfl⟩, ran, kept⟩

theorem ends_load_single : Ends (load session name [tuple]) e n e' ↔
    ∃ c r row, e.compilation.ready = (c, .ok ()) ∧ editable c name = .ok r ∧
      importedRow r tuple = .ok row ∧
      (session.load (r.tableName .insertion) (Lowering.columnNames r .insertion) [row]).run e.state =
        (.ok n, e'.state) ∧ e'.compilation = c := by
  have single (r : Relation) (rows : List Sql.Row) : [tuple].mapM (importedRow r) = .ok rows ↔
      ∃ row, importedRow r tuple = .ok row ∧ [row] = rows := by
    rw [List.mapM_cons, List.mapM_nil]
    cases importedRow r tuple with
    | ok row => exact ⟨fun made => ⟨row, rfl, Except.ok.inj made⟩, fun ⟨_, same, listed⟩ => by
        cases same; rw [← listed]; rfl⟩
    | error cause => exact ⟨nofun, nofun⟩
  rw [ends_load]
  constructor
  · rintro ⟨c, r, _, made, edited, laid, ran⟩
    obtain ⟨row, imported, rfl⟩ := (single r _).mp laid
    exact ⟨c, r, row, made, edited, imported, ran⟩
  · rintro ⟨c, r, row, made, edited, laid, ran⟩
    exact ⟨c, r, [row], made, edited, (single r _).mpr ⟨row, laid, rfl⟩, ran⟩

-- The relation that edits of a name go to, once everything is compiled.
def EditsInto (e : Engine σ) (name : String) (r : Relation) : Prop :=
  ∃ c, e.compilation.ready = (c, .ok ()) ∧ editable c name = .ok r

def byStatement (session : Session σ) (r : Relation) (es : List Expr) : Run σ Nat :=
  session.evaluate (r.insertion es) none

def asData (session : Session σ) (r : Relation) (row : Sql.Row) : Run σ Nat :=
  session.load (r.tableName .insertion) (Lowering.columnNames r .insertion) [row]

-- A session that does not fail when it is asked for a row.
structure Takes (session : Session σ) (s : σ) (r : Relation) (row : Sql.Row) : Prop where
  statement : ∀ es, Lowering.Spells es row →
    ∃ n t, n < 2 ^ 64 ∧ (byStatement session r es).run s = (.ok n, t)
  data : ∃ n t, (asData session r row).run s = (.ok n, t)

theorem takes_of_load {store : Store} {r : Relation} {row : Sql.Row}
    (loaded : (store.database.load (r.tableName .insertion) (Lowering.columnNames r .insertion)
      [row]).isOk = true) : Takes Store.session store r row := by
  cases ran : store.database.load (r.tableName .insertion) (Lowering.columnNames r .insertion) [row] with
  | error fault =>
    rw [ran] at loaded
    cases loaded
  | ok result =>
    obtain ⟨db, n⟩ := result
    have one : n = 1 := by
      unfold Sql.Database.load at ran
      split at ran
      · cases ran
      · obtain ⟨t, -, ran⟩ := bind_ok.mp ran
        obtain ⟨-, -, ran⟩ := bind_ok.mp ran
        cases ran
        rfl
    refine ⟨fun es spells => ⟨n, { store with database := db }, by rw [one]; decide, ?_⟩,
      n, { store with database := db }, Store.run_load ran⟩
    exact Store.run_evaluate ((spells.execute store.database).trans ran)

theorem known_of_editable {declared : Catalog} {c₀ c : Compilation} {r : Relation}
    (formed : Compilation.Formed declared c₀) (made : c₀.ready = (c, .ok ()))
    (edited : editable c name = .ok r) :
    c.catalog.relations.get? r.name = some r ∧ r.stratified = false := by
  obtain ⟨m, found⟩ := Compilation.ready_maintained made
  have formed := formed.ready
  rw [made] at formed
  obtain ⟨b, catalog, -, -, -, edits⟩ := formed.editsGo found edited
  obtain ⟨_, plain, -, -, rfl⟩ := edits.declared
  exact ⟨edits.known, rfl⟩

theorem states_row {c : Compilation} {r : Relation} {rule : Rule} {id : String} {kind : TableKind}
    (known : c.catalog.relations.get? r.name = some r ∧ r.stratified = false)
    (stated : fact c r id kind tuple = .ok rule) :
    ∃ row es, tuple.length = r.arity ∧ r.toRow tuple = .ok row ∧ r.Types tuple ∧
      Lowering.Spells es row ∧ c.lower (.literal 0) rule =
        .ok [.insert (r.tableName kind) (Lowering.columnNames r kind) (.values es)] := by
  obtain ⟨found, flat⟩ := known
  obtain ⟨⟨row, imported⟩, typed, rfl⟩ := (fact_ok found).mp stated
  obtain ⟨arity, stored⟩ := importedRow_ok.mp imported
  exact ⟨row, r.statedExprs kind tuple, arity, stored, typed, Lowering.spells_stated flat arity stored,
    Lowering.lower_statement found arity⟩

-- A tuple can be inserted where it can be loaded, if its constants have the types of their columns,
-- and then the same row is asked for.
theorem insert_iff_load {declared : Catalog} {config : Config}
    (created : Compilation.ofCatalog declared config = .ok c) (session : Session σ) (s : σ)
    (requests : List Request) (name : String) (tuple : List Literal)
    (takes : ∀ r row, EditsInto (after session requests ⟨c, s⟩) name r → r.toRow tuple = .ok row →
      Takes session (after session requests ⟨c, s⟩).state r row) :
    let e := after session requests ⟨c, s⟩
    ((∃ e', Ends (insert session name tuple) e () e') ↔
      (∃ n e', Ends (load session name [tuple]) e n e') ∧ ∀ r, EditsInto e name r → r.Types tuple) ∧
    ∀ e₁ n e₂, Ends (insert session name tuple) e () e₁ → Ends (load session name [tuple]) e n e₂ →
      e₁.compilation = e₂.compilation ∧ ∃ r row es m, EditsInto e name r ∧ r.toRow tuple = .ok row ∧
        Lowering.Spells es row ∧ (byStatement session r es).run e.state = (.ok m, e₁.state) ∧
        (asData session r row).run e.state = (.ok n, e₂.state) ∧
        ∀ db : Sql.Database, db.execute 0 (r.insertion es) =
          db.load (r.tableName .insertion) (Lowering.columnNames r .insertion) [row] := by
  intro e
  have formed : Compilation.Formed declared e.compilation :=
    after_keeps (compiles_formed declared) requests (Compilation.formed_of_created created)
  have known {c : Compilation} {r : Relation} (made : e.compilation.ready = (c, .ok ()))
      (edited : editable c name = .ok r) :
      c.catalog.relations.get? r.name = some r ∧ r.stratified = false :=
    known_of_editable formed made edited
  refine ⟨⟨?_, ?_⟩, ?_⟩
  · rintro ⟨e', ended⟩
    obtain ⟨c, r, rule, made, edited, stated, -⟩ := ends_insert.mp ended
    obtain ⟨row, es, arity, stored, typed, -, -⟩ := states_row (known made edited) stated
    obtain ⟨n, t, ran⟩ := (takes r row ⟨c, made, edited⟩ stored).data
    refine ⟨⟨n, ⟨c, t⟩, ends_load_single.mpr ⟨c, r, row, made, edited, importedRow_ok.mpr ⟨arity, stored⟩,
      ran, rfl⟩⟩, ?_⟩
    rintro other ⟨c', made', edited'⟩
    cases made.symm.trans made'
    cases edited.symm.trans edited'
    exact typed
  · rintro ⟨⟨n, e', ended⟩, typed⟩
    obtain ⟨c, r, row, made, edited, imported, -, -⟩ := ends_load_single.mp ended
    have stated : fact c r "insert" .insertion tuple = .ok (r.statement "insert" .insertion tuple) :=
      (fact_ok (known made edited).1).mpr ⟨⟨row, imported⟩, typed r ⟨c, made, edited⟩, rfl⟩
    obtain ⟨row, es, -, stored, -, spells, lowered⟩ := states_row (known made edited) stated
    obtain ⟨n, t, small, ran⟩ := (takes r row ⟨c, made, edited⟩ stored).statement es spells
    exact ⟨⟨c, t⟩, ends_insert.mpr ⟨c, r, _, made, edited, stated,
      (ends_runRule lowered).mpr ⟨n, small, ran, rfl⟩⟩⟩
  · intro e₁ n e₂ inserted loaded
    obtain ⟨c, r, rule, made, edited, stated, ran⟩ := ends_insert.mp inserted
    obtain ⟨c', r', row', made', edited', imported, loads, kept⟩ := ends_load_single.mp loaded
    cases made.symm.trans made'
    cases edited.symm.trans edited'
    obtain ⟨row, es, -, stored, -, spells, lowered⟩ := states_row (known made edited) stated
    obtain ⟨-, stored'⟩ := importedRow_ok.mp imported
    obtain rfl : row = row' := Except.ok.inj (stored.symm.trans stored')
    obtain ⟨m, -, evaluates, kept'⟩ := (ends_runRule lowered).mp ran
    exact ⟨kept'.trans kept.symm, r, row, es, m, ⟨c, made, edited⟩, stored, spells, evaluates, loads,
      spells.execute⟩

end Edits

section Numbers

def numberCatalog : Catalog where
  peers := [⟨"A", ["R"]⟩]
  relations := .ofList [unaryRelation "R" "A"]

def numberStart : Compilation := { declared := numberCatalog, catalog := numberCatalog, config := {} }

def numberEngine : Engine Store := after Store.session [.schema] ⟨numberStart, {}⟩

def numberRelation : Relation := (unaryRelation "R" "A").2.localRelation

theorem number_created : Compilation.ofCatalog numberCatalog {} = .ok numberStart := by cbv

theorem number_edits {r : Relation} (edits : EditsInto numberEngine "R" r) : r = numberRelation := by
  obtain ⟨c, made, edited⟩ := edits
  have found : (editable numberEngine.compilation.ready.1 "R").toOption = some numberRelation := by
    decide +kernel
  rw [made, edited] at found
  exact Option.some.inj found

theorem insert_iff_load_number : ∃ e₁ n e₂, Ends (insert Store.session "R" [.integer 5]) numberEngine () e₁ ∧
    Ends (load Store.session "R" [[.integer 5]]) numberEngine n e₂ ∧ e₁.compilation = e₂.compilation := by
  have takes : ∀ r row, EditsInto numberEngine "R" r → r.toRow [.integer 5] = .ok row →
      Takes Store.session numberEngine.state r row := by
    intro r row edits stored
    obtain rfl := number_edits edits
    cases stored
    have loaded : (numberEngine.state.database.load (numberRelation.tableName .insertion)
      (Lowering.columnNames numberRelation .insertion) [[.integer 5]]).isOk = true := by decide +kernel
    exact takes_of_load loaded
  obtain ⟨inserts, same⟩ := insert_iff_load number_created Store.session {} [.schema] "R" [.integer 5] takes
  have loads : ∃ n e', Ends (load Store.session "R" [[.integer 5]]) numberEngine n e' := by
    have finished : ((load Store.session "R" [[.integer 5]]).run numberEngine).1.isOk = true := by
      decide +kernel
    exact ends_of_isOk finished
  obtain ⟨n, e₂, loaded⟩ := loads
  obtain ⟨e₁, inserted⟩ := inserts.mpr ⟨⟨n, e₂, loaded⟩, fun r edits => by
    obtain rfl := number_edits edits
    intro literal c inside type typed
    obtain ⟨rfl, rfl⟩ := Prod.mk.inj (List.mem_singleton.mp inside)
    cases typed
    rfl⟩
  exact ⟨e₁, n, e₂, inserted, loaded, (same e₁ n e₂ inserted loaded).1⟩

-- A text is loaded into the column of numbers, and cannot be inserted.
theorem text_loaded_only : Takes Store.session numberEngine.state numberRelation [.text "abc"] ∧
    (∃ n e', Ends (load Store.session "R" [[.string "abc"]]) numberEngine n e') ∧
    ¬∃ e', Ends (insert Store.session "R" [.string "abc"]) numberEngine () e' := by
  have taken : (numberEngine.state.database.load (numberRelation.tableName .insertion)
    (Lowering.columnNames numberRelation .insertion) [[.text "abc"]]).isOk = true := by decide +kernel
  have loaded : ((load Store.session "R" [[.string "abc"]]).run numberEngine).1.isOk = true := by
    decide +kernel
  have failed : ((insert Store.session "R" [.string "abc"]).run numberEngine).1.isOk = false := by
    decide +kernel
  refine ⟨takes_of_load taken, ends_of_isOk loaded, ?_⟩
  rintro ⟨e', ended⟩
  rw [show (insert Store.session "R" [.string "abc"]).run numberEngine = (.ok (), e') from ended] at failed
  cases failed

end Numbers

end Engine

end PeerExchange
