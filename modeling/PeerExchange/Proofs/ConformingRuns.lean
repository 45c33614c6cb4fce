import PeerExchange.Proofs.ConformingStates

namespace PeerExchange

open Compilation (Formed)
open Run (Preserves)
open Sql (Database Row Statement)

section Tuples

variable {labels : String → Prop} {width : Nat} {r : Relation} {tuple : List Literal} {row : Row}
  {kind : TableKind}

-- A literal of a type, with a label that was given if it is a labeled null.
def Literal.Fits (labels : String → Prop) (type : ColumnType) (literal : Literal) : Prop :=
  (∀ own, literal.type? = some own → own = type) ∧ ∀ label, literal = .labeledNull label → labels label

theorem Literal.Fits.conforms {literal : Literal} {type : ColumnType} {v : Sql.Value}
    (fits : literal.Fits labels type) (stored : literal.toValue = .ok v) :
    v.Conforms labels width type := by
  obtain ⟨typed, given⟩ := fits
  cases literal with
  | string s =>
    cases stored
    exact typed _ rfl ▸ .text s
  | integer n =>
    rw [Literal.toValue] at stored
    split at stored
    · cases stored
      exact typed _ rfl ▸ .integer n
    · cases stored
  | null =>
    cases stored
    exact .null
  | labeledNull label =>
    cases stored
    exact .unknown (.inl ⟨label, given label rfl, rfl⟩)

namespace Relation

theorem conforms_rowOf {columns : List (Column × Option String)}
    (fits : List.Forall₂ (fun literal (column : Column × Option String) =>
      Literal.Fits labels column.1.type literal) tuple columns) (laid : rowOf columns tuple = .ok row) :
    List.Forall₂ (fun (column : String × ColumnType) v => v.Conforms labels width column.2)
      (columns.flatMap columnsFor) row := by
  induction fits generalizing row with
  | nil =>
    cases laid
    exact .nil
  | @cons literal column rest columns here _ ih =>
    obtain ⟨v, first, laid⟩ := Compiled.bind_ok.mp laid
    obtain ⟨values, later, laid⟩ := Compiled.bind_ok.mp laid
    have others := ih later
    obtain ⟨c, _ | companion⟩ := column
    · obtain rfl : v :: values = row := by simpa using laid
      exact .cons (here.conforms first) others
    · obtain rfl : v :: .integer literal.marker :: values = row := by simpa using laid
      exact .cons (here.conforms first) (.cons (.integer _) others)

theorem conforms_toRow (flat : r.stratified = false) (arity : tuple.length = r.arity)
    (laid : r.toRow tuple = .ok row) (typed : r.Types tuple)
    (given : ∀ label, .labeledNull label ∈ tuple → labels label) : r.ConformsTo labels width kind row := by
  rw [Relation.ConformsTo, physicalColumns_flat flat kind .base, physicalColumns_base]
  refine conforms_rowOf ?_ laid
  rw [markedColumns, List.forall₂_map_right_iff]
  refine List.forall₂_iff_zip.mpr ⟨arity, fun placed => ⟨typed _ _ placed, ?_⟩⟩
  rintro label rfl
  exact given label (List.of_mem_zip placed).1

end Relation

end Tuples

section Programs

variable {labels : String → Prop} {declared : Catalog} {c : Compilation} {m : Maintenance}

theorem Maintenance.Marks.keepsColumns {names : List String} {plain marked : Catalog}
    (marks : Marks names plain marked) : plain.KeepsColumns marked := by
  intro name r found
  rcases marks name with same | ⟨-, old, held, made⟩
  · exact ⟨r, same.trans found, rfl⟩
  · cases found.symm.trans held
    exact ⟨_, made, rfl⟩

theorem Catalog.KeepsColumns.covers {catalog catalog' : Catalog} (keeps : catalog.KeepsColumns catalog') :
    catalog'.Covers catalog := by
  intro name r found
  obtain ⟨r', held, columns⟩ := keeps name r found
  exact ⟨r', held, congrArg List.length columns⟩

-- Mappings that name labels which were given, and in which built-ins compute values of the types of
-- the columns that they go to.
structure Catalog.MapsTyped (labels : String → Prop) (catalog : Catalog) : Prop where
  named : ∀ m ∈ catalog.mappings, ∀ a ∈ m.head ++ m.body, ∀ own label,
    Term.constant own (.labeledNull label) ∈ a.args → labels label
  computed : ∀ m ∈ catalog.mappings, (∃ a ∈ m.body, a.Computes) →
    m.IsTyped (Literal.IsStated labels) catalog

theorem Catalog.MapsTyped.stated (maps : declared.MapsTyped labels) (valid : declared.validate = .ok ()) :
    ∀ m ∈ declared.mappings, ∀ a ∈ m.head ++ m.body, ∀ own value, Term.constant own value ∈ a.args →
      value.IsStated labels := by
  intro m member a inside own value arg
  cases value with
  | integer n =>
    obtain ⟨uses, checked⟩ :=
      Catalog.validateRule_types (Catalog.validateRule_of_validate valid member)
    exact (checked a inside).integers own n arg
  | labeledNull label => exact maps.named m member a inside own label arg
  | string | null => trivial

theorem Compilation.Formed.conforms (formed : Formed declared c) (own : declared.IsDeclared)
    (written : ∀ m ∈ declared.mappings, m.IsWritten) (maps : declared.MapsTyped labels)
    (trusted : ∀ peer source, fitsWord (c.trust.priority peer source) = true)
    (found : c.maintenance = some m) : ∀ rule ∈ m.allRules, rule.Conforms labels c.catalog := by
  obtain ⟨x, catalog, exchange, built⟩ := formed.maintenance m found
  obtain ⟨b, made, rfl, marks⟩ := formed.exchange x exchange
  obtain ⟨rules, _, _, given, -, composed⟩ := Build.composed_ofCatalog own made
  have kept := marks.keepsColumns
  have safe := composed.safe (Mapping.rules_safe own formed.valid given)
  have typed := composed.typed own formed.valid
    (fun r ruled => (Mapping.rules_fit own formed.valid given r ruled).head)
    (⟨trivial, fun _ => trivial, trusted⟩ : Provenance.Recordable (Literal.IsStated labels) c.trust)
    (Mapping.rules_typed own formed.valid written (maps.stated formed.valid) maps.computed given)
  refine Maintenance.conforms_program built (fun r inside => ?_) fun r inside => (typed r inside).mono kept
  exact ⟨(safe r inside).1.mono kept.covers, (safe r inside).2.mono kept.covers⟩

end Programs

section Schema

-- No relation has the name of another's table, whatever the case of its letters.
def Catalog.TablesApart (catalog : Catalog) : Prop :=
  ∀ r ∈ catalog.relations.values, r.isStored = true → ∀ r' ∈ catalog.relations.values,
    ∀ kind kind', Sql.fold (r'.tableName kind') = Sql.fold (r.tableName kind) → r' = r ∧ kind' = kind

def Sql.Table.created (columns : List (String × ColumnType)) : Table where
  columns := columns.map fun (name, type) => (name, some type)

def Sql.Table.IsCreated (catalog : Catalog) (name : String) (t : Table) : Prop :=
  ∃ r ∈ catalog.relations.values, ∃ kind, r.isStored = true ∧ fold (r.tableName kind) = fold name ∧
    t = Table.created (r.physicalColumns kind) ∧ Distinct ((r.physicalColumns kind).map Prod.fst)

def Sql.Database.IsCreated (catalog : Catalog) (db : Database) : Prop :=
  ∀ name t, db.tables.get? name = some t → t.IsCreated catalog name

variable {catalog : Catalog} {db db' : Database}

theorem Sql.Database.IsCreated.rows (created : db.IsCreated catalog) (table : String) :
    db.rows table = [] := by
  rw [Database.rows]
  cases found : db.tables.get? table with
  | none => rfl
  | some t =>
    obtain ⟨_, -, _, -, -, rfl, -⟩ := created table t found
    rfl

theorem Sql.Database.IsCreated.tabledIn (created : db.IsCreated catalog) (apart : catalog.TablesApart)
    (present : ∀ r ∈ catalog.relations.values.filter Relation.isStored,
      ∀ kind, db.tables.contains (r.tableName kind) = true) : catalog.TabledIn db where
  stored own r found stored kind := by
    have member := NameMap.mem_values.mpr ⟨own, found⟩
    have shown := present r (List.mem_filter.mpr ⟨member, stored⟩) kind
    obtain ⟨t, held⟩ := Sql.Names.get?_of_contains shown
    obtain ⟨r', member', kind', -, named, rfl, distinct⟩ := created _ t held
    obtain ⟨rfl, rfl⟩ := apart r member stored r' member' kind kind' named
    refine ⟨shown, by rw [Database.columns, held]; rfl, distinct, ?_⟩
    rw [created.rows]
    exact List.forall_mem_nil _
  others own r found unstored kind := by
    by_contra present
    obtain ⟨t, held⟩ := Sql.Names.get?_of_contains (by simpa using present)
    obtain ⟨r', member', kind', stored', named, -⟩ := created _ t held
    obtain ⟨rfl, -⟩ := apart r' member' stored' r (NameMap.mem_values.mpr ⟨own, found⟩) kind' kind
      named.symm
    rw [unstored] at stored'
    cases stored'

theorem Sql.Database.distinct_of_repeated {before names : List String}
    (none : repeated? before names = none) : Distinct names ∧ ∀ name ∈ names, listed before name = false := by
  induction names generalizing before with
  | nil => exact ⟨.nil, List.forall_mem_nil _⟩
  | cons name rest ih =>
    rw [repeated?] at none
    split at none
    · cases none
    · rename_i new
      obtain ⟨distinct, apart⟩ := ih none
      refine ⟨distinct_cons.mpr ⟨fun again => ?_, distinct⟩,
        List.forall_mem_cons.mpr ⟨by simpa using new, fun other inside => ?_⟩⟩
      · obtain ⟨other, inside, same⟩ := List.mem_map.mp again
        have fresh := apart other inside
        simp [listed, same] at fresh
      · have fresh := apart other inside
        simp only [listed, List.map_cons, List.contains_cons, Bool.or_eq_false_iff] at fresh ⊢
        exact fresh.2

theorem Sql.Database.execute_createTable_ok {parameter : Int} {name : String}
    {columns : List (String × ColumnType)} {n : Nat}
    (ran : db.execute parameter (.createTable name columns) = .ok (db', n)) :
    db.hasName name = true ∧ db' = db ∨ Distinct (columns.map Prod.fst) ∧
      db' = { db with tables := db.tables.insert name (Table.created columns) } := by
  obtain ⟨_, made, same⟩ := Compiled.bind_ok.mp ran
  cases same
  unfold createTable at made
  split at made
  · cases made
  · split at made
    · rename_i taken
      cases made
      exact .inl ⟨taken, rfl⟩
    · split at made
      · cases made
      · rename_i none
        cases made
        exact .inr ⟨(distinct_of_repeated none).1, rfl⟩

variable {r : Relation} {kind : TableKind} {store store' : Store} {relations : List Relation}

-- A store on which a schema is created, before its views are.
structure Store.IsStarted (catalog : Catalog) (store : Store) : Prop where
  tables : store.database.IsCreated catalog
  views : store.database.views = .empty
  saved : store.saved = none

theorem Store.IsStarted.creates (started : store.IsStarted catalog)
    (member : r ∈ catalog.relations.values) (stored : r.isStored = true)
    (ended : Run.Ends (discard (session.evaluate
      (.createTable (r.tableName kind) (r.physicalColumns kind)) none)) store () store') :
    store'.IsStarted catalog ∧ store'.database.tables.contains (r.tableName kind) = true ∧
      ∀ name, store.database.tables.contains name = true → store'.database.tables.contains name = true := by
  obtain ⟨n, ended⟩ := Run.ends_discard.mp ended
  obtain ⟨ran, same⟩ := Store.ends_evaluate ended
  have saved := same.trans started.saved
  rcases Database.execute_createTable_ok ran with ⟨taken, same⟩ | ⟨distinct, same⟩
  · rw [Database.hasName, started.views, Bool.or_eq_true] at taken
    rw [same]
    exact ⟨⟨same ▸ started.tables, same ▸ started.views, saved⟩, taken.resolve_right fun view => (by cases view),
      fun _ => id⟩
  · refine ⟨⟨fun name t held => ?_, same ▸ started.views, saved⟩, ?_, fun name present => ?_⟩
    · rw [same, Sql.Names.get?_insert] at held
      split at held
      · rename_i here
        cases held
        exact ⟨r, member, kind, stored, here, rfl, distinct⟩
      · exact started.tables name t held
    · rw [same, Sql.Names.contains_insert]
      exact .inl rfl
    · rw [same, Sql.Names.contains_insert]
      exact .inr present

theorem Store.IsStarted.createsAll (started : store.IsStarted catalog)
    (listed : ∀ r ∈ relations, r ∈ catalog.relations.values ∧ r.isStored = true)
    (ended : Run.Ends ((relations.flatMap Relation.createTables).forM fun s =>
      discard (session.evaluate s none)) store () store') :
    store'.IsStarted catalog ∧
      ∀ r ∈ relations, ∀ kind, store'.database.tables.contains (r.tableName kind) = true := by
  have creates {s : Statement} (inside : s ∈ relations.flatMap Relation.createTables) :
      ∃ r ∈ catalog.relations.values, ∃ kind, r.isStored = true ∧
        s = .createTable (r.tableName kind) (r.physicalColumns kind) := by
    obtain ⟨r, member, inside⟩ := List.mem_flatMap.mp inside
    obtain ⟨kind, -, rfl⟩ := List.mem_map.mp inside
    exact ⟨r, (listed r member).1, kind, (listed r member).2, rfl⟩
  have keeps : ∀ s ∈ relations.flatMap Relation.createTables, ∀ before after : Store,
      Run.Ends (discard (session.evaluate s none)) before () after → before.IsStarted catalog →
        after.IsStarted catalog := by
    intro s inside before after ended started
    obtain ⟨r, member, kind, stored, rfl⟩ := creates inside
    exact (started.creates member stored ended).1
  refine ⟨Run.forM_keeps keeps ended started, fun r member kind => ?_⟩
  refine (Run.forM_brings
    (Q := fun store : Store => store.database.tables.contains (r.tableName kind) = true) keeps
    (fun s inside before after ended started present => ?_) ?_ ended started).2
  · obtain ⟨other, member, kind, stored, rfl⟩ := creates inside
    exact (started.creates member stored ended).2.2 _ present
  · obtain ⟨member', stored⟩ := listed r member
    refine ⟨.createTable (r.tableName kind) (r.physicalColumns kind),
      List.mem_flatMap.mpr ⟨r, member, List.mem_map.mpr ⟨kind, by cases kind <;> decide, rfl⟩⟩, ?_⟩
    exact fun before after ended started => (started.creates member' stored ended).2.1

theorem Store.tables_views {ss : List Statement}
    (views : ∀ s ∈ ss, ∃ name columns q, s = .createView name columns q)
    (ended : Run.Ends (ss.forM fun s => discard (session.evaluate s none)) store () store') :
    store'.database.tables = store.database.tables ∧ store'.saved = store.saved := by
  refine Run.forM_keeps (P := fun later : Store => later.database.tables = store.database.tables ∧
    later.saved = store.saved) (fun s inside before after ended had => ?_) ended ⟨rfl, rfl⟩
  obtain ⟨name, columns, q, rfl⟩ := views s inside
  obtain ⟨n, ended⟩ := Run.ends_discard.mp ended
  obtain ⟨ran, saved⟩ := Store.ends_evaluate ended
  have same : before.database.createView name columns q = after.database :=
    congrArg Prod.fst (Except.ok.inj ran)
  refine ⟨?_, saved.trans had.2⟩
  rw [← same, Database.createView]
  split
  · exact had.1
  · exact had.1

theorem Rule.lower_view {config : Config} {iteration : Iteration} {rule : Rule} {ss : List Statement}
    (shows : rule.action = .view) (lowered : rule.lower catalog config iteration = .ok ss) :
    ∀ s ∈ ss, ∃ name columns q, s = .createView name columns q := by
  have lowered := Lowering.lower_ok lowered
  unfold Lowering.lowerRule at lowered
  split at lowered
  · obtain ⟨r, -, lowered⟩ := Compiled.bind_ok.mp lowered
    rw [shows] at lowered
    obtain ⟨s, viewed, lowered⟩ := Compiled.bind_ok.mp lowered
    cases lowered
    obtain ⟨scope, -, viewed⟩ := Compiled.bind_ok.mp viewed
    obtain ⟨projection, -, viewed⟩ := Compiled.bind_ok.mp viewed
    cases viewed
    exact List.forall_mem_singleton.mpr ⟨_, _, _, rfl⟩
  · cases lowered

end Schema

section Stores

variable {labels : String → Prop} {width : Nat} {catalog : Catalog}

-- The database conforms, and with it the one that an open transaction goes back to.
structure Store.ConformsTo (labels : String → Prop) (width : Nat) (catalog : Catalog) (store : Store) :
    Prop where
  database : store.database.ConformsTo labels width catalog
  saved : ∀ db, store.saved = some db → db.ConformsTo labels width catalog

namespace Store

variable {s : Statement} {parameter : Option Int}

theorem preserves_evaluate (keeps : ∀ (db db' : Database) (n : Nat), db.ConformsTo labels width catalog →
      db.execute (parameter.getD 0) s = .ok (db', n) → db'.ConformsTo labels width catalog) :
    Preserves (Store.ConformsTo labels width catalog) (session.evaluate s parameter) := by
  refine Run.keeps_get.bind fun store conforms => ?_
  split
  · rename_i database changed ran
    exact (Run.preserves_set ⟨keeps _ _ _ conforms.database ran, conforms.saved⟩).bind fun _ _ =>
      Run.keeps_pure trivial
  · exact Run.keeps_throw _

theorem preserves_statement (conforms : s.Conforms labels width catalog (parameter.getD 0)) :
    Preserves (Store.ConformsTo labels width catalog) (session.evaluate s parameter) :=
  preserves_evaluate fun _ _ _ before ran => before.execute conforms ran

theorem preserves_delete {table : String} {conditions : List Sql.Expr} :
    Preserves (Store.ConformsTo labels width catalog)
      (session.evaluate (.delete table conditions) parameter) :=
  preserves_statement trivial

theorem preserves_load {r : Relation} {name : String} {kind : TableKind} {rows : List Row}
    (known : catalog.relations.get? name = some r) (each : ∀ row ∈ rows, r.ConformsTo labels width kind row) :
    Preserves (Store.ConformsTo labels width catalog)
      (session.load (r.tableName kind) (Lowering.columnNames r kind) rows) := by
  refine Run.keeps_get.bind fun store conforms => ?_
  split
  · rename_i database count ran
    exact (Run.preserves_set ⟨conforms.database.load known each ran, conforms.saved⟩).bind fun _ _ =>
      Run.keeps_pure trivial
  · exact Run.keeps_throw _

theorem preserves_start : Preserves (Store.ConformsTo labels width catalog) session.start := by
  refine Run.keeps_get.bind fun store conforms => ?_
  split
  · exact Run.preserves_set ⟨conforms.database, fun db same => Option.some.inj same ▸ conforms.database⟩
  · exact Run.keeps_throw _

theorem preserves_commit : Preserves (Store.ConformsTo labels width catalog) session.commit := by
  refine Run.keeps_get.bind fun store conforms => ?_
  split
  · exact Run.preserves_set ⟨conforms.database, fun _ same => by cases same⟩
  · exact Run.keeps_throw _

theorem preserves_rollback : Preserves (Store.ConformsTo labels width catalog) session.rollback := by
  refine Run.preserves_modify fun store conforms => ⟨?_, fun _ same => by cases same⟩
  cases saved : store.saved with
  | none => exact conforms.database
  | some db => exact conforms.saved db saved

end Store

variable {c : Compilation}

theorem Running.lifts_machine (bounded : fitsWord (c.config.maxIterations + 1) = true) :
    (Running.machine Store.session c).Lifts (fun rules => ∀ rule ∈ rules, rule.Conforms labels c.catalog)
      (Preserves fun t => t.state.ConformsTo labels c.config.skolemWidth c.catalog) where
  pure _ := Run.keeps_pure trivial
  bind first next := first.bind fun a _ => next a
  diverged _ := Run.keeps_throw _
  count f := Running.preserves_count f
  group rules k later within conforms := by
    refine Running.preserves_runGroup fun iteration ss either lowered s inside => ?_
    refine Store.preserves_statement (Compilation.all_lowerGroup Sql.Statement.conforms_merge lowered
      (fun rule member own lowers => ?_) s inside)
    have number : iteration.number k = k := by rcases either with rfl | rfl <;> rfl
    have fits : fitsWord (k + 1) = true := by
      have within : k ≤ c.config.maxIterations := within
      simp only [fitsWord, Bool.and_eq_true, decide_eq_true_eq] at bounded ⊢
      omega
    exact Lowering.conforms_lowerRule (conforms rule member) number later fits (Lowering.lower_ok lowers)

theorem Compilation.preserves_runCycle (bounded : fitsWord (c.config.maxIterations + 1) = true)
    (conforms : ∀ m, c.maintenance = some m → ∀ rule ∈ m.allRules, rule.Conforms labels c.catalog) :
    Preserves (Store.ConformsTo labels c.config.skolemWidth c.catalog) (c.runCycle Store.session) := by
  intro store before
  rw [run_runCycle]
  cases found : c.maintenance with
  | none => exact ⟨before, fun _ _ => trivial⟩
  | some m =>
    have ran := (Running.lifts_machine bounded).runProgram_rules
      (fun rule inside => conforms m found rule (List.mem_append_left _ inside))
      (fun name _ => Running.preserves_clearPending fun _ _ _ => Store.preserves_delete)
      ⟨store, {}⟩ before
    exact ⟨ran.1, fun _ _ => trivial⟩

end Stores

namespace Engine

variable {labels : String → Prop} {declared : Catalog} {c : Compilation} {e : Engine Store}
  {α : Type} {name id : String} {r : Relation} {tuple : List Literal} {rule : Rule} {kind : TableKind}

-- Requests for edits and for cycles. Labels were given, and what is loaded has the types of its columns.
def Request.Conforms (labels : String → Prop) (c : Compilation) : Request → Prop
  | .insert _ tuple | .delete _ tuple => ∀ label, .labeledNull label ∈ tuple → labels label
  | .load name tuples => ∀ r, editable c name = .ok r → ∀ tuple ∈ tuples,
      r.Types tuple ∧ ∀ label, .labeledNull label ∈ tuple → labels label
  | .update | .recompute => True
  | _ => False

-- An engine with everything compiled, on a store that conforms.
structure Conforming (labels : String → Prop) (c : Compilation) (e : Engine Store) : Prop where
  ready : e.compilation.ready = (c, .ok ())
  state : e.state.ConformsTo labels c.config.skolemWidth c.catalog

theorem keeps_ready_conforming : Run.Keeps (Conforming labels c) ready (· = c) := by
  intro e conforming
  rw [ready, run_recompile, conforming.ready]
  refine ⟨⟨ready_again conforming.ready, conforming.state⟩, fun a same => ?_⟩
  cases same
  rfl

theorem preserves_call {act : Run Store α}
    (preserves : Preserves (Store.ConformsTo labels c.config.skolemWidth c.catalog) act) :
    Preserves (Conforming labels c) (call act) :=
  preserves.within (fun _ had => had.state) fun _ _ had after => ⟨had.ready, after⟩

theorem preserves_conforming (conforms : rule.Conforms labels c.catalog) :
    Preserves (Conforming labels c) (runRule Store.session c rule) := by
  refine (Run.keeps_compiled _).bind fun ss lowered => ?_
  have each := Lowering.conforms_lowerRule (k := 0) conforms rfl (Int.le_refl 0) rfl
    (Lowering.lower_ok lowered)
  exact (Run.preserves_mapM fun s inside => preserves_call (Store.preserves_statement (each s inside))).bind
    fun _ _ => (Run.preserves_counted _).discard

theorem preserves_stated (known : c.catalog.relations.get? r.name = some r ∧ r.stratified = false)
    (stated : fact c r id kind tuple = .ok rule)
    (given : ∀ label, .labeledNull label ∈ tuple → labels label) :
    Preserves (Conforming labels c) (runRule Store.session c rule) := by
  obtain ⟨row, es, arity, laid, typed, spells, lowers⟩ := states_row known stated
  have row_conforms : r.ConformsTo labels c.config.skolemWidth kind row :=
    Relation.conforms_toRow known.2 arity laid typed given
  refine (Run.keeps_compiled _).bind fun ss lowered => ?_
  cases lowers.symm.trans lowered
  refine (Run.preserves_mapM (List.forall_mem_singleton.mpr (preserves_call ?_))).bind fun _ _ =>
    (Run.preserves_counted _).discard
  exact Store.preserves_evaluate fun db _ _ conforms ran => conforms.load known.1
    (List.forall_mem_singleton.mpr row_conforms) ((spells.execute db).symm.trans ran)

theorem preserves_cancel (known : c.catalog.relations.get? r.name = some r ∧ r.stratified = false) :
    Preserves (Conforming labels c) (cancel Store.session c r tuple) := by
  unfold cancel
  split
  · exact (Run.keeps_compiled _).bind fun _ _ =>
      (preserves_call Store.preserves_delete).discard
  · refine (Run.keeps_compiled _).bind fun rule stated => (Run.keeps_compiled _).bind fun ss lowered => ?_
    obtain ⟨-, -, rfl⟩ := (fact_ok known.1).mp stated
    obtain ⟨conditions, rfl, -⟩ := Relation.lower_cancellation known.1 lowered
    refine (Run.preserves_mapM (List.forall_mem_singleton.mpr (preserves_call ?_))).bind fun _ _ =>
      (Run.preserves_counted _).discard
    exact Store.preserves_delete

theorem preserves_conforming_transaction {act : Act Store α}
    (preserves : Preserves (Conforming labels c) act) :
    Preserves (Conforming labels c) (transaction Store.session act) :=
  preserves_transaction (preserves_call Store.preserves_start) (preserves_call Store.preserves_commit)
    (preserves_call Store.preserves_rollback) preserves

section Requests

variable (bounded : fitsWord (c.config.maxIterations + 1) = true)
  (conforms : ∀ m, c.maintenance = some m → ∀ rule ∈ m.allRules, rule.Conforms labels c.catalog)

include bounded conforms

theorem preserves_update : Preserves (Conforming labels c) (update Store.session) := by
  refine keeps_ready_conforming.bind fun _ same => ?_
  subst same
  exact preserves_conforming_transaction (preserves_call (Compilation.preserves_runCycle bounded conforms))

theorem preserves_recompute : Preserves (Conforming labels c) (recompute Store.session) := by
  refine (preserves_update bounded conforms).discard.bind fun _ _ => Run.keeps_get.bind fun e had => ?_
  refine preserves_conforming_transaction ?_
  split
  · exact Run.keeps_pure trivial
  · rename_i m found
    have same : e.compilation = c := by
      have ready := had.ready
      rw [Compilation.ready, found] at ready
      exact congrArg Prod.fst ready
    rw [same] at found ⊢
    refine Run.Keeps.bind (Q := fun _ => True) ?_ fun _ _ =>
      preserves_call (Compilation.preserves_runCycle bounded conforms)
    refine (Run.keeps_compiled _).bind fun _ _ => (Run.preserves_forM fun rule inside => ?_).bind
      fun _ _ => Run.preserves_forM fun r _ => (preserves_call Store.preserves_delete).discard
    exact preserves_conforming (conforms m found rule (List.mem_append_right _ inside))

theorem preserves_perform (formed : Formed declared c) (ready : c.ready = (c, .ok ())) {request : Request}
    (asks : request.Conforms labels c) :
    Preserves (Conforming labels c) (perform Store.session request) := by
  cases request with
  | insert name tuple =>
    refine keeps_ready_conforming.bind fun _ same => ?_
    subst same
    exact (Run.keeps_compiled _).bind fun r edited => (Run.keeps_compiled _).bind fun rule stated =>
      preserves_stated (known_of_editable formed ready edited) stated asks
  | delete name tuple =>
    refine keeps_ready_conforming.bind fun _ same => ?_
    subst same
    exact (Run.keeps_compiled _).bind fun r edited => (Run.keeps_compiled _).bind fun rule stated =>
      (preserves_stated (known_of_editable formed ready edited) stated asks).bind fun _ _ =>
        preserves_cancel (known_of_editable formed ready edited)
  | load name tuples =>
    refine (keeps_ready_conforming.bind fun _ same => ?_).discard (Q := fun _ => True)
    subst same
    refine (Run.keeps_compiled _).bind fun r edited => (Run.keeps_compiled _).bind fun rows laid => ?_
    obtain ⟨known, flat⟩ := known_of_editable formed ready edited
    refine preserves_call (Store.preserves_load known fun row inside => ?_)
    obtain ⟨tuple, listed, imported⟩ := Compiled.forall₂_source (Compiled.forall₂_of_mapM laid) inside
    obtain ⟨arity, laid⟩ := importedRow_ok.mp imported
    obtain ⟨typed, given⟩ := asks r edited tuple listed
    exact Relation.conforms_toRow flat arity laid typed given
  | update => exact (preserves_update bounded conforms).discard
  | recompute => exact (preserves_recompute bounded conforms).discard
  | _ => exact asks.elim

end Requests

theorem conforming_schema {e' : Engine Store} (formed : Formed declared c) (own : declared.IsDeclared)
    (made : e.compilation.ready = (c, .ok ())) (apart : c.catalog.TablesApart) (empty : e.state = {})
    (ended : Run.Ends (createSchema Store.session) e () e') : Conforming labels c e' := by
  obtain ⟨_, _, readied, ended⟩ := Run.ends_bind.mp ended
  obtain ⟨again, rfl⟩ := ends_ready.mp readied
  cases made.symm.trans again
  obtain ⟨ss, _, compiled, ended⟩ := Run.ends_bind.mp ended
  obtain ⟨schema, rfl⟩ := Run.ends_compiled.mp compiled
  obtain ⟨ran, same⟩ := ends_call.mp ended
  obtain ⟨shown, viewed, schema⟩ := Compiled.bind_ok.mp schema
  cases schema
  have ran : Run.Ends (forM (_ ++ shown.flatten) fun s => discard (Store.session.evaluate s none))
    e.state () e'.state := ran
  rw [List.forM_append, empty] at ran
  obtain ⟨⟨⟩, middle, tabled, ran⟩ := Run.ends_bind.mp ran
  have views : ∀ s ∈ shown.flatten, ∃ name columns q, s = .createView name columns q := by
    intro s inside
    obtain ⟨ss, listed, inside⟩ := List.exists_of_mem_flatten inside
    obtain ⟨v, member, lowered⟩ := Compiled.forall₂_source (Compiled.forall₂_of_mapM viewed) listed
    refine Rule.lower_view ?_ lowered s inside
    cases found : c.exchange with
    | none =>
      rw [found] at member
      cases member
    | some x =>
      rw [found] at member
      obtain ⟨b, built, rfl, -⟩ := formed.exchange x found
      obtain ⟨target, members, same, -⟩ := (Build.shown_ofCatalog own built v member).parts
      obtain rfl : (OuterJoinView.build target members).1 = v := congrArg Prod.fst same
      rfl
  have started : ({} : Store).IsStarted c.catalog := ⟨fun _ _ held => (by cases held), rfl, rfl⟩
  obtain ⟨started, present⟩ := started.createsAll (fun _ => List.mem_filter.mp) tabled
  obtain ⟨tables, saved⟩ := Store.tables_views views ran
  have created : e'.state.database.IsCreated c.catalog := fun name t held =>
    started.tables name t (tables ▸ held)
  refine ⟨same.symm ▸ ready_again made, ⟨created.tabledIn apart (tables.symm ▸ present),
    fun table row inside => ?_⟩, fun db held => ?_⟩
  · rw [created.rows] at inside
    cases inside
  · rw [saved, started.saved] at held
    cases held

-- Edits and cycles from empty tables on leave only values that conform to the types of their columns,
-- as long as what is loaded has those types and so has what built-ins compute.
theorem stored_values_conform {text : String} {program : Program} {config : Config} {start : Compilation}
    {requests edits : List Request} {e' : Engine Store} (parsed : Program.parse text = .ok program)
    (created : Compilation.ofCatalog program.catalog config = .ok start)
    (starts : e = after Store.session requests ⟨start, {}⟩) (empty : e.state = {})
    (made : e.compilation.ready = (c, .ok ())) (apart : c.catalog.TablesApart)
    (schema : Run.Ends (createSchema Store.session) e () e') (maps : program.catalog.MapsTyped labels)
    (trusted : ∀ peer source, fitsWord (c.trust.priority peer source) = true)
    (bounded : fitsWord (c.config.maxIterations + 1) = true)
    (asks : ∀ request ∈ edits, request.Conforms labels c) :
    ∀ own r, c.catalog.relations.get? own = some r → r.isStored = true → ∀ kind,
      let db := (after Store.session edits e').state.database
      r.StoredIn kind db ∧
        ∀ row ∈ db.rows (r.tableName kind), r.ConformsTo labels c.config.skolemWidth kind row := by
  have own := Program.parse_declared parsed
  have before : Formed program.catalog e.compilation :=
    starts ▸ after_keeps (compiles_formed _) requests (Compilation.formed_of_created created)
  have formed := before.ready
  rw [made] at formed
  have conforms (m : Maintenance) (found : c.maintenance = some m) :=
    formed.conforms own (Program.written_of_parse parsed) maps trusted found
  have started : Conforming labels c e' := conforming_schema formed own made apart empty schema
  have ended := preserves_after (fun request asked =>
    preserves_perform bounded conforms formed (ready_again made) (asks request asked)) started
  intro name r found stored kind
  have tabled := ended.state.database.tabled.stored name r found stored kind
  exact ⟨tabled, fun row inside => tabled.conforms ended.state.database.values inside⟩

section Tags

def tagText : String :=
  "peer A { relation R(a: int); } peer B { relation S(a: int, b: text); } mapping m: S(x, y) :- R(x)."

def tagRelation : Relation :=
  { name := "S", peer := some "B", columns := [⟨"a", .integer, false⟩, ⟨"b", .text, false⟩] }

def tagCatalog : Catalog where
  peers := [⟨"A", ["R"]⟩, ⟨"B", ["S"]⟩]
  relations := .ofList [unaryRelation "R" "A", ("S", tagRelation)]
  mappings := [.ofHeads "m" [.ofRelation "S" [.var "x", .var "y"]] [.ofRelation "R" [.var "x"]]]

def tagStart : Compilation := { declared := tagCatalog, catalog := tagCatalog, config := {} }

def tagReady : Compilation := tagStart.ready.1

def tagEngine : Engine Store := after Store.session [.schema] ⟨tagStart, {}⟩

def tagEdits : List Request :=
  [.insert "R" [.integer 1], .load "R" [[.integer 2]], .insert "R" [.labeledNull "u"], .update]

theorem tag_parsed : ∃ program, Program.parse tagText = .ok program ∧ program.catalog = tagCatalog :=
  Program.parsesTo_parts (by decide +kernel)

theorem tag_created : Compilation.ofCatalog tagCatalog {} = .ok tagStart := by cbv

theorem tag_ready : tagStart.ready = (tagReady, .ok ()) := Prod.ext rfl (eq_ok_of_toOption (by decide +kernel))

theorem tag_schema : Run.Ends (createSchema Store.session) ⟨tagStart, {}⟩ () tagEngine :=
  Prod.ext (eq_ok_of_toOption (by decide +kernel)) rfl

theorem tag_apart : tagReady.catalog.TablesApart := by
  have checked : (tagReady.catalog.relations.values.all fun r =>
      tagReady.catalog.relations.values.all fun r' => TableKind.all.all fun kind =>
        TableKind.all.all fun kind' =>
          Sql.fold (r'.tableName kind') ≠ Sql.fold (r.tableName kind) ||
            (r' = r && kind' = kind)) = true := by
    decide +kernel
  simp only [List.all_eq_true, Bool.or_eq_true, Bool.and_eq_true, decide_eq_true_eq] at checked
  intro r member _ r' member' kind kind' same
  have all (kind : TableKind) : kind ∈ TableKind.all := by cases kind <;> decide
  exact (checked r member r' member' kind (all kind) kind' (all kind')).resolve_left (not_not_intro same)

theorem tag_maps : tagCatalog.MapsTyped (· = "u") where
  named m member a inside own label arg := by
    obtain rfl := List.mem_singleton.mp member
    rcases List.mem_pair.mp inside with rfl | rfl
    · rcases List.mem_pair.mp arg with same | same <;> cases same
    · cases List.mem_singleton.mp arg
  computed m member computes := by
    obtain rfl := List.mem_singleton.mp member
    obtain ⟨a, inside, op, called, -⟩ := computes
    obtain rfl := List.mem_singleton.mp inside
    cases called

theorem tag_asks : ∀ request ∈ tagEdits, request.Conforms (· = "u") tagReady := by
  have into : (editable tagReady "R").toOption = some (unaryRelation "R" "A").2.localRelation := by decide +kernel
  refine List.forall_mem_cons.mpr ⟨?_, List.forall_mem_cons.mpr ⟨?_, List.forall_mem_cons.mpr ⟨?_,
    List.forall_mem_singleton.mpr trivial⟩⟩⟩
  · intro label given
    cases List.mem_singleton.mp given
  · intro r edited tuple inside
    cases (eq_ok_of_toOption into).symm.trans edited
    obtain rfl := List.mem_singleton.mp inside
    refine ⟨fun literal c placed type same => ?_, fun label given => ?_⟩
    · cases List.mem_singleton.mp placed
      cases same
      rfl
    · cases List.mem_singleton.mp given
  · intro label given
    cases List.mem_singleton.mp given
    rfl

theorem stored_values_conform_tags :
    let rows := (after Store.session tagEdits tagEngine).state.database.rows "S"
    rows = [[.integer 1, .text "m_y(1)"], [.integer 2, .text "m_y(2)"], [.text "u", .text "m_y(u)"]] ∧
      ∀ row ∈ rows, tagRelation.ConformsTo (· = "u") 64 .base row := by
  have rows : (after Store.session tagEdits tagEngine).state.database.rows "S" =
      [[.integer 1, .text "m_y(1)"], [.integer 2, .text "m_y(2)"], [.text "u", .text "m_y(u)"]] := by
    decide +kernel
  have found : tagReady.catalog.relations.get? "S" = some tagRelation := by decide +kernel
  have trust : tagReady.trust = {} := by decide +kernel
  have config : tagReady.config = {} := by decide +kernel
  have trusted (peer source : String) : fitsWord (tagReady.trust.priority peer source) = true := by
    rw [trust]
    rfl
  have bounded : fitsWord (tagReady.config.maxIterations + 1) = true := by
    rw [config]
    rfl
  have starts : (⟨tagStart, {}⟩ : Engine Store) = after Store.session [] ⟨tagStart, {}⟩ := rfl
  obtain ⟨program, parsed, same⟩ := tag_parsed
  have all := stored_values_conform parsed (same ▸ tag_created) starts rfl tag_ready tag_apart tag_schema
    (same ▸ tag_maps) trusted bounded tag_asks "S" tagRelation found rfl .base
  rw [config] at all
  exact ⟨rows, all.2⟩

-- A text is loaded into a column of numbers, and the cycle carries it on.
theorem text_stored_in_numbers :
    let db := (after Store.session [.load "R" [[.string "abc"]], .update] tagEngine).state.database
    db.rows "S" = [[.text "abc", .text "m_y(abc)"]] ∧
      ∀ row ∈ db.rows "S", ¬ tagRelation.ConformsTo (fun _ => False) 64 .base row := by
  intro db
  have rows : db.rows "S" = [[.text "abc", .text "m_y(abc)"]] := by decide +kernel
  refine ⟨rows, ?_⟩
  rw [rows]
  refine List.forall_mem_singleton.mpr fun conforms => ?_
  cases conforms with
  | cons here => exact Sql.Value.not_conforms_text (by decide) here

end Tags

end Engine

end PeerExchange
