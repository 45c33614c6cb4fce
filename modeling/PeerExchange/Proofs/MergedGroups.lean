import PeerExchange.Proofs.MergedInsertions
import PeerExchange.Proofs.ScopedStatements

namespace PeerExchange

namespace Sql

def Statement.ReadsOthers : Statement → Prop
  | .insert table _ (.query q) => ∀ s ∈ q.selects, ∀ read ∈ s.tables, fold table ≠ fold read
  | _ => True

namespace Database

variable {db db' : Database} {k : Int} {n : Nat} {table : String} {names : List String} {q : Query}
  {queries : List Query} {rows more : List Row} {t : Table}

theorem setRows_setRows (found : db.tables.get? table = some t) :
    (db.setRows table rows).setRows table more = db.setRows table more := by
  have value : db.tables.byFold.get? (fold table) = some t := found
  simp only [setRows, Names.modify, NameMap.modify, value, NameMap.get?_insert, if_pos,
    NameMap.insert_insert]

-- The database with more rows in one of its tables.
def filled (db : Database) (table : String) (t : Table) (names : List String) (rows : List Row) :
    Database :=
  db.setRows table (t.rows ++ rows.map (t.fill names))

theorem execute_query_iff : db.execute k (.insert table names (.query q)) = .ok (db', n) ↔
    names ≠ [] ∧ ∃ t, db.tables.get? table = some t ∧ t.checkColumns table names = .ok () ∧
      q.check db = .ok () ∧ db' = db.filled table t names (q.rows ⟨db, k⟩) ∧
      n = (q.rows ⟨db, k⟩).length := by
  rw [execute, insert]
  by_cases none : names = []
  · rw [none, if_pos (show ([] : List String).isEmpty = true from rfl)]
    exact ⟨fun ran => (by cases ran), fun right => absurd rfl right.1⟩
  · rw [if_neg (by simpa using none)]
    constructor
    · intro ran
      obtain ⟨t, found, ran⟩ := Compiled.bind_ok.mp ran
      obtain ⟨⟨⟩, listed, ran⟩ := Compiled.bind_ok.mp ran
      obtain ⟨⟨⟩, checked, ran⟩ := Compiled.bind_ok.mp ran
      cases ran
      exact ⟨none, t, target_ok found, listed, checked, rfl, rfl⟩
    · rintro ⟨-, t, found, listed, checked, rfl, rfl⟩
      have target : db.target table = .ok t := by rw [target, found]
      exact Compiled.bind_ok.mpr ⟨t, target, Compiled.bind_ok.mpr ⟨(), listed,
        Compiled.bind_ok.mpr ⟨(), checked, rfl⟩⟩⟩

section Arms

variable (found : db.tables.get? table = some t)
include found

theorem tables_filled : (db.filled table t names rows).tables.get? table =
    some { t with rows := t.rows ++ rows.map (t.fill names) } := by
  rw [filled, tables_setRows found, if_pos rfl]

theorem filled_filled : (db.filled table t names rows).filled table
    { t with rows := t.rows ++ rows.map (t.fill names) } names more =
      db.filled table t names (rows ++ more) := by
  have fills : Table.fill { t with rows := t.rows ++ rows.map (t.fill names) } names = t.fill names := rfl
  rw [filled, filled, setRows_setRows found, fills, List.append_assoc, ← List.map_append, filled]

omit found in
theorem query_filled (apart : ∀ s ∈ q.checked, ∀ read ∈ s.tables, fold table ≠ fold read) :
    q.check (db.filled table t names rows) = q.check db ∧
      q.rows ⟨db.filled table t names rows, k⟩ = q.rows ⟨db, k⟩ := by
  have changes : ChangesIn (· = table) db (db.filled table t names rows) := changesIn_setRows rfl
  refine ⟨Query.check_columns changes.present (funext changes.columns), Query.rows_agree ?_⟩
  intro s inside read listed
  exact ⟨changes.columns read, changes.rows (elsewhere_singleton.mpr (apart s inside read listed))⟩

theorem executes_apart (named : names ≠ []) (columns : t.checkColumns table names = .ok ())
    (apart : ∀ q ∈ queries, ∀ s ∈ q.checked, ∀ read ∈ s.tables, fold table ≠ fold read) :
    Executes k (queries.map fun q => .insert table names (.query q)) (db.filled table t names rows) n db' ↔
      (∀ q ∈ queries, q.check db = .ok ()) ∧
        db' = db.filled table t names (rows ++ queries.flatMap (Query.rows ⟨db, k⟩)) ∧
        n = (queries.flatMap (Query.rows ⟨db, k⟩)).length := by
  induction queries generalizing rows n with
  | nil =>
    rw [List.map_nil, List.flatMap_nil, List.append_nil]
    constructor
    · intro ran
      cases ran
      exact ⟨List.forall_mem_nil _, rfl, rfl⟩
    · rintro ⟨-, rfl, rfl⟩
      exact .nil _
  | cons q rest ih =>
    obtain ⟨here, later⟩ := List.forall_mem_cons.mp apart
    obtain ⟨checks, gives⟩ := @query_filled db k table names q rows t here
    have step {middle : Database} {m : Nat} :
        (db.filled table t names rows).execute k (.insert table names (.query q)) = .ok (middle, m) ↔
          q.check db = .ok () ∧ middle = db.filled table t names (rows ++ q.rows ⟨db, k⟩) ∧
            m = (q.rows ⟨db, k⟩).length := by
      rw [execute_query_iff, checks, gives]
      constructor
      · rintro ⟨-, t', found', -, checked, rfl, rfl⟩
        cases (tables_filled found).symm.trans found'
        exact ⟨checked, filled_filled found, rfl⟩
      · rintro ⟨checked, rfl, rfl⟩
        exact ⟨named, _, tables_filled found, columns, checked, (filled_filled found).symm, rfl⟩
    rw [List.map_cons, List.flatMap_cons, List.forall_mem_cons, List.length_append, ← List.append_assoc]
    constructor
    · intro ran
      cases ran with
      | cons executed others =>
        obtain ⟨checked, rfl, rfl⟩ := step.mp executed
        obtain ⟨each, rfl, rfl⟩ := (ih later).mp others
        exact ⟨⟨checked, each⟩, rfl, rfl⟩
    · rintro ⟨⟨checked, each⟩, rfl, rfl⟩
      exact .cons (step.mpr ⟨checked, rfl, rfl⟩) ((ih later).mpr ⟨each, rfl, rfl⟩)

theorem filled_nil : db.filled table t names [] = db := by
  have value : db.tables.byFold.get? (fold table) = some t := found
  simp only [filled, List.map_nil, List.append_nil, setRows, Names.modify, NameMap.modify, value,
    NameMap.insert_same value]

end Arms

section Unions

variable (plain : ∀ q ∈ queries, q.except = none)
include plain

theorem check_union_iff :
    Query.check db { selects := queries.flatMap Query.selects, all := true } = .ok () ↔
      ∀ q ∈ queries, q.check db = .ok () := by
  refine ⟨fun checked q inside => ?_, Query.check_union true⟩
  obtain ⟨present, resolved⟩ := checkNames_eq_ok checked
  have united {s : Select} (arm : s ∈ q.checked) :
      s ∈ Query.checked { selects := queries.flatMap Query.selects, all := true } := by
    rw [Query.checked, plain q inside] at arm
    exact List.mem_append_right _ (List.mem_reverse.mpr
      (List.mem_flatMap.mpr ⟨q, inside, List.mem_reverse.mp arm⟩))
  refine checkNames_ok (fun read listed => ?_) (List.flatMap_eq_nil_iff.mpr fun s arm => ?_)
  · obtain ⟨s, arm, listed⟩ := List.mem_flatMap.mp listed
    exact present read (List.mem_flatMap.mpr ⟨s, united arm, listed⟩)
  · exact List.flatMap_eq_nil_iff.mp resolved s (united arm)

theorem execute_union_iff (several : queries ≠ []) (single : ∀ q ∈ queries, q.selects.length = 1)
    (apart : ∀ q ∈ queries, (Statement.insert table names (.query q)).ReadsOthers) :
    db.execute k (.union true table names queries) = .ok (db', n) ↔
      Executes k (queries.map fun q => .insert table names (.query q)) db n db' := by
  have others : ∀ q ∈ queries, ∀ s ∈ q.checked, ∀ read ∈ s.tables, fold table ≠ fold read := by
    intro q inside s arm
    rw [Query.checked, plain q inside] at arm
    exact apart q inside s (List.mem_reverse.mp arm)
  constructor
  · intro ran
    obtain ⟨named, t, found, columns, checked, rfl, rfl⟩ := execute_query_iff.mp ran
    rw [Query.rows_union plain single]
    have all : Executes k (queries.map fun q => .insert table names (.query q))
        (db.filled table t names []) _ _ :=
      (executes_apart found named columns others).mpr ⟨(check_union_iff plain).mp checked, rfl, rfl⟩
    rwa [filled_nil found, List.nil_append] at all
  · intro ran
    have begins : names ≠ [] ∧ ∃ t, db.tables.get? table = some t ∧
        t.checkColumns table names = .ok () := by
      obtain ⟨first, rest, rfl⟩ := List.exists_cons_of_ne_nil several
      cases ran with
      | cons here =>
        obtain ⟨named, t, found, columns, -⟩ := execute_query_iff.mp here
        exact ⟨named, t, found, columns⟩
    obtain ⟨named, t, found, columns⟩ := begins
    have start : db.filled table t names [] = db := filled_nil found
    rw [← start] at ran
    obtain ⟨each, rfl, rfl⟩ := (executes_apart found named columns others).mp ran
    rw [List.nil_append, ← Query.rows_union plain single]
    exact execute_query_iff.mpr ⟨named, t, found, columns, (check_union_iff plain).mpr each, rfl, rfl⟩

end Unions

theorem executes_append {first second : List Statement} :
    Executes k (first ++ second) db n db' ↔
      ∃ middle i j, n = i + j ∧ Executes k first db i middle ∧ Executes k second middle j db' := by
  induction first generalizing db n with
  | nil =>
    constructor
    · exact fun ran => ⟨db, 0, n, (Nat.zero_add n).symm, .nil db, ran⟩
    · rintro ⟨middle, i, j, rfl, none, ran⟩
      cases none
      rwa [Nat.zero_add]
  | cons s rest ih =>
    constructor
    · intro ran
      cases ran with
      | cons here later =>
        obtain ⟨middle, i, j, rfl, before, after⟩ := ih.mp later
        exact ⟨middle, _, j, (Nat.add_assoc ..).symm, .cons here before, after⟩
    · rintro ⟨middle, i, j, rfl, before, after⟩
      cases before with
      | cons here later =>
        rw [Nat.add_assoc]
        exact .cons here (ih.mpr ⟨middle, _, j, rfl, later, after⟩)

theorem executes_singleton {s : Statement} :
    Executes k [s] db n db' ↔ db.execute k s = .ok (db', n) :=
  ⟨Executes.single, fun ran => .cons ran (.nil db')⟩

theorem executes_flatten {runs : List (List Statement)} {statements : List Statement}
    (each : List.Forall₂ (fun run s => ∀ db n db', db.execute k s = .ok (db', n) ↔
      Executes k run db n db') runs statements) :
    Executes k statements db n db' ↔ Executes k runs.flatten db n db' := by
  induction each generalizing db n with
  | nil => exact Iff.rfl
  | @cons run s _ rest here _ ih =>
    rw [← List.singleton_append, executes_append, List.flatten_cons, executes_append]
    simp only [executes_singleton, here, ih]

end Database

theorem Batch.StandsFor.execute_iff {merging : Option (Nat × Bool)} {run : List Statement}
    {s : Statement} {k : Int} (bags : ∀ limit all, merging = some (limit, all) → all = true)
    (stands : Batch.StandsFor merging run s) (single : ∀ s ∈ run, s.SingleArm)
    (apart : ∀ s ∈ run, s.ReadsOthers) (db : Database) (n : Nat) (db' : Database) :
    db.execute k s = .ok (db', n) ↔ Database.Executes k run db n db' := by
  cases stands with
  | alone => exact Database.executes_singleton.symm
  | @union limit all table names queries wanted several plain _ =>
    obtain rfl := bags limit all wanted
    refine Database.execute_union_iff plain (List.ne_nil_of_length_pos (Nat.zero_lt_of_lt several))
      (fun q inside => ?_) fun q inside => ?_
    · exact single _ (List.mem_map_of_mem inside)
    · exact apart _ (List.mem_map_of_mem inside)

end Sql

namespace Lowering

open Sql (Database Expr Select Source Statement Visible)

section Groups

variable {catalog : Catalog} {config : Config} {iteration : Iteration} {rules : List Rule} {k : Int}
  {db db' : Database} {n : Nat}

-- Without set semantics, a group of which no rule reads a table that it adds to does the same merged
-- and unmerged.
theorem lowerGroup_executes_iff (bags : config.setSemantics = false)
    (apart : ∀ rule ∈ rules, ∀ s ∈ statementsOf catalog config iteration rule, s.ReadsOthers) :
    Database.Executes k (lowerGroup catalog config iteration rules).statements db n db' ↔
      Database.Executes k (lowerGroup catalog { config with mergeStatements := false } iteration
        rules).statements db n db' := by
  have same : rules.flatMap (statementsOf catalog { config with mergeStatements := false } iteration) =
      rules.flatMap (statementsOf catalog config iteration) := by
    refine List.flatMap_congr fun rule _ => ?_
    rw [statementsOf, statementsOf, lower_batched]
  have kind : ∀ limit all, merging config = some (limit, all) → all = true := by
    intro limit all wanted
    unfold merging at wanted
    split at wanted
    · cases wanted
      rw [bags]
      rfl
    · cases wanted
  obtain ⟨runs, covered, stands⟩ := lowerGroup_stands catalog config iteration rules
  rw [@lowerGroup_unmerged catalog { config with mergeStatements := false } iteration rfl rules, same,
    ← covered]
  refine Database.executes_flatten ?_
  have each : ∀ run ∈ runs, ∀ s ∈ run, s.SingleArm ∧ s.ReadsOthers := by
    intro run listed s inside
    have member : s ∈ rules.flatMap (statementsOf catalog config iteration) :=
      covered ▸ List.mem_flatten.mpr ⟨run, listed, inside⟩
    obtain ⟨rule, own, stated⟩ := List.mem_flatMap.mp member
    exact ⟨singleArm_statementsOf rule s stated, apart rule own s stated⟩
  refine List.forall₂_iff_zip.mpr ⟨stands.length_eq, fun inside => ?_⟩
  obtain ⟨listed, -⟩ := List.of_mem_zip inside
  have here := (List.forall₂_iff_zip.mp stands).2 inside
  exact here.execute_iff kind (fun s inside => (each _ listed s inside).1)
    fun s inside => (each _ listed s inside).2

end Groups

section Reads

variable {ctx : Context} {guard : Option Guard} {body : List Atom} {a : Atom} {s : Scope}
  {bindings : Bindings} {v : Visible} {aliases aliases' : Nat} {q : Select} {es : List Expr}

theorem tables_negatedSelect (named : ctx.catalog.IsNamed) (plain : a.optional = false)
    (all : AllWithin v bindings) (lowered : negatedSelect ctx bindings aliases a = .ok q) :
    ∀ read ∈ q.tables, RowSemantics.tableOf ctx.catalog a = read := by
  obtain ⟨inner, joined, lowered⟩ := Compiled.bind_ok.mp lowered
  obtain ⟨es, each, lowered⟩ := Compiled.bind_ok.mp lowered
  cases lowered
  obtain ⟨own, opened⟩ :=
    (opened_nil all).joinAtom named (Visible.shown_cons : Visible.Shown v [v]) joined
  obtain ⟨r, added⟩ := joinAtom_joined (a := { a with negated := false }) plain rfl joined
  have none := Expr.allTables_within es (Expr.allWithin_iff.mpr
    (allConditions_within opened.bindings opened.pending each))
  have sources : inner.sources = [Join.source ⟨0, { a with negated := false }, r, aliases⟩] := added.sources
  rw [Select.tables, none, sources]
  intro read inside
  have known := List.forall_mem_singleton.mp added.relations
  have same : r.tableName a.kind = read := by
    simpa [Source.tables, Source.conditionTables, Join.source, Source.joined, Join.table,
      Expr.allTables, eq_comm] using inside
  exact (tableOf_eq known).trans same

theorem tables_negatedConditions (named : ctx.catalog.IsNamed) (plain : ∀ a ∈ body, a.optional = false)
    (all : AllWithin v bindings)
    (lowered : negatedConditions ctx bindings aliases body = .ok (es, aliases')) :
    ∀ read ∈ Expr.allTables es,
      ∃ a ∈ body, a.builtin? = none ∧ RowSemantics.tableOf ctx.catalog a = read := by
  induction body generalizing es aliases with
  | nil =>
    cases lowered
    rw [Expr.allTables]
    exact List.forall_mem_nil _
  | cons a rest ih =>
    obtain ⟨own, plain⟩ := List.forall_mem_cons.mp plain
    unfold negatedConditions at lowered
    split at lowered
    · cases lowered
    · rename_i called
      obtain ⟨q, here, lowered⟩ := Compiled.bind_ok.mp lowered
      obtain ⟨⟨others, after⟩, later, lowered⟩ := Compiled.bind_ok.mp lowered
      cases lowered
      rw [Expr.allTables, Expr.tables]
      refine List.forall_mem_append.mpr ⟨fun read inside => ?_, fun read inside => ?_⟩
      · exact ⟨a, List.mem_cons_self, called, tables_negatedSelect named own all here read inside⟩
      · obtain ⟨b, member, each⟩ := ih plain later read inside
        exact ⟨b, List.mem_cons_of_mem _ member, each⟩

theorem tables_selection (named : ctx.catalog.IsNamed) (plain : ∀ a ∈ body, a.optional = false)
    (lowered : lowerBody ctx guard body = .ok s) {head : Atom} {r : Relation} {projection : List Expr}
    (projected : project ctx r head s.bindings = .ok projection) :
    ∀ read ∈ (selection ctx s projection).tables,
      ∃ a ∈ body, a.builtin? = none ∧ RowSemantics.tableOf ctx.catalog a = read := by
  obtain ⟨own, _, joined, own', negations, ran, -, all, within, negated, sources, conditions⟩ :=
    lowerBody_opened named [] lowered
  obtain ⟨joins, positives, added⟩ := joinAtoms_joined plain rfl ran
  have items : s.sources = joins.map Join.source := sources.trans (added.sources.trans (List.nil_append _))
  have projects := Expr.allTables_within projection (Expr.allWithin_iff.mpr
    (project_within all (show fitsWord 0 = true from rfl) projected))
  have settled := Expr.allTables_within own' (Expr.allWithin_iff.mpr within)
  have later := tables_negatedConditions named
    (fun a inside => plain a (List.mem_of_mem_filter inside)) all negated
  rw [Expr.allTables_eq_flatMap] at settled later
  rw [selection, Select.tables, items, projects, conditionTables_joined, conditions,
    Expr.allTables_eq_flatMap, List.flatMap_append, settled]
  simp only [List.append_nil, List.nil_append, List.forall_mem_append]
  refine ⟨fun read inside => ?_, fun read inside => ?_⟩
  · rw [Source.tables_eq_map] at inside
    obtain ⟨source, listed, rfl⟩ := List.mem_map.mp inside
    obtain ⟨j, member, rfl⟩ := List.mem_map.mp listed
    have placed : (j.position, j.atom) ∈ RowSemantics.positives 0 body :=
      positives ▸ List.mem_map.mpr ⟨j, member, rfl⟩
    obtain ⟨inside, positive⟩ := positives_mem placed
    exact ⟨j.atom, inside, Atom.builtin?_of_isPositive positive, tableOf_eq (added.relations j member)⟩
  · obtain ⟨a, inside, each⟩ := later read inside
    exact ⟨a, List.mem_of_mem_filter inside, each⟩

end Reads

def Rereads (catalog : Catalog) (rule : Rule) : Prop :=
  ∃ head ∈ rule.head, ∃ a ∈ rule.body, a.builtin? = none ∧
    Sql.fold (RowSemantics.tableOf catalog head) = Sql.fold (RowSemantics.tableOf catalog a)

section Rules

variable {catalog : Catalog} {config : Config} {iteration : Iteration} {rule : Rule}

theorem readsOthers_lowerInsert {ctx : Context} {head : Atom} {r : Relation} {s : Statement}
    (named : ctx.catalog.IsNamed) (inner : ctx.rule.IsInner)
    (inside : head ∈ ctx.rule.head) (found : relationOf ctx head = .ok r)
    (apart : ¬ Rereads ctx.catalog ctx.rule) (lowered : lowerInsert ctx head r false = .ok s) :
    s.ReadsOthers := by
  by_cases joined : ctx.rule.body = []
  · have fact : ctx.rule.isFact = true := List.isEmpty_iff.mpr joined
    rw [lowerInsert, if_pos fact] at lowered
    obtain ⟨values, -, lowered⟩ := Compiled.bind_ok.mp lowered
    cases lowered
    trivial
  · obtain ⟨sc, projection, bodied, projected, rfl⟩ := lowerInsert_ok joined lowered
    have within : ∀ a ∈ (insertionBody false r head ctx.rule.body).1, a ∈ ctx.rule.body := by
      intro a member
      unfold insertionBody at member
      simp only [Bool.false_and, Bool.false_eq_true, if_false] at member
      split at member
      · exact List.mem_of_mem_dropLast member
      · exact member
    refine List.forall_mem_singleton.mpr fun read listed same => ?_
    obtain ⟨a, member, called, rfl⟩ :=
      tables_selection named (fun a member => inner a (within a member)) bodied projected read listed
    exact apart ⟨head, inside, a, within a member, called, tableOf_eq found ▸ same⟩

def Quiet (catalog : Catalog) (rules : List Rule) : Prop :=
  ∀ rule ∈ rules, rule.action = .derive ∨ rule.action = .replace → ¬ Rereads catalog rule

theorem readsOthers_statementsOf (named : catalog.IsNamed) (bags : config.setSemantics = false)
    (inner : rule.IsInner)
    (apart : rule.action = .derive ∨ rule.action = .replace → ¬ Rereads catalog rule) :
    ∀ s ∈ statementsOf catalog config iteration rule, s.ReadsOthers := by
  unfold statementsOf
  split
  · rename_i ss lowered
    have lowered := lower_ok lowered
    unfold lowerRule at lowered
    split at lowered
    · rename_i head heads
      have inside : head ∈ rule.head := List.mem_of_mem_head? (congrArg List.head? heads)
      obtain ⟨r, found, lowered⟩ := Compiled.bind_ok.mp lowered
      cases action : rule.action with
      | derive =>
        simp only [action] at lowered
        obtain ⟨s, inserts, lowered⟩ := Compiled.bind_ok.mp lowered
        cases lowered
        exact List.forall_mem_singleton.mpr
          (readsOthers_lowerInsert named inner inside found (apart (.inl action)) (bags ▸ inserts))
      | retract =>
        simp only [action] at lowered
        obtain ⟨s, deletes, lowered⟩ := Compiled.bind_ok.mp lowered
        cases lowered
        refine List.forall_mem_singleton.mpr ?_
        unfold lowerDelete at deletes
        dsimp only at deletes
        split at deletes
        · split at deletes
          · cases deletes
          · obtain ⟨_, -, deletes⟩ := Compiled.bind_ok.mp deletes
            cases deletes
            trivial
        · obtain ⟨_, -, deletes⟩ := Compiled.bind_ok.mp deletes
          obtain ⟨_, -, deletes⟩ := Compiled.bind_ok.mp deletes
          cases deletes
          trivial
      | view =>
        simp only [action] at lowered
        obtain ⟨s, views, lowered⟩ := Compiled.bind_ok.mp lowered
        cases lowered
        obtain ⟨_, -, views⟩ := Compiled.bind_ok.mp views
        obtain ⟨_, -, views⟩ := Compiled.bind_ok.mp views
        cases views
        exact List.forall_mem_singleton.mpr trivial
      | replace =>
        simp only [action] at lowered
        obtain ⟨s, inserts, lowered⟩ := Compiled.bind_ok.mp lowered
        cases lowered
        exact List.forall_mem_cons.mpr ⟨trivial, List.forall_mem_singleton.mpr
          (readsOthers_lowerInsert named inner inside found (apart (.inr action)) inserts)⟩
    · cases lowered
  · exact List.forall_mem_nil _

end Rules

end Lowering

end PeerExchange
