import PeerExchange.Proofs.ConfiguredLowering
import PeerExchange.Proofs.GrownTables
import PeerExchange.Proofs.ProgramClosure
import PeerExchange.Proofs.StatementBlocks

namespace PeerExchange

open RowSemantics (Match)
open Sql (Batch Database Query Row Select Statement World)

namespace Sql

namespace Row

variable {row : Row} {rows more : List Row}

def multiplicity (row : Row) (rows : List Row) : Nat := rows.countP row.same

theorem multiplicity_append :
    multiplicity row (rows ++ more) = multiplicity row rows + multiplicity row more :=
  List.countP_append

theorem multiplicity_pos : 0 < multiplicity row rows ↔ HeldIn rows row := List.countP_pos_iff

theorem pairwise_eraseDupsBy : (rows : List Row) →
    (rows.eraseDupsBy Row.same).Pairwise fun a b => b.same a = false
  | [] => .nil
  | first :: rest => by
    rw [List.eraseDupsBy_cons]
    refine .cons (fun b inside => ?_) (pairwise_eraseDupsBy _)
    simpa using (List.mem_filter.mp (mem_of_mem_eraseDupsBy _ inside)).2
termination_by rows => rows.length
decreasing_by
  exact Nat.lt_succ_of_le (List.length_filter_le _ _)

theorem multiplicity_le_one (distinct : rows.Pairwise fun a b => b.same a = false) :
    multiplicity row rows ≤ 1 := by
  induction distinct with
  | nil => exact Nat.zero_le 1
  | @cons first rest apart _ ih =>
    rw [multiplicity, List.countP_cons]
    by_cases here : row.same first = true
    · rw [if_pos here]
      refine Nat.succ_le_succ (Nat.le_zero.mpr (List.countP_eq_zero.mpr fun b inside there => ?_))
      have same := same_trans (same_comm row b ▸ there) here
      cases same.symm.trans (apart b inside)
    · rw [if_neg here]
      exact ih

theorem multiplicity_le_iff (distinct : rows.Pairwise fun a b => b.same a = false) :
    multiplicity row rows ≤ multiplicity row more ↔ (HeldIn rows row → HeldIn more row) := by
  rw [← multiplicity_pos, ← multiplicity_pos]
  have once : multiplicity row rows ≤ 1 := multiplicity_le_one distinct
  omega

end Row

namespace Database

def executeAll (parameter : Int) : List Statement → Database → Option Database
  | [], db => some db
  | s :: rest, db =>
    match db.execute parameter s with
    | .ok (next, _) => executeAll parameter rest next
    | .error _ => none

theorem executeAll_iff {parameter : Int} {ss : List Statement} {db db' : Database} :
    executeAll parameter ss db = some db' ↔ ∃ n, Executes parameter ss db n db' := by
  constructor
  · intro ran
    induction ss generalizing db with
    | nil =>
      cases ran
      exact ⟨0, .nil _⟩
    | cons s rest ih =>
      unfold executeAll at ran
      split at ran
      · rename_i next n here
        obtain ⟨m, later⟩ := ih ran
        exact ⟨n + m, .cons here later⟩
      · cases ran
  · rintro ⟨n, ran⟩
    induction ran with
    | nil => rfl
    | cons here _ ih =>
      rw [executeAll, here]
      exact ih

end Database

section Unions

variable {queries : List Query} {w : World} {db : Database} {tables unresolved : List String}

theorem checkNames_eq_ok (checked : checkNames db tables unresolved = .ok ()) :
    (∀ table ∈ tables, db.tables.contains table = true) ∧ unresolved = [] := by
  unfold checkNames at checked
  split at checked
  · cases checked
  · rename_i present
    split at checked
    · cases checked
    · exact ⟨by simpa using present, rfl⟩

theorem Query.check_union (all : Bool) (each : ∀ q ∈ queries, q.check db = .ok ()) :
    Query.check db { selects := queries.flatMap Query.selects, all := all } = .ok () := by
  have parts {s : Select} (inside : s ∈ (queries.flatMap Query.selects).reverse) :
      (∀ table ∈ s.tables, db.tables.contains table = true) ∧ s.unresolved db [] = [] := by
    obtain ⟨q, member, listed⟩ := List.mem_flatMap.mp (List.mem_reverse.mp inside)
    have own : s ∈ q.checked := List.mem_append_right _ (List.mem_reverse.mpr listed)
    obtain ⟨present, resolved⟩ := checkNames_eq_ok (each q member)
    exact ⟨fun table read => present table (List.mem_flatMap.mpr ⟨s, own, read⟩),
      List.flatMap_eq_nil_iff.mp resolved s own⟩
  refine checkNames_ok (fun table inside => ?_) (List.flatMap_eq_nil_iff.mpr fun s inside => ?_)
  · obtain ⟨s, listed, read⟩ := List.mem_flatMap.mp inside
    exact (parts listed).1 table read
  · exact (parts inside).2

theorem Query.rows_single {q : Query} (plain : q.except = none) (single : q.selects.length = 1) :
    q.rows w = q.selects.flatMap (Select.rows w) := by
  rw [Query.rows, plain, single, decide_eq_true (Nat.le_refl 1), Bool.or_true, if_pos rfl]

theorem Query.rows_union (plain : ∀ q ∈ queries, q.except = none)
    (single : ∀ q ∈ queries, q.selects.length = 1) :
    Query.rows w { selects := queries.flatMap Query.selects, all := true } =
      queries.flatMap (Query.rows w) := by
  have arms : Query.rows w { selects := queries.flatMap Query.selects, all := true } =
      (queries.flatMap Query.selects).flatMap (Select.rows w) := by
    rw [Query.rows, Bool.true_or, if_pos rfl]
  rw [arms, List.flatMap_assoc]
  exact List.flatMap_congr fun q inside => (rows_single (plain q inside) (single q inside)).symm

end Unions

end Sql

namespace Lowering

variable {ctx : Context} {db mid : Database} {parameter : Int} {head : Atom} {r : Relation}
  {table : String} {names : List String} {columns : List (String × ColumnType)} {q : Query}
  {withExcept : Bool}

-- A rule that adds tuples, each once, to a table that it does not join.
structure Prepared (ctx : Context) (db : Database) (parameter : Int) (head : Atom) (r : Relation) :
    Prop where
  derives : ctx.rule.action = .derive
  heads : ctx.rule.head = [head]
  joined : ctx.rule.body ≠ []
  distinct : ctx.rule.distinct = true
  inner : ∀ a ∈ head :: ctx.rule.body, a.optional = false
  known : ctx.catalog.relations.get? head.relationName = some r
  columned : r.physicalColumns head.kind ≠ []
  unread : ∀ a ∈ ctx.rule.body, a.isPositive = true →
    Sql.fold (r.tableName head.kind) ≠ Sql.fold (RowSemantics.tableOf ctx.catalog a)
  target : r.StoredIn head.kind db
  stores : ∀ a ∈ ctx.rule.body, a.builtin? = none → StoresAtom ctx.catalog db a
  kept : ∀ rows env, Match ctx db parameter ctx.rule.guard
      (insertionBody ctx.config.setSemantics r head ctx.rule.body).1 rows env →
    r.Keeps head.kind (RowSemantics.writtenRow ctx parameter r head env)

def Survives (ctx : Context) (parameter : Int) (db mid : Database) : Prop :=
  ∀ head r, ctx.rule.head = [head] → ctx.catalog.relations.get? head.relationName = some r →
    ∀ rows env, Match ctx db parameter ctx.rule.guard
        (insertionBody ctx.config.setSemantics r head ctx.rule.body).1 rows env →
      ∃ rows' env', Match ctx mid parameter ctx.rule.guard
          (insertionBody ctx.config.setSemantics r head ctx.rule.body).1 rows' env' ∧
        Row.same (RowSemantics.writtenRow ctx parameter r head env)
          (RowSemantics.writtenRow ctx parameter r head env') = true

theorem Survives.refl (ctx : Context) (parameter : Int) (db : Database) :
    Survives ctx parameter db db :=
  fun _ _ _ _ rows env matched => ⟨rows, env, matched, Row.same_self _⟩

namespace Prepared

variable (prepared : Prepared ctx db parameter head r)
include prepared

theorem grown (grows : Database.Grows (r.tableName head.kind) (r.physicalColumns head.kind) db mid) :
    (∀ rows env, Match ctx mid parameter ctx.rule.guard
        (insertionBody ctx.config.setSemantics r head ctx.rule.body).1 rows env →
      Match ctx db parameter ctx.rule.guard
        (insertionBody ctx.config.setSemantics r head ctx.rule.body).1 rows env) ∧
      Prepared ctx mid parameter head r := by
  have kept (rows : List Row) (env : RowSemantics.Env) :=
    @RowSemantics.match_grown ctx db mid parameter ctx.rule.guard _ rows env _ _ grows
      (@forall_insertionBody r head _ ctx.config.setSemantics _ prepared.unread nofun)
  refine ⟨fun rows env matched => ((kept rows env).mp matched).1, { prepared with
    target := grows.stored prepared.target.columns prepared.target
    stores := fun a inside relational r' present =>
      grows.stored prepared.target.columns (prepared.stores a inside relational r' present)
    kept := fun rows env matched => prepared.kept rows env ((kept rows env).mp matched).1 }⟩

theorem gives {sc : Scope} {projection : List Sql.Expr} (fits : fitsWord parameter = true)
    (arity : head.args.length = r.arity)
    (bodied : lowerBody ctx ctx.rule.guard
      (insertionBody ctx.config.setSemantics r head ctx.rule.body).1 = .ok sc)
    (projected : project ctx r head sc.bindings = .ok projection) :
    (insertionQuery ctx r head sc projection withExcept).check db = .ok () ∧
      Adds ctx db parameter r head (insertionBody ctx.config.setSemantics r head ctx.rule.body).1
        withExcept ((insertionQuery ctx r head sc projection withExcept).rows ⟨db, parameter⟩) := by
  obtain ⟨innerHead, inner⟩ := List.forall_mem_cons.mp prepared.inner
  obtain ⟨joins, shaped⟩ := lowerBody_lowered (forall_insertionBody inner innerHead)
    (stores_insertionBody prepared.known prepared.target prepared.stores) bodied
  exact ⟨@check_insertionQuery _ _ _ _ _ _ _ _ _ _ withExcept shaped prepared.target fits projected,
    adds_insertionQuery shaped prepared.target prepared.columned arity fits projected withExcept⟩

end Prepared

-- A query as one of several that fill the same columns of a table, on the database before all of them.
structure Arm (ctx : Context) (parameter : Int) (db : Database) (table : String)
    (columns : List (String × ColumnType)) (q : Query) : Prop where
  plain : q.except = none
  single : q.selects.length = 1
  checked : ∀ mid, Database.Grows table columns db mid → q.check mid = .ok ()
  keeps : ∀ mid, Database.Grows table columns db mid → ∀ row ∈ q.rows ⟨mid, parameter⟩,
    List.Forall₂ (fun (column : String × ColumnType) v => v.store column.2 = v) columns row
  fewer : ∀ mid, Database.Grows table columns db mid → ∀ row : Row,
    row.multiplicity (q.rows ⟨mid, parameter⟩) ≤ row.multiplicity (q.rows ⟨db, parameter⟩)
  survives_iff : ∀ mid, Database.Grows table columns db mid →
    ((∀ row : Row, row.multiplicity (q.rows ⟨mid, parameter⟩) =
      row.multiplicity (q.rows ⟨db, parameter⟩)) ↔ Survives ctx parameter db mid)

theorem Adds.heldIn_iff {body : List Atom} {given : List Row} {row : Row}
    (adds : Adds ctx db parameter r head body false given) : Row.HeldIn given row ↔
      ∃ rows env, Match ctx db parameter ctx.rule.guard body rows env ∧
        Row.same row (RowSemantics.writtenRow ctx parameter r head env) = true := by
  constructor
  · rintro ⟨written, inside, same⟩
    obtain ⟨rows, env, matched, rfl⟩ := adds.source written inside
    exact ⟨rows, env, matched, same⟩
  · rintro ⟨rows, env, matched, same⟩
    obtain ⟨written, inside, alike⟩ :=
      (adds.reached rows env matched).resolve_left fun except => Bool.false_ne_true except.1
    exact ⟨written, inside, Row.same_trans same alike⟩

theorem Prepared.arm (prepared : Prepared ctx db parameter head r) (fits : fitsWord parameter = true)
    (lowered : lowerRule ctx = .ok [.insert table names (.query q)]) (plain : q.except = none) :
    table = r.tableName head.kind ∧ names = columnNames r head.kind ∧
      Arm ctx parameter db table (r.physicalColumns head.kind) q := by
  obtain ⟨sc, projection, arity, bodied, projected, same⟩ :=
    lowerRule_derive prepared.derives prepared.heads prepared.joined prepared.known lowered
  cases same
  have unexcepted : (insertionBody ctx.config.setSemantics r head ctx.rule.body).2 = false := by
    by_contra excepted
    rw [insertionQuery, if_pos (Bool.not_eq_false _ ▸ excepted)] at plain
    cases plain
  rw [unexcepted] at plain ⊢
  have distinct (w : World) : (Query.rows w (insertionQuery ctx r head sc projection false)).Pairwise
      fun a b => b.same a = false := by
    have rows : Query.rows w (insertionQuery ctx r head sc projection false) =
        ((selection ctx sc projection).projected w).eraseDupsBy Row.same := by
      rw [Query.rows_single plain rfl, insertionQuery, List.flatMap_singleton, Select.rows, selection,
        Select.distinct, prepared.distinct, if_pos rfl]
    rw [rows]
    exact Row.pairwise_eraseDupsBy _
  have gives {mid : Database} (ready : Prepared ctx mid parameter head r) :=
    @Prepared.gives ctx mid parameter head r false ready sc projection fits arity bodied projected
  have fewer {mid : Database}
      (grows : Database.Grows (r.tableName head.kind) (r.physicalColumns head.kind) db mid) (row : Row) :
      Row.HeldIn (Query.rows ⟨mid, parameter⟩ (insertionQuery ctx r head sc projection false)) row →
        Row.HeldIn (Query.rows ⟨db, parameter⟩ (insertionQuery ctx r head sc projection false)) row := by
    obtain ⟨kept, ready⟩ := prepared.grown grows
    rw [(gives ready).2.heldIn_iff, (gives prepared).2.heldIn_iff]
    rintro ⟨rows, env, matched, same⟩
    exact ⟨rows, env, kept rows env matched, same⟩
  refine ⟨rfl, rfl, {
    plain := plain
    single := rfl
    checked := fun mid grows => (gives (prepared.grown grows).2).1
    keeps := fun mid grows row inside => ?_
    fewer := fun mid grows row => (Row.multiplicity_le_iff (distinct _)).mpr (fewer grows row)
    survives_iff := fun mid grows => ?_ }⟩
  · have ready := (prepared.grown grows).2
    obtain ⟨rows, env, matched, rfl⟩ := (gives ready).2.source row inside
    exact ready.kept rows env matched
  · have survives : (∀ row : Row, Row.HeldIn (Query.rows ⟨db, parameter⟩
          (insertionQuery ctx r head sc projection false)) row →
        Row.HeldIn (Query.rows ⟨mid, parameter⟩ (insertionQuery ctx r head sc projection false)) row) ↔
        Survives ctx parameter db mid := by
      simp only [(gives (prepared.grown grows).2).2.heldIn_iff, (gives prepared).2.heldIn_iff]
      constructor
      · intro held head' r' heads known rows env matched
        cases heads.symm.trans prepared.heads
        cases known.symm.trans prepared.known
        exact held _ ⟨rows, env, matched, Row.same_self _⟩
      · rintro survives row ⟨rows, env, matched, same⟩
        obtain ⟨rows', env', matched', alike⟩ :=
          survives head r prepared.heads prepared.known rows env matched
        exact ⟨rows', env', matched', Row.same_trans same alike⟩
    rw [← survives]
    refine forall_congr' fun row => ?_
    rw [← Row.multiplicity_le_iff (distinct _)]
    exact ⟨fun same => same.ge, fun more =>
      ((Row.multiplicity_le_iff (distinct _)).mpr (fewer grows row)).antisymm more⟩

section Runs

variable {catalog : Catalog} {config : Config} {iteration : Iteration} {rule : Rule} {rules : List Rule}
  {queries : List Query} {kind : TableKind}

def Undisturbed (catalog : Catalog) (config : Config) (iteration : Iteration) (parameter : Int)
    (db : Database) : List Rule → Database → Prop
  | [], _ => True
  | rule :: rest, mid => Survives ⟨catalog, config, rule, iteration⟩ parameter db mid ∧
    ∀ next n, Database.Executes parameter (statementsOf catalog config iteration rule) mid n next →
      Undisturbed catalog config iteration parameter db rest next

structure Armed (catalog : Catalog) (config : Config) (iteration : Iteration) (parameter : Int)
    (db : Database) (table : String) (names : List String) (columns : List (String × ColumnType))
    (rule : Rule) (q : Query) : Prop where
  statement : statementsOf catalog config iteration rule = [.insert table names (.query q)]
  arm : Arm ⟨catalog, config, rule, iteration⟩ parameter db table columns q

variable (target : r.StoredIn kind db) (columned : r.physicalColumns kind ≠ [])
  (armed : List.Forall₂ (Armed catalog config iteration parameter db (r.tableName kind)
    (columnNames r kind) (r.physicalColumns kind)) rules queries)
include target columned armed

-- One after the other, the arms give no row more often than on the database before them, and each as
-- often if no arm is disturbed by those before it.
theorem executes_arms
    (grows : Database.Grows (r.tableName kind) (r.physicalColumns kind) db mid) :
    ∃ after n given,
      Database.Executes parameter (rules.flatMap (statementsOf catalog config iteration)) mid n after ∧
      Database.Grows (r.tableName kind) (r.physicalColumns kind) mid after ∧
      after.rows (r.tableName kind) = mid.rows (r.tableName kind) ++ given ∧
      (∀ row : Row, row.multiplicity given ≤
        row.multiplicity (queries.flatMap (Query.rows ⟨db, parameter⟩))) ∧
      ((∀ row : Row, row.multiplicity given =
        row.multiplicity (queries.flatMap (Query.rows ⟨db, parameter⟩))) ↔
          Undisturbed catalog config iteration parameter db rules mid) := by
  induction armed generalizing mid with
  | nil =>
    exact ⟨mid, 0, [], .nil mid, .refl _ _ mid, (List.append_nil _).symm, fun _ => Nat.le_refl _,
      iff_of_true (fun _ => rfl) trivial⟩
  | @cons rule q rest others here _ ih =>
    obtain ⟨next, executed, rows, more⟩ := execute_kept (grows.stored target.columns target) columned
      (here.arm.checked mid grows) (here.arm.keeps mid grows)
    obtain ⟨after, n, given, ran, later, rows', fewer, exactly⟩ := ih (grows.trans more)
    refine ⟨after, (q.rows ⟨mid, parameter⟩).length + n, q.rows ⟨mid, parameter⟩ ++ given, ?_,
      more.trans later, ?_, fun row => ?_, ?_⟩
    · rw [List.flatMap_cons, here.statement]
      exact .cons executed ran
    · rw [rows', rows, List.append_assoc]
    · rw [List.flatMap_cons, Row.multiplicity_append, Row.multiplicity_append]
      exact Nat.add_le_add (here.arm.fewer mid grows row) (fewer row)
    · have turn : Undisturbed catalog config iteration parameter db (rule :: rest) mid ↔
          Survives ⟨catalog, config, rule, iteration⟩ parameter db mid ∧
            Undisturbed catalog config iteration parameter db rest next := by
        have own := Database.Executes.cons executed (.nil next)
        rw [← here.statement] at own
        refine and_congr_right fun _ => ⟨fun each => each next _ own, fun undisturbed other m ran => ?_⟩
        rw [here.statement] at ran
        cases executed.symm.trans ran.single
        exact undisturbed
      rw [turn, ← exactly, ← here.arm.survives_iff mid grows, ← forall_and]
      refine forall_congr' fun row => ?_
      rw [List.flatMap_cons, Row.multiplicity_append, Row.multiplicity_append]
      have first := here.arm.fewer mid grows row
      have rest := fewer row
      omega

theorem execute_union : ∃ after n,
    db.execute parameter (.union true (r.tableName kind) (columnNames r kind) queries) =
      .ok (after, n) ∧
      Database.Grows (r.tableName kind) (r.physicalColumns kind) db after ∧
      after.rows (r.tableName kind) =
        db.rows (r.tableName kind) ++ queries.flatMap (Query.rows ⟨db, parameter⟩) := by
  have arms : ∀ q ∈ queries, ∃ ctx, Arm ctx parameter db (r.tableName kind) (r.physicalColumns kind) q :=
    fun q inside => by
      obtain ⟨rule, -, here⟩ := Compiled.forall₂_result armed.flip inside
      exact ⟨_, here.arm⟩
  have start := Database.Grows.refl (r.tableName kind) (r.physicalColumns kind) db
  have united := @Query.rows_union queries ⟨db, parameter⟩
    (fun q inside => (arms q inside).elim fun _ arm => arm.plain)
    (fun q inside => (arms q inside).elim fun _ arm => arm.single)
  obtain ⟨after, executed, rows, grows⟩ := execute_kept target columned
    (Query.check_union true fun q inside => (arms q inside).elim fun _ arm => arm.checked db start)
    (by
      rw [united]
      intro row inside
      obtain ⟨q, member, listed⟩ := List.mem_flatMap.mp inside
      exact (arms q member).elim fun _ arm => arm.keeps db start row listed)
  rw [united] at rows
  exact ⟨after, _, executed, grows, rows⟩

end Runs

section Blocks

variable {catalog : Catalog} {config : Config} {iteration : Iteration} {rule : Rule} {rules : List Rule}
  {s : Statement} {ss : List Statement}

theorem forall₂_flatten {α β : Type} {R : α → β → Prop} {items : List α} {runs : List (List β)}
    (each : List.Forall₂ R items runs.flatten) :
    ∃ parts : List (List α), parts.flatten = items ∧ List.Forall₂ (List.Forall₂ R) parts runs := by
  induction runs generalizing items with
  | nil =>
    cases List.forall₂_nil_right_iff.mp each
    exact ⟨[], rfl, .nil⟩
  | cons run rest ih =>
    rw [List.flatten_cons] at each
    obtain ⟨parts, split, later⟩ := ih (List.forall₂_drop_append _ _ _ each)
    refine ⟨items.take run.length :: parts, ?_, .cons (List.forall₂_take_append _ _ _ each) later⟩
    rw [List.flatten_cons, split, List.take_append_drop]

structure Compiles (catalog : Catalog) (config : Config) (iteration : Iteration) (rule : Rule)
    (s : Statement) : Prop where
  statement : statementsOf catalog config iteration rule = [s]
  lowered : lowerRule ⟨catalog, config, rule, iteration⟩ = .ok [s]

theorem compiles_derive (derives : rule.action = .derive)
    (compiled : failureOf? catalog config iteration rule = none) :
    ∃ s, Compiles catalog config iteration rule s := by
  unfold failureOf? at compiled
  split at compiled
  · rename_i ss lowered
    have whole := lower_ok lowered
    have ran := whole
    unfold lowerRule at ran
    split at ran
    · obtain ⟨r, -, ran⟩ := Compiled.bind_ok.mp ran
      simp only [derives] at ran
      obtain ⟨s, -, ran⟩ := Compiled.bind_ok.mp ran
      cases ran
      exact ⟨s, by rw [statementsOf, lowered], whole⟩
    · cases ran
  · cases compiled

theorem forall₂_compiles (each : ∀ rule ∈ rules, ∃ s, Compiles catalog config iteration rule s) :
    List.Forall₂ (Compiles catalog config iteration) rules
      (rules.flatMap (statementsOf catalog config iteration)) := by
  induction rules with
  | nil => exact .nil
  | cons rule rest ih =>
    obtain ⟨⟨s, here⟩, later⟩ := List.forall_mem_cons.mp each
    rw [List.flatMap_cons, here.statement]
    exact .cons here (ih later)

theorem Prepared.executes (prepared : Prepared ctx db parameter head r) (fits : fitsWord parameter = true)
    (lowered : lowerRule ctx = .ok [s]) : ∃ after n, db.execute parameter s = .ok (after, n) := by
  obtain ⟨sc, projection, arity, bodied, projected, same⟩ :=
    lowerRule_derive prepared.derives prepared.heads prepared.joined prepared.known lowered
  cases same
  obtain ⟨checked, adds⟩ := @Prepared.gives _ _ _ _ _
    (insertionBody ctx.config.setSemantics r head ctx.rule.body).2 prepared _ _ fits arity bodied projected
  obtain ⟨after, executed, -⟩ := execute_kept prepared.target prepared.columned checked fun row inside => by
    obtain ⟨rows, env, matched, rfl⟩ := adds.source row inside
    exact prepared.kept rows env matched
  exact ⟨after, _, executed⟩

theorem forall₂_armed {queries : List Query} {kind : TableKind}
    (fits : fitsWord parameter = true)
    (prepared : ∀ rule ∈ rules, ∃ head r, Prepared ⟨catalog, config, rule, iteration⟩ db parameter head r)
    (plain : ∀ q ∈ queries, q.except = none)
    (compiles : List.Forall₂ (fun rule q =>
      Compiles catalog config iteration rule (.insert table names (.query q))) rules queries)
    (target : r.StoredIn kind db) (own : r.tableName kind = table) :
    List.Forall₂ (Armed catalog config iteration parameter db table names (r.physicalColumns kind))
      rules queries := by
  obtain ⟨sizes, each⟩ := List.forall₂_iff_zip.mp compiles
  refine List.forall₂_iff_zip.mpr ⟨sizes, fun inside => ?_⟩
  obtain ⟨member, listed⟩ := List.of_mem_zip inside
  obtain ⟨head', r', ready⟩ := prepared _ member
  have compiled := each inside
  obtain ⟨shared, -, arm⟩ := ready.arm fits compiled.lowered (plain _ listed)
  have columns : r'.physicalColumns head'.kind = r.physicalColumns kind :=
    Database.Grows.columns_shared (shared ▸ ready.target.columns) (own ▸ target.columns)
  exact ⟨compiled.statement, columns ▸ arm⟩

theorem block_multiplicities {part : List Rule} {run : List Statement}
    (bags : config.setSemantics = false) (stands : Batch.StandsFor (merging config) run s)
    (compiles : List.Forall₂ (Compiles catalog config iteration) part run)
    (fits : fitsWord parameter = true)
    (prepared : ∀ rule ∈ part,
      ∃ head r, Prepared ⟨catalog, config, rule, iteration⟩ db parameter head r) :
    ∃ merged separate n m, db.execute parameter s = .ok (merged, n) ∧
      Database.Executes parameter (part.flatMap (statementsOf catalog config iteration)) db m separate ∧
      ((∀ table, ∀ row : Row,
          row.multiplicity (merged.rows table) = row.multiplicity (separate.rows table)) ↔
        Undisturbed catalog config iteration parameter db part db) := by
  cases stands with
  | alone =>
    obtain ⟨rule, _, compiled, none, rfl⟩ := List.forall₂_cons_right_iff.mp compiles
    cases List.forall₂_nil_right_iff.mp none
    obtain ⟨head, r, ready⟩ := prepared rule List.mem_cons_self
    obtain ⟨after, n, executed⟩ := ready.executes fits compiled.lowered
    refine ⟨after, after, n, n + 0, executed, ?_, iff_of_true (fun _ _ => rfl) ⟨.refl _ _ _, ?_⟩⟩
    · rw [List.flatMap_singleton, compiled.statement]
      exact .cons executed (.nil after)
    · exact fun _ _ _ => trivial
  | @union limit all table names queries wanted several plain _ =>
    have kind : all = true := by
      unfold merging at wanted
      split at wanted
      · cases wanted
        rw [bags]
        rfl
      · cases wanted
    subst kind
    rw [List.forall₂_map_right_iff] at compiles
    have whole := compiles
    cases compiles with
    | nil => cases several
    | @cons rule q rest others here later =>
      obtain ⟨head, r, ready⟩ := prepared rule List.mem_cons_self
      obtain ⟨rfl, rfl, -⟩ := ready.arm fits here.lowered (plain q List.mem_cons_self)
      have armed := forall₂_armed fits prepared plain whole ready.target rfl
      obtain ⟨merged, n, executed, together, rows⟩ := execute_union ready.target ready.columned armed
      obtain ⟨separate, m, given, ran, apart, rows', -, exactly⟩ :=
        executes_arms ready.target ready.columned armed (.refl _ _ db)
      refine ⟨merged, separate, n, m, executed, ran, ?_⟩
      rw [← exactly]
      constructor
      · intro same row
        have own := same (r.tableName head.kind) row
        rw [rows, rows', Row.multiplicity_append, Row.multiplicity_append] at own
        exact (Nat.add_left_cancel own).symm
      · intro same table row
        by_cases own : Sql.fold (r.tableName head.kind) = Sql.fold table
        · rw [← Database.rows_congr own, ← Database.rows_congr own, rows, rows', Row.multiplicity_append,
            Row.multiplicity_append, same row]
        · have elsewhere := Database.elsewhere_singleton.mpr own
          rw [together.changes.rows elsewhere, apart.changes.rows elsewhere]

-- Merging keeps how often each row is stored as long as no rule of a block is disturbed by those before
-- it in the block, and only then.
theorem lowerGroup_multiplicities (bags : config.setSemantics = false)
    (derives : ∀ rule ∈ rules, rule.action = .derive)
    (compiled : (lowerGroup catalog config iteration rules).failures = []) :
    (lowerGroup catalog { config with mergeStatements := false } iteration rules).statements =
      rules.flatMap (statementsOf catalog config iteration) ∧
    ∃ parts : List (List Rule), parts.flatten = rules ∧
      List.Forall₂ (fun part s => ∀ db parameter, fitsWord parameter = true →
          (∀ rule ∈ part, ∃ head r, Prepared ⟨catalog, config, rule, iteration⟩ db parameter head r) →
          ∃ merged separate n m, db.execute parameter s = .ok (merged, n) ∧
            Database.Executes parameter (part.flatMap (statementsOf catalog config iteration)) db m
              separate ∧
            ((∀ table, ∀ row : Row,
                row.multiplicity (merged.rows table) = row.multiplicity (separate.rows table)) ↔
              Undisturbed catalog config iteration parameter db part db))
        parts (lowerGroup catalog config iteration rules).statements := by
  have single : ∀ rule ∈ rules, ∃ s, Compiles catalog config iteration rule s := fun rule inside => by
    rw [lowerGroup_failures] at compiled
    exact compiles_derive (derives rule inside) (List.filterMap_eq_nil_iff.mp compiled rule inside)
  obtain ⟨runs, covered, stands⟩ := lowerGroup_stands catalog config iteration rules
  obtain ⟨parts, split, each⟩ := forall₂_flatten (covered ▸ forall₂_compiles single)
  refine ⟨?_, parts, split, ?_⟩
  · rw [lowerGroup_unmerged rfl]
    refine List.flatMap_congr fun rule _ => ?_
    rw [statementsOf, statementsOf, lower_batched]
  · clear split covered
    generalize (lowerGroup catalog config iteration rules).statements = statements at stands ⊢
    induction each generalizing statements with
    | nil =>
      cases stands
      exact .nil
    | cons here _ ih =>
      cases stands with
      | cons first later =>
        refine .cons (fun db parameter fits prepared => ?_) (ih _ later)
        exact block_multiplicities bags first here fits prepared

end Blocks

section Marked

def markedRelation : Relation :=
  { name := "T", peer := some "A", columns := [⟨"a", .integer, false⟩], stratified := true }

def markedCatalog : Catalog where
  peers := [⟨"A", ["R", "S", "T"]⟩]
  relations := .ofList [
    ("R", { name := "R", peer := some "A", columns := [⟨"a", .integer, false⟩] }),
    ("S", { name := "S", peer := some "A", columns := [⟨"a", .integer, false⟩] }),
    ("T", markedRelation)]

def markedHead : Atom := (Atom.ofRelation "T" [.lit (.integer 1)]).withKind .insertion

def markedRule (source : String) : Rule :=
  { Rule.ofHead source markedHead [.ofRelation source [.var "x"], markedHead.negate] with
    distinct := true }

def markedTables : Database where
  tables := .ofList [
    ("R", { columns := [("a", some .integer)], rows := [[.integer 5]] }),
    ("S", { columns := [("a", some .integer)], rows := [[.integer 7]] }),
    ("T_INS", { columns := [("a", some .integer), ("STRATUM", some .integer)], rows := [] })]

def bagConfig : Config := { setSemantics := false }

theorem marked_stored : markedRelation.StoredIn .insertion markedTables := by decide +kernel

theorem marked_stores {source : String} (sources : source = "R" ∨ source = "S") :
    ∀ a ∈ (markedRule source).body, a.builtin? = none →
      StoresAtom markedCatalog markedTables a := by
  refine List.forall_mem_cons.mpr ⟨fun _ r present => ?_, List.forall_mem_singleton.mpr
    fun _ r present => ?_⟩
  · have known : markedCatalog.relations.get? source =
        some { name := source, peer := some "A", columns := [⟨"a", .integer, false⟩] } := by
      rcases sources with rfl | rfl <;> cbv
    cases known.symm.trans present
    rcases sources with rfl | rfl <;> decide +kernel
  · have known : markedCatalog.relations.get? "T" = some markedRelation := by cbv
    cases known.symm.trans present
    exact marked_stored

theorem marked_prepared {source : String} (sources : source = "R" ∨ source = "S") :
    Prepared ⟨markedCatalog, bagConfig, markedRule source, .literal 3⟩ markedTables 0 markedHead
      markedRelation where
  derives := rfl
  heads := rfl
  joined := List.cons_ne_nil _ _
  distinct := rfl
  inner := by rcases sources with rfl | rfl <;> decide
  known := by cbv
  columned := List.cons_ne_nil _ _
  unread := by rcases sources with rfl | rfl <;> decide +kernel
  target := marked_stored
  stores := marked_stores sources
  kept := fun _ _ _ => .cons rfl (.cons rfl .nil)

def marks (ss : List Statement) : Option Nat :=
  (Database.executeAll 0 ss markedTables).map fun db =>
    Row.multiplicity [.integer 1, .integer 0] (db.rows "T_INS")

-- The second rule sees the mark of the first one only where they run one after the other.
theorem mark_set_twice : ∃ s merged separate n m,
    (lowerGroup markedCatalog bagConfig (.literal 3) [markedRule "R", markedRule "S"]).statements =
      [s] ∧
    markedTables.execute 0 s = .ok (merged, n) ∧
    Database.Executes 0 (lowerGroup markedCatalog { bagConfig with mergeStatements := false }
      (.literal 3) [markedRule "R", markedRule "S"]).statements markedTables m separate ∧
    Row.multiplicity [.integer 1, .integer 0] (merged.rows "T_INS") = 2 ∧
    Row.multiplicity [.integer 1, .integer 0] (separate.rows "T_INS") = 1 ∧
    ¬ Undisturbed markedCatalog bagConfig (.literal 3) 0 markedTables [markedRule "R", markedRule "S"]
      markedTables := by
  obtain ⟨apart, parts, split, each⟩ := @lowerGroup_multiplicities markedCatalog bagConfig (.literal 3)
    [markedRule "R", markedRule "S"] rfl (by decide) (by decide +kernel)
  have one : (lowerGroup markedCatalog bagConfig (.literal 3)
      [markedRule "R", markedRule "S"]).statements.length = 1 := by decide +kernel
  obtain ⟨s, statement⟩ := List.length_eq_one_iff.mp one
  have twice : marks (lowerGroup markedCatalog bagConfig (.literal 3)
      [markedRule "R", markedRule "S"]).statements = some 2 := by decide +kernel
  have once : marks (lowerGroup markedCatalog { bagConfig with mergeStatements := false } (.literal 3)
      [markedRule "R", markedRule "S"]).statements = some 1 := by decide +kernel
  rw [statement] at each twice
  obtain ⟨part, _, here, none, rfl⟩ := List.forall₂_cons_right_iff.mp each
  cases List.forall₂_nil_right_iff.mp none
  obtain rfl : part = [markedRule "R", markedRule "S"] := by simpa using split
  obtain ⟨merged, separate, n, m, executed, ran, same⟩ := here markedTables 0 (by decide)
    (List.forall_mem_cons.mpr ⟨⟨_, _, marked_prepared (.inl rfl)⟩,
      List.forall_mem_singleton.mpr ⟨_, _, marked_prepared (.inr rfl)⟩⟩)
  rw [← apart] at ran
  rw [marks, Database.executeAll_iff.mpr ⟨_, .cons executed (.nil merged)⟩] at twice
  rw [marks, Database.executeAll_iff.mpr ⟨m, ran⟩] at once
  have twice : Row.multiplicity [.integer 1, .integer 0] (merged.rows "T_INS") = 2 :=
    Option.some.inj twice
  have once : Row.multiplicity [.integer 1, .integer 0] (separate.rows "T_INS") = 1 :=
    Option.some.inj once
  refine ⟨s, merged, separate, n, m, statement, executed, ran, twice, once, fun undisturbed => ?_⟩
  rw [same.mpr undisturbed, once] at twice
  cases twice

end Marked

end Lowering

namespace Compilation

section Paired

def pairedText : String := "relation T(a: int); mapping n: T(x) :- T(x), T(y)."

def pairedCatalog : Catalog where
  relations := NameMap.empty.insert "T" { name := "T", columns := [⟨"a", .integer, false⟩] }
  mappings := [.ofHeads "n" [.ofRelation "T" [.var "x"]]
    [.ofRelation "T" [.var "x"], .ofRelation "T" [.var "y"]]]

def pairedTables : Database where
  tables := .ofList [
    ("T", { columns := [("a", some .integer), ("STRATUM", some .integer)],
            rows := [[.integer 1, .integer 0]] }),
    ("T_DEL", { columns := [("a", some .integer), ("STRATUM", some .integer)],
                rows := [[.integer 1, .integer 0]] }),
    ("P_n_DEL", { columns := [("T_a", some .integer), ("SRC_T_a", some .integer),
                    ("STRATUM", some .integer)],
                  rows := [] })]

def pairedGroup : Option (Catalog × Config × List Rule) :=
  (maintain? { setSemantics := false } pairedCatalog).bind fun (ready, m) =>
    (m.deletion.find? (·.recursive)).map fun stratum =>
      (ready.catalog, ready.config, stratum.iterate)

def pairedDeletions (catalog : Catalog) (config : Config) (rules : List Rule) : Option Nat :=
  (Database.executeAll 0 (Lowering.lowerGroup catalog config (.literal 1) rules).statements
    pairedTables).map fun db => Row.multiplicity [.integer 1, .integer 1, .integer 1] (db.rows "P_n_DEL")

theorem pairedGroup_deletes : ∃ group, pairedGroup = some group ∧
    (group.1.relations.values.flatMap fun r =>
      [TableKind.base, .insertion, .deletion].map r.tableName).Nodup ∧
    pairedDeletions group.1 { group.2.1 with mergeStatements := true } group.2.2 = some 2 ∧
    pairedDeletions group.1 { group.2.1 with mergeStatements := false } group.2.2 = some 1 := by
  -- The group is what evaluation makes of the left side.
  apply Exists.intro
  apply And.intro
  · cbv
  · decide +kernel

-- Both changes of a rule find the same tuple, and merged, neither sees that of the other.
theorem paired_deletion_repeated : ∃ program c compiled ready m stratum merged separate n k,
    Program.parse pairedText = .ok program ∧
    ofCatalog program.catalog { setSemantics := false } = .ok c ∧ c.exchangeUnder {} = .ok compiled ∧
    compiled.maintained = (ready, .ok ()) ∧ ready.maintenance = some m ∧ stratum ∈ m.deletion ∧
    (ready.catalog.relations.values.flatMap fun r =>
      [TableKind.base, .insertion, .deletion].map r.tableName).Nodup ∧
    Database.Executes 0 (Lowering.lowerGroup ready.catalog { ready.config with mergeStatements := true }
      (.literal 1) stratum.iterate).statements pairedTables n merged ∧
    Database.Executes 0 (Lowering.lowerGroup ready.catalog { ready.config with mergeStatements := false }
      (.literal 1) stratum.iterate).statements pairedTables k separate ∧
    Row.multiplicity [.integer 1, .integer 1, .integer 1] (merged.rows "P_n_DEL") = 2 ∧
    Row.multiplicity [.integer 1, .integer 1, .integer 1] (separate.rows "P_n_DEL") = 1 := by
  obtain ⟨group, compiles, named, twice, once⟩ := pairedGroup_deletes
  obtain ⟨⟨ready, m⟩, found, compiles⟩ := Option.bind_eq_some_iff.mp compiles
  obtain ⟨stratum, listed, rfl⟩ := Option.map_eq_some_iff.mp compiles
  obtain ⟨c, compiled, created, made, maintained, found⟩ := maintain?_parts found
  have parses : Program.parsesTo pairedText pairedCatalog = true := by decide +kernel
  obtain ⟨program, parsed, catalog⟩ := Program.parsesTo_parts parses
  obtain ⟨merged, together, twice⟩ := Option.map_eq_some_iff.mp twice
  obtain ⟨separate, apart, once⟩ := Option.map_eq_some_iff.mp once
  obtain ⟨n, together⟩ := Database.executeAll_iff.mp together
  obtain ⟨k, apart⟩ := Database.executeAll_iff.mp apart
  exact ⟨program, c, compiled, ready, m, stratum, merged, separate, n, k, parsed, catalog ▸ created, made,
    maintained, found, List.mem_of_find?_eq_some listed, named, together, apart, twice, once⟩

end Paired

end Compilation

end PeerExchange
