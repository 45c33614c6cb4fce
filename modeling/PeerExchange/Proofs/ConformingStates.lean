import PeerExchange.Proofs.ConformingValues
import PeerExchange.Proofs.EquatedJoins
import PeerExchange.Proofs.MergedInsertions
import PeerExchange.Proofs.QueuedEdits
import PeerExchange.Proofs.TypedProvenance

namespace PeerExchange

open RowSemantics (Match denote stampValue writtenRow)
open Run (Preserves)
open Sql (Database Expr InsertSource Query Row Select Source Statement Table Value World)

namespace Sql

variable {labels : String → Prop} {width : Nat} {columns : List (String × Option ColumnType)} {row : Row}

theorem Value.keep_keep (type : Option ColumnType) (v : Value) : (v.keep type).keep type = v.keep type := by
  cases type with
  | none => rfl
  | some type => exact Value.store_store type v

def Row.KeptBy (columns : List (String × Option ColumnType)) (row : Row) : Prop :=
  List.Forall₂ (fun (column : String × Option ColumnType) v => v.keep column.2 = v) columns row

theorem Row.Conforms.keep (conforms : row.Conforms labels width columns) :
    Row.KeptBy columns ((columns.zip row).map fun place => place.2.keep place.1.2) ∧
      Row.Conforms labels width columns ((columns.zip row).map fun place => place.2.keep place.1.2) := by
  induction conforms with
  | nil => exact ⟨.nil, .nil⟩
  | @cons column v _ _ here _ ih =>
    refine ⟨.cons (Value.keep_keep column.2 v) ih.1, .cons (fun type typed => ?_) ih.2⟩
    dsimp only
    rw [typed]
    exact (here type typed).store

theorem Query.source_of_mem {q : Query} {w : World} (inside : row ∈ q.rows w) :
    ∃ s ∈ q.selects, row ∈ s.projected w := by
  have united {rows : List Row} (inside : row ∈ Query.united rows) : row ∈ rows :=
    List.mem_reverse.mp (mem_of_mem_eraseDupsBy _ (List.mem_reverse.mp inside))
  unfold Query.rows at inside
  split at inside
  · exact List.mem_flatMap.mp (List.mem_of_mem_filter (united inside))
  · split at inside
    · obtain ⟨s, listed, inside⟩ := List.mem_flatMap.mp inside
      refine ⟨s, listed, ?_⟩
      unfold Select.rows at inside
      split at inside
      · exact mem_of_mem_eraseDupsBy _ inside
      · exact inside
    · exact List.mem_flatMap.mp (united inside)

end Sql

-- The stored relations have their tables, as the schema creates them, and the others have none.
structure Catalog.TabledIn (catalog : Catalog) (db : Database) : Prop where
  stored : ∀ name r, catalog.relations.get? name = some r → r.isStored = true → ∀ kind, r.StoredIn kind db
  others : ∀ name r, catalog.relations.get? name = some r → r.isStored = false →
    ∀ kind, db.tables.contains (r.tableName kind) = false

theorem Catalog.TabledIn.storedIn {catalog : Catalog} {db : Database} {name : String} {r : Relation}
    {kind : TableKind} (tabled : catalog.TabledIn db) (found : catalog.relations.get? name = some r)
    (present : db.tables.contains (r.tableName kind) = true) : r.StoredIn kind db := by
  cases stored : r.isStored with
  | true => exact tabled.stored name r found stored kind
  | false =>
    rw [tabled.others name r found stored kind] at present
    cases present

-- The tables are those of the catalog, and their values conform to the types of the columns.
structure Sql.Database.ConformsTo (labels : String → Prop) (width : Nat) (catalog : Catalog)
    (db : Database) : Prop where
  tabled : catalog.TabledIn db
  values : db.Conforms labels width

-- What a statement adds to its table conforms, whatever conforming tables it reads.
def Sql.Statement.Conforms (labels : String → Prop) (width : Nat) (catalog : Catalog) (k : Int) :
    Statement → Prop
  | .insert table names (.query q) => names ≠ [] → ∀ db : Database, db.ConformsTo labels width catalog →
      db.tables.contains table = true → names = (db.columns table).map Prod.fst ∧ Distinct names ∧
        ∀ s ∈ q.selects, (∀ read ∈ s.tables, db.tables.contains read = true) →
          ∀ row ∈ s.projected ⟨db, k⟩, row.Conforms labels width (db.columns table)
  | .delete _ _ => True
  | _ => False

section Statements

variable {labels : String → Prop} {width : Nat} {catalog : Catalog} {db db' : Database} {table : String}
  {s : Statement} {k : Int} {n : Nat}

theorem Sql.Database.ConformsTo.changed (conforms : db.ConformsTo labels width catalog)
    (changes : Database.ChangesIn (· = table) db db')
    (each : ∀ row ∈ db'.rows table, row ∈ db.rows table ∨
      Row.KeptBy (db.columns table) row ∧ row.Conforms labels width (db.columns table)) :
    db'.ConformsTo labels width catalog where
  tabled.stored name r found stored kind := by
    have own := conforms.tabled.stored name r found stored kind
    refine own.changed changes fun row inside => ?_
    by_cases same : fold table = fold (r.tableName kind)
    · rcases each row (Database.rows_congr same ▸ inside) with old | ⟨kept, -⟩
      · exact own.kept row (Database.rows_congr same ▸ old)
      · rw [Database.columns_congr same, own.columns, Row.KeptBy, List.forall₂_map_left_iff] at kept
        exact kept
    · exact own.kept row (changes.rows (Database.elsewhere_singleton.mpr same) ▸ inside)
  tabled.others name r found unstored kind :=
    (changes.present _).trans (conforms.tabled.others name r found unstored kind)
  values other row inside := by
    rw [changes.columns]
    by_cases same : fold table = fold other
    · rw [← Database.rows_congr same] at inside
      rw [← Database.columns_congr same]
      exact (each row inside).elim (conforms.values table row) And.right
    · exact conforms.values other row (changes.rows (Database.elsewhere_singleton.mpr same) ▸ inside)

theorem Sql.Database.ConformsTo.filled {t : Table} {rows : List Row}
    (conforms : db.ConformsTo labels width catalog) (found : db.tables.get? table = some t)
    (distinct : Distinct t.columnNames) (changes : Database.ChangesIn (· = table) db db')
    (after : db'.rows table = db.rows table ++ rows.map (t.fill t.columnNames))
    (each : ∀ row ∈ rows, row.Conforms labels width t.columns) : db'.ConformsTo labels width catalog := by
  have columns : db.columns table = t.columns := by simp [Database.columns, found]
  refine conforms.changed changes fun row inside => ?_
  rw [after, List.mem_append] at inside
  refine inside.imp_right fun added => ?_
  obtain ⟨given, listed, rfl⟩ := List.mem_map.mp added
  rw [columns, Table.fill_zip distinct (each given listed).length_eq.symm]
  exact (each given listed).keep

theorem Sql.Statement.conforms_merge {limit : Nat} {all : Bool} {first second whole : Statement}
    (here : first.Conforms labels width catalog k) (there : second.Conforms labels width catalog k)
    (merged : Statement.merge? limit all first second = some whole) :
    whole.Conforms labels width catalog k := by
  unfold Statement.merge? at merged
  split at merged
  · split at merged
    · rename_i agree
      cases merged
      simp only [Bool.and_eq_true, decide_eq_true_eq, and_assoc] at agree
      obtain ⟨rfl, rfl, -⟩ := agree
      intro named db conforms present
      obtain ⟨names, distinct, one⟩ := here named db conforms present
      obtain ⟨-, -, other⟩ := there named db conforms present
      exact ⟨names, distinct, List.forall_mem_append.mpr ⟨one, other⟩⟩
    · cases merged
  · cases merged

theorem Sql.Database.ConformsTo.execute (conforms : db.ConformsTo labels width catalog)
    (adds : s.Conforms labels width catalog k) (ran : db.execute k s = .ok (db', n)) :
    db'.ConformsTo labels width catalog := by
  match s, adds with
  | .delete table conditions, _ =>
    obtain ⟨changes, rows⟩ := Database.execute_delete_ok ran
    exact conforms.changed changes fun row inside => .inl (List.mem_of_mem_filter (rows ▸ inside))
  | .insert table names (.query q), adds =>
    obtain ⟨t, found, changes, after⟩ := Database.execute_insert_ok ran
    have named : names ≠ [] := by
      rintro rfl
      cases ran
    obtain ⟨same, distinct, each⟩ := adds named db conforms (Sql.Names.contains_of_get? found)
    have columns : db.columns table = t.columns := by simp [Database.columns, found]
    obtain rfl : names = t.columnNames := by rw [same, columns, Table.columnNames]
    refine conforms.filled found distinct changes after fun row inside => ?_
    obtain ⟨s, listed, projected⟩ := Query.source_of_mem inside
    refine columns ▸ each s listed (fun read inside => ?_) row projected
    -- The statement ran, so that all tables that it reads are there.
    rw [Database.execute, Database.insert] at ran
    split at ran
    · cases ran
    · obtain ⟨_, -, ran⟩ := Compiled.bind_ok.mp ran
      obtain ⟨⟨⟩, -, ran⟩ := Compiled.bind_ok.mp ran
      obtain ⟨⟨⟩, checked, -⟩ := Compiled.bind_ok.mp ran
      refine (Sql.checkNames_eq_ok checked).1 read (List.mem_flatMap.mpr ⟨s, ?_, inside⟩)
      exact List.mem_append_right _ (List.mem_reverse.mpr listed)

theorem Sql.Database.ConformsTo.load {r : Relation} {name : String} {kind : TableKind} {rows : List Row}
    (conforms : db.ConformsTo labels width catalog) (known : catalog.relations.get? name = some r)
    (each : ∀ row ∈ rows, r.ConformsTo labels width kind row)
    (ran : db.load (r.tableName kind) (Lowering.columnNames r kind) rows = .ok (db', n)) :
    db'.ConformsTo labels width catalog := by
  obtain ⟨t, found, changes, after⟩ := Database.load_ok ran
  have stored := conforms.tabled.storedIn known (Sql.Names.contains_of_get? found)
  obtain ⟨columns, names, distinct⟩ := stored.names_eq found
  refine conforms.filled found distinct changes (names ▸ after) fun row inside => ?_
  exact columns ▸ Relation.conformsTo_iff.mp (each row inside)

end Statements

namespace Lowering

variable {ctx : Context} {bindings : Bindings} {guard : Option Guard} {body : List Atom} {sc : Scope}
  {a : Atom}

section Tables

theorem mem_tables_negatedSelect {aliases : Nat} {s : Select} (plain : a.optional = false)
    (lowered : negatedSelect ctx bindings aliases a = .ok s) :
    ∃ r, ctx.catalog.relations.get? a.relationName = some r ∧ r.tableName a.kind ∈ s.tables := by
  obtain ⟨sc, joined, lowered⟩ := Compiled.bind_ok.mp lowered
  obtain ⟨conditions, -, lowered⟩ := Compiled.bind_ok.mp lowered
  cases lowered
  obtain ⟨r, added⟩ := joinAtom_joined (a := { a with negated := false }) plain rfl joined
  have known := List.forall_mem_singleton.mp added.relations
  refine ⟨r, (relationOf_ok known).1, ?_⟩
  rw [Select.tables, added.sources]
  simp [Source.tables, Join.source, Source.joined, Join.table]

theorem mem_tables_negatedConditions {aliases aliases' : Nat} {es : List Expr}
    (plain : ∀ a ∈ body, a.optional = false)
    (lowered : negatedConditions ctx bindings aliases body = .ok (es, aliases')) :
    ∀ a ∈ body, ∃ r, ctx.catalog.relations.get? a.relationName = some r ∧
      r.tableName a.kind ∈ Expr.allTables es := by
  induction body generalizing es aliases with
  | nil => exact List.forall_mem_nil _
  | cons a rest ih =>
    obtain ⟨own, plain⟩ := List.forall_mem_cons.mp plain
    unfold negatedConditions at lowered
    split at lowered
    · cases lowered
    · obtain ⟨s, here, lowered⟩ := Compiled.bind_ok.mp lowered
      obtain ⟨⟨others, after⟩, later, lowered⟩ := Compiled.bind_ok.mp lowered
      cases lowered
      rw [Expr.allTables, Expr.tables]
      refine List.forall_mem_cons.mpr ⟨?_, fun b inside => ?_⟩
      · obtain ⟨r, found, read⟩ := mem_tables_negatedSelect own here
        exact ⟨r, found, List.mem_append_left _ read⟩
      · obtain ⟨r, found, read⟩ := ih plain later b inside
        exact ⟨r, found, List.mem_append_right _ read⟩

theorem mem_tables_lowerBody (plain : ∀ a ∈ body, a.optional = false)
    (lowered : lowerBody ctx guard body = .ok sc) (inside : a ∈ body) (called : a.builtin? = none) :
    ∃ r, ctx.catalog.relations.get? a.relationName = some r ∧
      (r.tableName a.kind ∈ Source.tables sc.sources ∨
        r.tableName a.kind ∈ Expr.allTables sc.conditions) := by
  obtain ⟨joinScope, joined, lowered⟩ := Compiled.bind_ok.mp lowered
  obtain ⟨⟨bindings, conditions⟩, -, lowered⟩ := Compiled.bind_ok.mp lowered
  obtain ⟨equalities, -, lowered⟩ := Compiled.bind_ok.mp lowered
  obtain ⟨⟨negations, aliases⟩, negated, lowered⟩ := Compiled.bind_ok.mp lowered
  cases lowered
  cases negative : a.negated with
  | true =>
    obtain ⟨r, found, read⟩ := mem_tables_negatedConditions
      (fun b inside => plain b (List.mem_of_mem_filter inside)) negated a
      (List.mem_filter.mpr ⟨inside, negative⟩)
    refine ⟨r, found, .inr ?_⟩
    rw [Expr.allTables_eq_flatMap] at read ⊢
    rw [List.flatMap_append]
    exact List.mem_append_right _ read
  | false =>
    obtain ⟨joins, positives, added⟩ := joinAtoms_joined plain rfl joined
    have positive : a.isPositive = true := by
      simp [Atom.isPositive, negative, Atom.relation?_of_builtin called]
    have listed : a ∈ joins.map Join.atom := by
      have atoms := congrArg (List.map Prod.snd) positives
      rw [RowSemantics.positives_atoms, List.map_map] at atoms
      exact atoms.symm ▸ List.mem_filter.mpr ⟨inside, positive⟩
    obtain ⟨j, member, rfl⟩ := List.mem_map.mp listed
    refine ⟨j.relation, (relationOf_ok (added.relations j member)).1, .inl ?_⟩
    rw [added.sources, List.nil_append, Source.tables_eq_map, List.map_map]
    exact List.mem_map.mpr ⟨j, member, rfl⟩

end Tables

end Lowering

-- A typed rule that changes one table, with no stamps but those of an iteration and its neighbours.
structure Rule.Conforms (labels : String → Prop) (catalog : Catalog) (rule : Rule) : Prop where
  body : rule.body ≠ []
  typed : rule.IsTyped (Literal.IsStated labels) catalog
  required : ∀ a ∈ rule.head ++ rule.body, a.optional = false
  related : ∃ head, rule.head = [head] ∧ head.relation?.isSome = true
  changes : rule.action ≠ .view
  fixed : ∀ n, rule.stamp = some (.fixed n) → n = 0
  near : Lowering.Near rule

namespace Lowering

variable {labels : String → Prop} {ctx : Context} {head : Atom} {r : Relation} {k : Int} {s : Statement}
  {setSemantics : Bool}

theorem conforms_stampValue (rule : ctx.rule.Conforms labels ctx.catalog)
    (number : ctx.iteration.number k = k) (later : 0 ≤ k) (fits : fitsWord (k + 1) = true) {width : Nat} :
    (stampValue ctx k).Conforms labels width .integer := by
  unfold stampValue
  split
  · rename_i n stamp
    rw [rule.fixed n stamp]
    exact .integer 0
  · rename_i offset stamp
    have near := rule.near offset stamp
    have small : fitsWord (ctx.iteration.number k + offset) = true := by
      rw [number]
      simp only [fitsWord, Bool.and_eq_true, decide_eq_true_eq] at fits ⊢
      omega
    rw [Sql.BinaryOp.calculated, if_pos small]
    exact .integer _
  · exact .integer 0

theorem conforms_lowerInsert (rule : ctx.rule.Conforms labels ctx.catalog) (heads : ctx.rule.head = [head])
    (found : relationOf ctx head = .ok r) (number : ctx.iteration.number k = k) (later : 0 ≤ k)
    (fits : fitsWord (k + 1) = true) (lowered : lowerInsert ctx head r setSemantics = .ok s) :
    s.Conforms labels ctx.config.skolemWidth ctx.catalog k := by
  obtain ⟨sc, projection, bodied, projected, rfl⟩ := lowerInsert_ok rule.body lowered
  obtain ⟨known, arity⟩ := relationOf_ok found
  obtain ⟨types, typed⟩ := rule.typed
  have required := rule.required
  rw [heads, List.singleton_append] at typed required
  obtain ⟨typedHead, typedBody⟩ := List.forall_mem_cons.mp typed
  obtain ⟨requiredHead, requiredBody⟩ := List.forall_mem_cons.mp required
  have word : fitsWord k = true := by
    simp only [fitsWord, Bool.and_eq_true, decide_eq_true_eq] at fits ⊢
    omega
  intro named db conforms present
  have target := conforms.tabled.storedIn known present
  have columns : columnNames r head.kind = (db.columns (r.tableName head.kind)).map Prod.fst :=
    target.columnNames.symm
  refine ⟨columns, target.distinct, List.forall_mem_singleton.mpr fun reads row inside => ?_⟩
  have plain := @forall_insertionBody r head ctx.rule.body setSemantics (fun a => a.optional = false)
    requiredBody requiredHead
  have typed := @forall_insertionBody r head ctx.rule.body setSemantics
    (fun a => a.IsTyped (Literal.IsStated labels) ctx.catalog types) typedBody (typedHead.same rfl rfl)
  -- All tables that the body reads are there.
  have stores : ∀ a ∈ (insertionBody setSemantics r head ctx.rule.body).1, a.builtin? = none →
      StoresAtom ctx.catalog db a := by
    intro a inside called r' found'
    obtain ⟨_, same, read⟩ := mem_tables_lowerBody plain bodied inside called
    cases found'.symm.trans same
    refine conforms.tabled.storedIn found' (reads _ ?_)
    rw [selection, Select.tables]
    simp only [List.mem_append]
    exact read.elim (fun source => .inl (.inl (.inl source))) fun condition => .inl (.inr condition)
  obtain ⟨joins, shaped⟩ := lowerBody_lowered plain stores bodied
  have columned : r.physicalColumns head.kind ≠ [] := fun none => named (by rw [columnNames, none]; rfl)
  obtain ⟨rows, env, matched, rfl⟩ :=
    (mem_projected_match shaped word columned arity projected).mp inside
  have assigned := RowSemantics.conforms_match conforms.values typed stores matched
  have denoted : ∀ place ∈ head.args.zip r.columns, ∃ m, denote ctx env place.1 = some m ∧
      m.Conforms labels ctx.config.skolemWidth place.2.type := by
    intro place placed
    obtain ⟨m, meant⟩ := denotes_match shaped word projected matched place placed
    obtain ⟨_, single, related⟩ := rule.related
    cases heads.symm.trans single
    obtain ⟨name, related⟩ := Option.isSome_iff_exists.mp related
    obtain ⟨r', held, each⟩ := typedHead.stored name related
    rw [← Atom.relationName_of_relation related] at held
    cases known.symm.trans held
    exact ⟨m, meant, assigned.denote ((List.forall₂_iff_zip.mp each).2 placed) meant⟩
  rw [target.columns]
  exact Relation.conformsTo_iff.mp (RowSemantics.conforms_writtenRow arity denoted
    (conforms_stampValue rule number later fits))

theorem conforms_lowerRule {ss : List Statement} (rule : ctx.rule.Conforms labels ctx.catalog)
    (number : ctx.iteration.number k = k) (later : 0 ≤ k) (fits : fitsWord (k + 1) = true)
    (lowered : lowerRule ctx = .ok ss) :
    ∀ s ∈ ss, s.Conforms labels ctx.config.skolemWidth ctx.catalog k := by
  obtain ⟨head, heads, -⟩ := rule.related
  rw [lowerRule, heads] at lowered
  obtain ⟨r, found, lowered⟩ := Compiled.bind_ok.mp lowered
  cases action : ctx.rule.action with
  | derive =>
    rw [action] at lowered
    obtain ⟨s, inserts, lowered⟩ := Compiled.bind_ok.mp lowered
    cases lowered
    exact List.forall_mem_singleton.mpr (conforms_lowerInsert rule heads found number later fits inserts)
  | retract =>
    rw [action] at lowered
    obtain ⟨s, deletes, lowered⟩ := Compiled.bind_ok.mp lowered
    cases lowered
    obtain ⟨sc, own, -, -, rfl⟩ := lowerDelete_ok rule.body deletes
    exact List.forall_mem_singleton.mpr trivial
  | view => exact absurd action rule.changes
  | replace =>
    rw [action] at lowered
    obtain ⟨s, inserts, lowered⟩ := Compiled.bind_ok.mp lowered
    cases lowered
    refine List.forall_mem_cons.mpr ⟨trivial, List.forall_mem_singleton.mpr ?_⟩
    exact conforms_lowerInsert rule heads found number later fits inserts

end Lowering

-- Atoms of one relation and the same terms. They may read different tables and differ in sign.
structure Atom.Alike (a b : Atom) : Prop where
  predicate : b.predicate = a.predicate
  args : b.args = a.args
  optional : b.optional = a.optional

namespace Maintenance

variable {labels : String → Prop} {catalog marked : Catalog} {r rule : Rule} {d : Direction} {head a : Atom}
  {scc : List String} {recursive inside : Bool} {position : Nat}

theorem typed_of_alike (typed : r.IsTyped (Literal.IsStated labels) marked)
    (alike : ∀ b ∈ rule.head ++ rule.body, ∃ a ∈ r.head ++ r.body, a.Alike b) :
    rule.IsTyped (Literal.IsStated labels) marked := by
  obtain ⟨types, typed⟩ := typed
  refine ⟨types, fun b member => ?_⟩
  obtain ⟨a, own, alike⟩ := alike b member
  exact (typed a own).same alike.predicate alike.args

theorem required_of_alike (safe : r.IsSafe marked) (fills : r.Fills marked)
    (alike : ∀ b ∈ rule.head ++ rule.body, ∃ a ∈ r.head ++ r.body, a.Alike b) :
    ∀ b ∈ rule.head ++ rule.body, b.optional = false := by
  intro b member
  obtain ⟨a, own, alike⟩ := alike b member
  rw [alike.optional]
  rcases List.mem_append.mp own with headed | read
  · obtain ⟨head, heads, -, required, -⟩ := fills
    rw [heads] at headed
    exact List.mem_singleton.mp headed ▸ required
  · exact (safe.read a read).required

theorem alike_changeRule (heads : r.head = [head]) (found : r.body[position]? = some a) :
    ∀ b ∈ (changeRule d r head scc recursive position a).1.head ++
      (changeRule d r head scc recursive position a).1.body, ∃ c ∈ r.head ++ r.body, c.Alike b := by
  have headed : head ∈ r.head ++ r.body := by simp [heads]
  refine List.forall_mem_append.mpr ⟨List.forall_mem_singleton.mpr ⟨head, headed, rfl, rfl, rfl⟩,
    List.forall_mem_append.mpr ⟨fun b member => ?_, fun b member => ?_⟩⟩
  · rcases List.mem_or_eq_of_mem_set member with old | rfl
    · exact ⟨b, List.mem_append_right _ old, rfl, rfl, rfl⟩
    · exact ⟨a, List.mem_append_right _ (List.mem_of_getElem? found), rfl, rfl, rfl⟩
  · obtain ⟨-, predicate, args, optional⟩ := mem_exclusion member
    exact ⟨head, headed, predicate, args, optional⟩

section Derived

variable (safe : r.IsSafe marked) (fills : r.Fills marked)
  (typed : r.IsTyped (Literal.IsStated labels) marked)
include safe fills typed

theorem conforms_changesOf (step : d.IsStep) (member : rule ∈ changesOf d scc recursive inside r) :
    rule.Conforms labels marked := by
  obtain ⟨head, heads, related, -⟩ := id fills
  obtain ⟨position, a, found, -, same⟩ := (mem_changesOf heads).mp member
  obtain rfl : (changeRule d r head scc recursive position a).1 = rule := congrArg Prod.fst same
  have alike := @alike_changeRule _ d _ _ scc recursive _ heads found
  have stamps (stamp : Stamp)
      (given : (changeRule d r head scc recursive position a).1.stamp = some stamp) :
      stamp = .iteration d.stampOffset ∨ stamp = .fixed 0 := by
    change (if recursive = true then some _ else none) = _ at given
    split at given
    · cases given
      split
      · exact .inl rfl
      · exact .inr rfl
    · cases given
  refine ⟨List.append_ne_nil_of_left_ne_nil ?_ _, typed_of_alike typed alike,
    required_of_alike safe fills alike, ⟨_, rfl, related⟩, fun same => (by cases same), fun n given => ?_,
    fun offset given => ?_⟩
  · refine List.ne_nil_of_length_pos ?_
    rw [List.length_set]
    exact List.length_pos_iff.mpr safe.body
  · rcases stamps _ given with same | same
    · cases same
    · exact Stamp.fixed.inj same
  · rcases stamps _ given with same | same
    · exact Stamp.iteration.inj same ▸ step.stamp
    · cases same

theorem conforms_rederiveRule : (rederiveRule r).Conforms labels marked := by
  obtain ⟨head, heads, related, -⟩ := id fills
  have first : r.head?.getD (.ofRelation "" []) = head := by rw [Rule.head?, heads]; rfl
  have headed : (rederiveRule r).head = [head.withKind .deletion] := by
    change [(r.head?.getD (.ofRelation "" [])).withKind .deletion] = _
    rw [first]
  have alike : ∀ b ∈ (rederiveRule r).head ++ (rederiveRule r).body,
      ∃ a ∈ r.head ++ r.body, a.Alike b := by
    rw [headed]
    refine List.forall_mem_append.mpr ⟨List.forall_mem_singleton.mpr ⟨head, ?_, rfl, rfl, rfl⟩,
      List.forall_mem_append.mpr ⟨fun b member => ⟨b, List.mem_append_right _ member, rfl, rfl, rfl⟩,
        List.forall_mem_map.mpr fun a member => ?_⟩⟩
    · simp [heads]
    · exact ⟨a, List.mem_append_right _ (List.mem_of_mem_filter member), rfl, rfl, rfl⟩
  exact ⟨List.append_ne_nil_of_left_ne_nil safe.body _, typed_of_alike typed alike,
    required_of_alike safe fills alike, ⟨_, headed, related⟩,
    fun same => (by cases same), fun _ same => (by cases same), .unstamped rfl⟩

end Derived

theorem conforms_tableRule {relation : Relation} {name suffix : String} {action : Action}
    {into source : TableKind} {stratified : Bool} {guard : Option Guard}
    (stored : marked.relations.get? name = some relation) (changes : action ≠ .view) :
    ({ tableRule relation name suffix action into source with
      stratified := stratified, guard := guard } : Rule).Conforms labels marked := by
  obtain ⟨types, each⟩ := @exists_typing (Literal.IsStated labels) "x" relation.columns
  have typed := Atom.isTyped_places stored each
  refine ⟨List.cons_ne_nil _ _, ⟨types, ?_⟩, ?_, ⟨_, rfl, rfl⟩, changes,
    fun _ same => (by cases same), .unstamped rfl⟩
  · exact List.forall_mem_cons.mpr ⟨typed.same rfl rfl, List.forall_mem_singleton.mpr (typed.same rfl rfl)⟩
  · exact List.forall_mem_cons.mpr ⟨rfl, List.forall_mem_singleton.mpr rfl⟩

theorem conforms_mergeRule {relation : Relation} {name : String}
    (stored : marked.relations.get? name = some relation) :
    (mergeRule relation name recursive).Conforms labels marked := by
  unfold mergeRule
  split
  · exact conforms_tableRule stored (by decide)
  · exact conforms_tableRule stored (by decide)

theorem conforms_program {x : Exchange} {program : Maintenance}
    (built : build x catalog = (marked, .ok program))
    (safe : ∀ r ∈ x.rules, r.IsSafe marked ∧ r.Fills marked)
    (typed : ∀ r ∈ x.rules, r.IsTyped (Literal.IsStated labels) marked) :
    ∀ rule ∈ program.allRules, rule.Conforms labels marked := by
  intro rule member
  obtain ⟨s, -, origin⟩ := origin_of_build built member
  have own (r : Rule) (listed : r ∈ ownRules (markedRules x.rules (recursiveNames x)) s) :
      r.IsSafe marked ∧ r.Fills marked ∧ r.IsTyped (Literal.IsStated labels) marked := by
    obtain ⟨given, inside, rfl⟩ := List.mem_map.mp (mem_ownRules.mp listed).1
    obtain ⟨safe, fills⟩ := safe given inside
    exact ⟨⟨safe.body, safe.read, safe.resolved, safe.computed⟩, fills, typed given inside⟩
  cases origin with
  | change step listed changed =>
    obtain ⟨safe, fills, typed⟩ := own _ listed
    exact conforms_changesOf safe fills typed step changed
  | rederived listed =>
    obtain ⟨safe, fills, typed⟩ := own _ listed
    exact conforms_rederiveRule safe fills typed
  | table stored changes => exact conforms_tableRule stored changes
  | merged inside stored => exact conforms_mergeRule stored

end Maintenance

end PeerExchange
