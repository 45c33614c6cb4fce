import Mathlib.Data.List.Nodup
import PeerExchange.Proofs.LoweredBuiltins
import PeerExchange.Proofs.LoweredJoins

namespace PeerExchange

open RowSemantics (Meaning Env Holds)
open Sql (BinaryOp Database Expr Frame Item Row Select Source Typed Value Visible World)

namespace Lowering

variable {ctx : Context} {db : Database} {w : World} {scope outer : Sql.Scope} {v : Visible}

-- The tables that an atom may read are there.
def StoresAtom (c : Catalog) (db : Database) (a : Atom) : Prop :=
  ∀ r, c.relations.get? a.relationName = some r → r.StoredIn a.kind db

section Reading

variable {r : Relation} {a : Atom} {row : Row} {qualifier table : String}

def Shows (db : Database) (scope : Sql.Scope) (qualifier table : String) (row : Row) : Prop :=
  ∀ column ∈ (db.columns table).map Prod.fst,
    scope.get? qualifier column = Item.cell? column (db.columns table) row

theorem eval_shown (shows : Shows db scope qualifier table row) {column : String}
    (named : column ∈ (db.columns table).map Prod.fst) :
    (Expr.column qualifier column).eval w scope = RowSemantics.cell db table row column := by
  rw [Expr.eval, shows column named, RowSemantics.cell]

theorem tableOf_known (known : ctx.catalog.relations.get? a.relationName = some r) :
    RowSemantics.tableOf ctx.catalog a = r.tableName a.kind := by
  rw [RowSemantics.tableOf, known]
  rfl

theorem tableOf_eq (found : relationOf ctx a = .ok r) :
    RowSemantics.tableOf ctx.catalog a = r.tableName a.kind :=
  tableOf_known (relationOf_ok found).1

theorem places_terms (found : relationOf ctx a = .ok r) :
    (RowSemantics.places ctx.catalog db a row).map Prod.snd = a.args := by
  obtain ⟨known, arity⟩ := relationOf_ok found
  rw [RowSemantics.places, known, List.map_map]
  exact List.map_fst_zip (Nat.le_of_eq arity)

theorem meaning_placesOf (found : relationOf ctx a = .ok r) (stored : r.StoredIn a.kind db)
    (shows : Shows db scope qualifier (r.tableName a.kind) row) :
    (placesOf r qualifier a.args).map (Place.meaning w scope) =
      RowSemantics.places ctx.catalog db a row := by
  rw [RowSemantics.places, (relationOf_ok found).1, placesOf, List.map_map]
  refine List.map_congr_left fun place inside => ?_
  obtain ⟨arg, column⟩ := place
  have listed : column ∈ r.columns := (List.of_mem_zip inside).2
  simp only [Function.comp_apply, Place.meaning, Binding.meaning,
    eval_shown shows (stored.column_present listed)]
  cases marked : r.markerOf? column with
  | none => rfl
  | some marker =>
    simp only [Option.map_some, eval_shown shows (stored.marker_present listed marked)]

theorem placesOf_within (kind : TableKind) {args : List Term}
    (seen : ∀ column ∈ columnNames r kind, v.lists qualifier column = true) :
    ∀ p ∈ placesOf r qualifier args, p.column.Within v := by
  intro p inside
  obtain ⟨⟨arg, column⟩, listed, rfl⟩ := List.mem_map.mp inside
  have known : column ∈ r.columns := (List.of_mem_zip listed).2
  have stored := @Relation.mem_physicalColumns r kind _ known
  refine ⟨seen _ (List.mem_map_of_mem stored.1), fun m marked => ?_⟩
  cases named : r.markerOf? column with
  | none =>
    simp only [named] at marked
    cases marked
  | some marker =>
    simp only [named] at marked
    cases marked
    exact seen _ (List.mem_map_of_mem (stored.2 marker named))

end Reading

section Joins

variable {guard : Option Guard} {joins : List Join} {rows : List Row} {start : Nat}

def visible (db : Database) (joins : List Join) : Visible :=
  Source.visible db (joins.map Join.source)

def frame (db : Database) (joins : List Join) (rows : List Row) : Frame :=
  Source.frameOf db (joins.map Join.source) rows

-- The items of a FROM clause read tables that are there, each under a number of its own.
structure Joinable (ctx : Context) (db : Database) (start : Nat) (joins : List Join) : Prop where
  numbers : joins.map Join.number = List.range' start joins.length
  relations : ∀ j ∈ joins, relationOf ctx j.atom = .ok j.relation
  stored : ∀ j ∈ joins, j.relation.StoredIn j.atom.kind db

def RowsFor (db : Database) (joins : List Join) (rows : List Row) : Prop :=
  List.Forall₂ (fun (j : Join) row => row ∈ db.rows j.table) joins rows

theorem mem_visible {qualifier column : String} :
    (visible db joins).lists qualifier column = true ↔
      ∃ j ∈ joins, j.qualifier = qualifier ∧ column ∈ (db.columns j.table).map Prod.fst := by
  rw [visible, Source.mem_visible]
  constructor
  · rintro ⟨s, inside, rfl, named⟩
    obtain ⟨j, listed, rfl⟩ := List.mem_map.mp inside
    exact ⟨j, listed, rfl, named⟩
  · rintro ⟨j, listed, rfl, named⟩
    exact ⟨j.source, List.mem_map_of_mem listed, rfl, named⟩

theorem isJoined : ∀ s ∈ joins.map Join.source, s.IsJoined := by
  intro s inside
  obtain ⟨j, _, rfl⟩ := List.mem_map.mp inside
  rfl

theorem rowsOf_iff : Source.RowsOf db (joins.map Join.source) rows ↔ RowsFor db joins rows := by
  rw [Source.RowsOf, List.forall₂_map_left_iff]
  rfl

theorem mem_frames (same : w.database = db) {f : Frame} :
    f ∈ Source.frames w scope [] (joins.map Join.source) ↔
      ∃ rows, RowsFor db joins rows ∧ f = frame db joins rows := by
  rw [Source.mem_frames isJoined, same]
  simp only [rowsOf_iff, List.append_nil, frame]

namespace Joinable

variable (joinable : Joinable ctx db start joins)
include joinable

theorem distinct : ((joins.map Join.source).map fun s => Sql.fold s.qualifier).Nodup := by
  have names : ((joins.map Join.source).map fun s => Sql.fold s.qualifier) =
      (joins.map Join.number).map fun n => Sql.fold (aliasName n) := by
    rw [List.map_map, List.map_map]
    rfl
  rw [names, joinable.numbers]
  exact List.Nodup.map (fun m n same => fold_aliasName_injective same) List.nodup_range'

theorem number_lt {j : Join} (inside : j ∈ joins) : j.number < start + joins.length := by
  have listed : j.number ∈ joins.map Join.number := List.mem_map_of_mem inside
  rw [joinable.numbers] at listed
  exact (List.mem_range'_1.mp listed).2

theorem shows (each : RowsFor db joins rows) :
    List.Forall₂ (fun (j : Join) row => Shows db (frame db joins rows :: outer) j.qualifier j.table row)
      joins rows := by
  rw [List.forall₂_iff_zip]
  refine ⟨each.length_eq, fun {j row} chosen column named => ?_⟩
  have inside : j ∈ joins := (List.of_mem_zip chosen).1
  have stored : row ∈ db.rows j.table := (List.forall₂_iff_zip.mp each).2 chosen
  have placed : (j.source, row) ∈ (joins.map Join.source).zip rows := by
    rw [List.zip_map_left]
    exact List.mem_map.mpr ⟨(j, row), chosen, rfl⟩
  obtain ⟨t, here, found⟩ := Source.frameOf_cell joinable.distinct
    ((List.length_map _).trans each.length_eq) placed ((joinable.stored j inside).full stored) named
  exact (Sql.Scope.get?_of_frame found).trans here.symm

theorem meaning_places (each : RowsFor db joins rows) :
    (joins.flatMap Join.places).map (Place.meaning w (frame db joins rows :: outer)) =
      (List.zipWith (fun (p : Nat × Atom) row => RowSemantics.places ctx.catalog db p.2 row)
        (joins.map fun j => (j.position, j.atom)) rows).flatten := by
  have shown := @Joinable.shows _ _ outer _ _ _ joinable each
  generalize frame db joins rows :: outer = scope at shown
  have relations := joinable.relations
  have stored := joinable.stored
  clear joinable each
  induction shown with
  | nil => rfl
  | @cons j row _ _ here _ ih =>
    obtain ⟨found, relations⟩ := List.forall_mem_cons.mp relations
    obtain ⟨own, stored⟩ := List.forall_mem_cons.mp stored
    rw [List.flatMap_cons, List.map_append, List.map_cons, List.zipWith_cons_cons, List.flatten_cons,
      ih relations stored]
    exact congrArg (· ++ _) (meaning_placesOf found own here)

theorem places_within : ∀ p ∈ joins.flatMap Join.places, p.column.Within (visible db joins) := by
  intro p inside
  obtain ⟨j, listed, placed⟩ := List.mem_flatMap.mp inside
  refine placesOf_within j.atom.kind (fun column named => ?_) p placed
  exact mem_visible.mpr ⟨j, listed, rfl, (joinable.stored j listed).columnNames ▸ named⟩

theorem guards_iff (each : RowsFor db joins rows) (fits : fitsWord w.parameter = true)
    {guarded : List (List Expr)} (lowered : List.Forall₂ (fun (j : Join) es =>
      guardConditions ctx guard j.position j.relation j.atom.kind j.qualifier = .ok es)
      joins guarded) :
    AllTrue w (frame db joins rows :: outer) guarded.flatten ↔
      List.Forall₂ (RowSemantics.Chosen ctx db w.parameter guard)
        (joins.map fun j => (j.position, j.atom)) rows := by
  have shown := @Joinable.shows _ _ outer _ _ _ joinable each
  generalize frame db joins rows :: outer = scope at shown
  have relations := joinable.relations
  have stored := joinable.stored
  clear joinable
  induction shown generalizing guarded with
  | nil =>
    cases lowered
    simp [AllTrue]
  | @cons j row _ _ here _ ih =>
    obtain ⟨found, relations⟩ := List.forall_mem_cons.mp relations
    obtain ⟨own, stored⟩ := List.forall_mem_cons.mp stored
    cases lowered with
    | @cons _ es _ _ first later =>
      cases each with
      | cons chosen each =>
        have others := ih each later relations stored
        rw [List.flatten_cons, allTrue_append, List.map_cons, List.forall₂_cons]
        refine and_congr ?_ others
        have inTable : row ∈ db.rows (RowSemantics.tableOf ctx.catalog j.atom) := by
          rw [tableOf_eq found]
          exact chosen
        rw [guardConditions_hold fits first, RowSemantics.Chosen]
        dsimp only
        rw [and_iff_right inTable]
        refine forall_congr' fun g => forall_congr' fun asked => forall_congr' fun here' => ?_
        have stratified := guardConditions_stratified asked here' first
        rw [eval_shown here (own.stratum_present stratified), tableOf_eq found]
        rfl

theorem guards_within {guarded : List (List Expr)} (lowered : List.Forall₂ (fun (j : Join) es =>
    guardConditions ctx guard j.position j.relation j.atom.kind j.qualifier = .ok es)
      joins guarded) : ∀ e ∈ guarded.flatten, e.Within (visible db joins) := by
  intro e inside
  obtain ⟨es, listed, member⟩ := List.mem_flatten.mp inside
  obtain ⟨j, joined, here⟩ := Compiled.forall₂_source lowered listed
  refine guardConditions_within (fun stratified => ?_) here e member
  exact mem_visible.mpr ⟨j, joined, rfl, (joinable.stored j joined).stratum_present stratified⟩

end Joinable

end Joins

section Negations

variable {bindings : Bindings} {aliases : Nat} {a : Atom} {q : Select}

def Below (n : Nat) (v : Visible) : Prop :=
  ∀ qualifier column, v.lists qualifier column = true → ∃ i < n, qualifier = aliasName i

theorem Below.mono {m n : Nat} (below : Below m v) (order : m ≤ n) : Below n v := by
  intro qualifier column seen
  obtain ⟨i, less, same⟩ := below qualifier column seen
  exact ⟨i, Nat.lt_of_lt_of_le less order, same⟩

theorem agreeOn_inner (below : Below aliases v) {f : Frame}
    (named : ∀ i ∈ f, i.name = aliasName aliases) : Sql.Scope.AgreeOn v (f :: scope) scope := by
  intro qualifier column seen
  refine Sql.Scope.get?_of_outer (Frame.get?_of_absent fun inside => ?_)
  obtain ⟨i, listed, same⟩ := List.mem_map.mp inside
  obtain ⟨n, less, numbered⟩ := below qualifier column seen
  rw [named i listed, numbered] at same
  have equal := fold_aliasName_injective same
  omega

theorem environment_congr (all : AllWithin v bindings) {scope' : Sql.Scope}
    (agree : Sql.Scope.AgreeOn v scope scope') :
    environment w scope bindings = environment w scope' bindings := by
  have each : ∀ entry ∈ bindings.entries,
      (entry.2 : Binding).meaning w scope = entry.2.meaning w scope' := by
    intro entry inside
    exact Binding.meaning_congr (all entry.1 entry.2 (NameMap.lookup_of_mem bindings.sorted inside))
      agree
  simp only [environment, NameMap.map, NameMap.mk.injEq]
  refine List.map_congr_left fun entry inside => ?_
  rw [each entry inside]

theorem negatedSelect_join (plain : a.optional = false)
    (lowered : negatedSelect ctx bindings aliases a = .ok q) :
    ∃ j : Join, ∃ es, j.atom = { a with negated := false } ∧ j.number = aliases ∧
      relationOf ctx j.atom = .ok j.relation ∧ q = .mk false [] [j.source] es ∧
      allConditions ctx (bindPlaces bindings j.places).1 true (bindPlaces bindings j.places).2 =
        .ok es := by
  obtain ⟨inner, joined, lowered⟩ := Compiled.bind_ok.mp lowered
  obtain ⟨es, each, lowered⟩ := Compiled.bind_ok.mp lowered
  cases lowered
  have inner : ({ a with negated := false } : Atom).optional = false := plain
  obtain ⟨r, added⟩ := joinAtom_joined inner rfl joined
  refine ⟨⟨0, { a with negated := false }, r, aliases⟩, es, rfl, rfl,
    added.relations _ List.mem_cons_self, ?_, ?_⟩
  · rw [added.sources]
    rfl
  · have bound := added.bindings
    have pending := added.pending
    simp only [List.flatMap_cons, List.flatMap_nil, List.append_nil, List.nil_append] at bound pending
    rw [← bound, ← pending]
    exact each

theorem isTrue_exists {negated : Bool} :
    ((Expr.exists negated q).eval w scope).value.isTrue = true ↔
      (q.frames w scope).isEmpty = negated := by
  rw [Expr.eval]
  cases (q.frames w scope).isEmpty <;> cases negated <;> decide

theorem joinable_of_negated {j : Join} (atom : j.atom = { a with negated := false })
    (number : j.number = aliases) (found : relationOf ctx j.atom = .ok j.relation)
    (stores : StoresAtom ctx.catalog db a) : Joinable ctx db aliases [j] where
  numbers := by simp [number]
  relations := List.forall_mem_singleton.mpr found
  stored := by
    refine List.forall_mem_singleton.mpr ?_
    have known := (relationOf_ok found).1
    rw [atom] at known ⊢
    exact stores j.relation known

theorem negatedSelect_absent (plain : a.optional = false) (stores : StoresAtom ctx.catalog db a)
    (all : AllWithin v bindings) (below : Below aliases v) (same : w.database = db)
    (lowered : negatedSelect ctx bindings aliases a = .ok q) :
    ((Expr.exists true q).eval w scope).value.isTrue = true ↔
      ∀ row ∈ db.rows (RowSemantics.tableOf ctx.catalog a),
        ¬ RowSemantics.Identical ctx db (environment w scope bindings) a row := by
  obtain ⟨j, es, atom, number, found, rfl, each⟩ := negatedSelect_join plain lowered
  have joinable := joinable_of_negated atom number found stores
  have table : RowSemantics.tableOf ctx.catalog a = j.table := by
    have own := tableOf_eq found
    rw [atom] at own
    rw [Join.table, atom]
    exact own
  have identical (row : Row) (inside : row ∈ db.rows j.table) :
      AllTrue w (frame db [j] [row] :: scope) es ↔
        RowSemantics.Identical ctx db (environment w scope bindings) a row := by
    have rows : RowsFor db [j] [row] := .cons inside .nil
    have named : ∀ i ∈ frame db [j] [row], i.name = aliasName aliases := by
      rw [← number]
      exact List.forall_mem_singleton.mpr rfl
    have outside : environment w (frame db [j] [row] :: scope) bindings = environment w scope bindings :=
      environment_congr all (agreeOn_inner below named)
    have read : j.places.map (Place.meaning w (frame db [j] [row] :: scope)) =
        RowSemantics.places ctx.catalog db a row := by
      have one := @Joinable.meaning_places _ _ w scope _ _ _ joinable rows
      simp only [List.flatMap_cons, List.flatMap_nil, List.append_nil, List.map_cons, List.map_nil,
        List.zipWith_cons_cons, List.zipWith_nil_left, List.flatten_cons, List.flatten_nil, atom] at one
      exact one
    rw [allConditions_agree each, ← agree_places, ← bound_places, read, outside]
    rfl
  rw [isTrue_exists, Select.frames, List.isEmpty_iff, List.filter_eq_nil_iff, table]
  constructor
  · intro none row inside
    have listed : frame db [j] [row] ∈ Source.frames w scope [] [j.source] :=
      (mem_frames same).mpr ⟨[row], .cons inside .nil, rfl⟩
    rw [← identical row inside, ← allHold_iff]
    exact none _ listed
  · intro none f listed
    have listed : f ∈ Source.frames w scope [] ([j].map Join.source) := listed
    obtain ⟨rows, chosen, rfl⟩ := (mem_frames same).mp listed
    cases chosen with
    | cons inside rest =>
      cases rest
      rw [allHold_iff, identical _ inside]
      exact none _ inside

def Resolves (db : Database) (around : List Visible) (e : Expr) : Prop :=
  e.unresolved db around = [] ∧ ∀ table ∈ e.tables, db.tables.contains table = true

theorem resolves_of_within {around : List Visible} {e : Expr} (shown : v.Shown around)
    (within : e.Within v) : Resolves db around e := by
  refine ⟨Expr.unresolved_within shown e within, ?_⟩
  rw [Expr.tables_within e within]
  exact List.forall_mem_nil _

theorem covers_right {v' : Visible} : (v' ++ v : Visible).Covers v := by
  intro qualifier column seen
  rw [Visible.lists_append, seen, Bool.or_true]

theorem covers_left {v' : Visible} : (v ++ v' : Visible).Covers v := by
  intro qualifier column seen
  rw [Visible.lists_append, seen, Bool.true_or]

theorem AllWithin.mono {v' : Visible} (wider : v'.Covers v) (all : AllWithin v bindings) :
    AllWithin v' bindings :=
  fun name b found => Binding.within_mono wider (all name b found)

theorem unresolved_joined {around : List Visible} {joins : List Join} :
    Source.unresolved db around (joins.map Join.source) = [] := by
  induction joins with
  | nil => simp only [List.map_nil, Source.unresolved]
  | cons j rest ih =>
    simp only [List.map_cons, Join.source, Source.joined, Source.unresolved, Expr.allUnresolved,
      List.nil_append]
    exact ih

theorem conditionTables_joined {joins : List Join} :
    Source.conditionTables (joins.map Join.source) = [] := by
  induction joins with
  | nil => simp only [List.map_nil, Source.conditionTables]
  | cons j rest ih =>
    simp only [List.map_cons, Join.source, Source.joined, Source.conditionTables, Expr.allTables,
      List.nil_append]
    exact ih

theorem resolves_select {joins : List Join} {start : Nat} {projection es : List Expr}
    {around : List Visible} {distinct : Bool} (joinable : Joinable ctx db start joins)
    (projected : ∀ e ∈ projection, Resolves db (visible db joins :: around) e)
    (conditions : ∀ e ∈ es, Resolves db (visible db joins :: around) e) :
    (Select.mk distinct projection (joins.map Join.source) es).unresolved db around = [] ∧
      ∀ table ∈ (Select.mk distinct projection (joins.map Join.source) es).tables,
        db.tables.contains table = true := by
  constructor
  · simp only [Select.unresolved, Expr.allUnresolved_eq_flatMap, unresolved_joined,
      List.append_nil, List.append_eq_nil_iff, List.flatMap_eq_nil_iff]
    exact ⟨fun e inside => (projected e inside).1, fun e inside => (conditions e inside).1⟩
  · simp only [Select.tables, Expr.allTables_eq_flatMap, conditionTables_joined, List.append_nil,
      Source.tables_eq_map, List.forall_mem_append, List.mem_flatMap]
    refine ⟨⟨fun table inside => ?_, ?_⟩, ?_⟩
    · obtain ⟨source, listed, rfl⟩ := List.mem_map.mp inside
      obtain ⟨j, joined, rfl⟩ := List.mem_map.mp listed
      exact (joinable.stored j joined).present
    · rintro table ⟨e, inside, listed⟩
      exact (projected e inside).2 table listed
    · rintro table ⟨e, inside, listed⟩
      exact (conditions e inside).2 table listed

theorem negatedSelect_resolves (plain : a.optional = false) (stores : StoresAtom ctx.catalog db a)
    (all : AllWithin v bindings) (lowered : negatedSelect ctx bindings aliases a = .ok q)
    {around : List Visible} (shown : v.Shown around) : Resolves db around (.exists true q) := by
  obtain ⟨j, es, atom, number, found, rfl, each⟩ := negatedSelect_join plain lowered
  have joinable := joinable_of_negated atom number found stores
  have within : ∀ p ∈ j.places, p.column.Within (visible db [j] ++ v) := fun p inside =>
    Binding.within_mono covers_left (joinable.places_within p (by simpa using inside))
  obtain ⟨bound, left⟩ := bindPlaces_within (all.mono (@covers_right v (visible db [j]))) within
  have inside := allConditions_within bound left each
  have seen : (visible db [j] ++ v).Shown (visible db [j] :: around) := Visible.shown_append shown
  have conditions : ∀ e ∈ es, Resolves db (visible db [j] :: around) e :=
    fun e listed => resolves_of_within seen (inside e listed)
  unfold Resolves
  simp only [Expr.unresolved, Expr.tables]
  exact resolves_select joinable (List.forall_mem_nil _) conditions

theorem negatedConditions_ok {atoms : List Atom} {es : List Expr} {aliases' : Nat}
    (plain : ∀ a ∈ atoms, a.optional = false)
    (stores : ∀ a ∈ atoms, a.builtin? = none → StoresAtom ctx.catalog db a)
    (all : AllWithin v bindings) (below : Below aliases v)
    (lowered : negatedConditions ctx bindings aliases atoms = .ok (es, aliases')) :
    aliases ≤ aliases' ∧
      (∀ around, v.Shown around → ∀ e ∈ es, Resolves db around e) ∧
      ∀ w scope, w.database = db → (AllTrue w scope es ↔ ∀ a ∈ atoms,
        ∀ row ∈ db.rows (RowSemantics.tableOf ctx.catalog a),
          ¬ RowSemantics.Identical ctx db (environment w scope bindings) a row) := by
  induction atoms generalizing es aliases with
  | nil =>
    cases lowered
    refine ⟨Nat.le_refl _, fun around shown e inside => ?_, fun w scope same => ?_⟩
    · cases inside
    · simp [AllTrue]
  | cons a rest ih =>
    obtain ⟨own, plain⟩ := List.forall_mem_cons.mp plain
    obtain ⟨storesOwn, stores⟩ := List.forall_mem_cons.mp stores
    unfold negatedConditions at lowered
    split at lowered
    · cases lowered
    · rename_i relational
      obtain ⟨q, here, lowered⟩ := Compiled.bind_ok.mp lowered
      obtain ⟨⟨others, after⟩, later, lowered⟩ := Compiled.bind_ok.mp lowered
      cases lowered
      obtain ⟨order, resolves, absent⟩ := ih plain stores (below.mono (Nat.le_succ _)) later
      refine ⟨Nat.le_of_succ_le order, fun around shown => ?_, fun w scope same => ?_⟩
      · exact List.forall_mem_cons.mpr
          ⟨negatedSelect_resolves own (storesOwn relational) all here shown, resolves around shown⟩
      · have first := @negatedSelect_absent _ _ w scope _ _ _ _ _ own (storesOwn relational) all below
          same here
        have others := absent w scope same
        unfold AllTrue at others ⊢
        rw [List.forall_mem_cons, List.forall_mem_cons, first, others]

end Negations

section Bodies

variable {guard : Option Guard} {body : List Atom} {s : Scope} {joins : List Join}
  {rows : List Row} {env : Env}

structure Lowered (ctx : Context) (db : Database) (guard : Option Guard) (body : List Atom)
    (s : Scope) (joins : List Join) : Prop where
  positives : joins.map (fun j => (j.position, j.atom)) = RowSemantics.positives 0 body
  joinable : Joinable ctx db 0 joins
  sources : s.sources = joins.map Join.source
  bindings : AllWithin (visible db joins) s.bindings
  resolves : ∀ around, ∀ e ∈ s.conditions, Resolves db (visible db joins :: around) e
  aliases : joins.length ≤ s.aliases
  matches_iff : ∀ w outer rows env, w.database = db → fitsWord w.parameter = true →
    RowsFor db joins rows →
      (RowSemantics.Match ctx db w.parameter guard body rows env ↔
        AllTrue w (frame db joins rows :: outer) s.conditions ∧
          env = environment w (frame db joins rows :: outer) s.bindings)

theorem below_visible {start : Nat} (joinable : Joinable ctx db start joins) :
    Below (start + joins.length) (visible db joins) := by
  intro qualifier column seen
  obtain ⟨j, inside, rfl, _⟩ := mem_visible.mp seen
  exact ⟨j.number, joinable.number_lt inside, rfl⟩

theorem rowsFor_of_chosen {parameter : Int}
    (positives : joins.map (fun j => (j.position, j.atom)) = RowSemantics.positives 0 body)
    (joinable : Joinable ctx db 0 joins)
    (chosen : List.Forall₂ (RowSemantics.Chosen ctx db parameter guard) (RowSemantics.positives 0 body)
      rows) : RowsFor db joins rows := by
  rw [← positives, List.forall₂_map_left_iff] at chosen
  rw [RowsFor, List.forall₂_iff_zip]
  refine ⟨chosen.length_eq, fun {j row} inside => ?_⟩
  have here := ((List.forall₂_iff_zip.mp chosen).2 inside).1
  dsimp only at here
  rw [tableOf_eq (joinable.relations j (List.of_mem_zip inside).1)] at here
  exact here

theorem Lowered.rows_of_match (lowered : Lowered ctx db guard body s joins) {parameter : Int}
    (holds : RowSemantics.Match ctx db parameter guard body rows env) : RowsFor db joins rows :=
  rowsFor_of_chosen lowered.positives lowered.joinable holds.chosen

theorem positives_mem {body : List Atom} {position : Nat} {p : Nat × Atom}
    (inside : p ∈ RowSemantics.positives position body) : p.2 ∈ body ∧ p.2.isPositive = true := by
  induction body generalizing position with
  | nil => cases inside
  | cons a rest ih =>
    unfold RowSemantics.positives at inside
    split at inside
    · rename_i positive
      rcases List.mem_cons.mp inside with rfl | later
      · exact ⟨List.mem_cons_self, positive⟩
      · exact (ih later).imp_left (List.mem_cons_of_mem _)
    · exact (ih inside).imp_left (List.mem_cons_of_mem _)

theorem joinAtoms_joinable (plain : ∀ a ∈ body, a.optional = false)
    (stores : ∀ a ∈ body, a.builtin? = none → StoresAtom ctx.catalog db a)
    (joined : joinAtoms ctx guard { bindings := .empty, aliases := 0 } 0 body = .ok s) :
    ∃ joins, joins.map (fun j => (j.position, j.atom)) = RowSemantics.positives 0 body ∧
      Joined ctx guard { bindings := .empty, aliases := 0 } s joins ∧ Joinable ctx db 0 joins := by
  obtain ⟨joins, positives, added⟩ := joinAtoms_joined plain rfl joined
  refine ⟨joins, positives, added, added.numbers, added.relations, fun j inside => ?_⟩
  have listed : (j.position, j.atom) ∈ RowSemantics.positives 0 body :=
    positives ▸ List.mem_map_of_mem inside
  obtain ⟨member, positive⟩ := positives_mem listed
  exact stores j.atom member (Atom.builtin?_of_isPositive positive) j.relation
    (relationOf_ok (added.relations j inside)).1

theorem Joined.bound (added : Joined ctx guard { bindings := .empty, aliases := 0 } s joins)
    (positives : joins.map (fun j => (j.position, j.atom)) = RowSemantics.positives 0 body)
    (joinable : Joinable ctx db 0 joins) (each : RowsFor db joins rows) {w : World} {outer : Sql.Scope} :
    RowSemantics.bound .empty (RowSemantics.joinedPlaces ctx db body rows) =
      environment w (frame db joins rows :: outer) s.bindings := by
  have read := @Joinable.meaning_places _ _ w outer _ _ _ joinable each
  rw [positives] at read
  rw [added.bindings, ← bound_places, read]
  rfl

theorem lowerBody_lowered (plain : ∀ a ∈ body, a.optional = false)
    (stores : ∀ a ∈ body, a.builtin? = none → StoresAtom ctx.catalog db a)
    (ran : lowerBody ctx guard body = .ok s) : ∃ joins, Lowered ctx db guard body s joins := by
  obtain ⟨joinScope, joined, ran⟩ := Compiled.bind_ok.mp ran
  obtain ⟨⟨bindings, conditions⟩, settled, ran⟩ := Compiled.bind_ok.mp ran
  obtain ⟨equalities, agreeing, ran⟩ := Compiled.bind_ok.mp ran
  obtain ⟨⟨negations, aliases⟩, negated, ran⟩ := Compiled.bind_ok.mp ran
  cases ran
  obtain ⟨joins, positives, added, joinable⟩ := joinAtoms_joinable plain stores joined
  have first := added.bindings
  have pending := added.pending
  obtain ⟨guarded, guards, eachGuard⟩ := added.guards
  dsimp only at first pending guards
  rw [List.nil_append] at pending guards
  obtain ⟨firstWithin, leftWithin⟩ := bindPlaces_within (@allWithin_empty (visible db joins))
    joinable.places_within
  rw [← first] at firstWithin
  rw [← pending] at leftWithin
  obtain ⟨extra, grown, settle⟩ := @builtinPasses_settle ctx (visible db joins) _ _ _ _ _ _ _
    (named_keys joinScope.bindings) settled
  have within := settle.bound firstWithin
  have aliased : joinScope.aliases = joins.length := by rw [added.aliases, Nat.zero_add]
  have below : Below joinScope.aliases (visible db joins) := by
    rw [added.aliases]
    exact below_visible joinable
  obtain ⟨order, resolves, absent⟩ := negatedConditions_ok
    (fun a inside => plain a (List.mem_of_mem_filter inside))
    (fun a inside => stores a (List.mem_of_mem_filter inside)) within below negated
  refine ⟨joins, {
    positives := positives
    joinable := joinable
    sources := by simpa using added.sources
    bindings := within
    resolves := ?_
    aliases := aliased ▸ order
    matches_iff := ?_ }⟩
  · intro around
    have shown : (visible db joins).Shown (visible db joins :: around) := Visible.shown_cons
    have compared := allConditions_within within leftWithin agreeing
    rw [grown, guards]
    simp only [List.forall_mem_append]
    refine ⟨⟨⟨fun e inside => ?_, fun e inside => ?_⟩, fun e inside => ?_⟩, resolves _ shown⟩
    · exact resolves_of_within shown (joinable.guards_within eachGuard e inside)
    · exact resolves_of_within shown (settle.within firstWithin e inside)
    · exact resolves_of_within shown (compared e inside)
  · intro w outer rows env same fits each
    have read := @Joinable.meaning_places _ _ w outer _ _ _ joinable each
    have guarding := @Joinable.guards_iff _ _ w outer _ _ _ _ joinable each fits _ eachGuard
    have start := @Joined.bound _ _ _ _ _ _ _ added positives joinable each w outer
    rw [positives] at read guarding
    generalize frame db joins rows :: outer = scope at read guarding start ⊢
    have compared : RowSemantics.Agree ctx (environment w scope bindings) .eq .empty
        (RowSemantics.joinedPlaces ctx db body rows) ↔ AllTrue w scope equalities := by
      rw [allConditions_agree agreeing, pending, ← agree_places, read]
      rfl
    have keys : (environment w scope joinScope.bindings).keys = joinScope.bindings.keys :=
      NameMap.keys_map _ _
    have settles (env : Env) : RowSemantics.Settle ctx env (environment w scope joinScope.bindings)
        (RowSemantics.schedule ((RowSemantics.builtins body).length + 1) (RowSemantics.builtins body)
          joinScope.bindings.keys) ↔ AllTrue w scope extra ∧ env = environment w scope bindings := by
      have all := settle.settles w scope env []
      rw [List.append_nil] at all
      exact all
    have excluded := absent w scope same
    simp only [List.mem_filter, and_imp] at excluded
    rw [grown, guards, allTrue_append, allTrue_append, allTrue_append, guarding, ← compared, excluded]
    constructor
    · intro holds
      have final := holds.settled
      rw [start, keys, settles] at final
      obtain ⟨tested, rfl⟩ := final
      exact ⟨⟨⟨⟨holds.chosen, tested⟩, holds.joined⟩, holds.absent⟩, rfl⟩
    · rintro ⟨⟨⟨⟨chosen, tested⟩, joined⟩, absent⟩, rfl⟩
      refine ⟨chosen, joined, ?_, absent⟩
      rw [start, keys, settles]
      exact ⟨tested, rfl⟩

end Bodies

end Lowering

end PeerExchange
