import PeerExchange.Proofs.DecimalDigits
import PeerExchange.Proofs.LoweredPlaces

namespace PeerExchange

open RowSemantics (Meaning Env Holds)
open Sql (BinaryOp Database Expr Row Source Typed Value Visible World)

namespace Relation

variable {r : Relation} {kind : TableKind} {c : Column}

theorem mem_physicalColumns (listed : c ∈ r.columns) : (c.name, c.type) ∈ r.physicalColumns kind ∧
    ∀ marker, r.markerOf? c = some marker → (marker, .integer) ∈ r.physicalColumns kind := by
  refine ⟨List.mem_append_left _ (List.mem_flatMap.mpr ⟨c, listed, List.mem_cons_self⟩),
    fun marker marked => List.mem_append_left _ (List.mem_flatMap.mpr ⟨c, listed, ?_⟩)⟩
  rw [marked]
  exact List.mem_cons_of_mem _ List.mem_cons_self

theorem stratum_mem_physicalColumns (stratified : r.hasStratum kind = true) :
    (stratumColumn, .integer) ∈ r.physicalColumns kind :=
  List.mem_append_right _ (by simp [stratified])

end Relation

-- A table as the schema creates it: with the columns of its relation, and each value kept as its
-- column's type says.
@[mk_iff]
structure Relation.StoredIn (r : Relation) (kind : TableKind) (db : Database) : Prop where
  present : db.tables.contains (r.tableName kind) = true
  columns : db.columns (r.tableName kind) =
    (r.physicalColumns kind).map fun (name, type) => (name, some type)
  distinct : Sql.Distinct ((r.physicalColumns kind).map Prod.fst)
  kept : ∀ row ∈ db.rows (r.tableName kind),
    List.Forall₂ (fun (column : String × ColumnType) v => v.store column.2 = v)
      (r.physicalColumns kind) row

instance (r : Relation) (kind : TableKind) (db : Database) : Decidable (r.StoredIn kind db) :=
  decidable_of_iff' _ (r.storedIn_iff kind db)

namespace Relation.StoredIn

variable {r : Relation} {kind : TableKind} {db : Database}

theorem columnNames (stored : r.StoredIn kind db) :
    (db.columns (r.tableName kind)).map Prod.fst = (r.physicalColumns kind).map Prod.fst := by
  rw [stored.columns, List.map_map]
  rfl

theorem full (stored : r.StoredIn kind db) {row : Row} (inside : row ∈ db.rows (r.tableName kind)) :
    row.length = (db.columns (r.tableName kind)).length := by
  rw [stored.columns, List.length_map]
  exact (stored.kept row inside).length_eq.symm

theorem column_present (stored : r.StoredIn kind db) {c : Column} (inside : c ∈ r.columns) :
    c.name ∈ (db.columns (r.tableName kind)).map Prod.fst := by
  rw [stored.columnNames]
  exact List.mem_map_of_mem (mem_physicalColumns inside).1

theorem marker_present (stored : r.StoredIn kind db) {c : Column} {marker : String}
    (inside : c ∈ r.columns) (marked : r.markerOf? c = some marker) :
    marker ∈ (db.columns (r.tableName kind)).map Prod.fst := by
  rw [stored.columnNames]
  exact List.mem_map_of_mem ((mem_physicalColumns inside).2 marker marked)

theorem stratum_present (stored : r.StoredIn kind db) (stratified : r.hasStratum kind = true) :
    stratumColumn ∈ (db.columns (r.tableName kind)).map Prod.fst := by
  rw [stored.columnNames]
  exact List.mem_map_of_mem (stratum_mem_physicalColumns stratified)

end Relation.StoredIn

namespace Lowering

variable {ctx : Context} {w : World} {scope : Sql.Scope} {v : Visible}

theorem aliasName_injective {m n : Nat} (same : aliasName m = aliasName n) : m = n := by
  have digits : Nat.toDigits 10 m = Nat.toDigits 10 n := by
    have texts := congrArg String.toList same
    simpa [aliasName, Nat.toString_eq_ofList_toDigits] using texts
  rw [← @Nat.ofDigitChars_ten_toDigits m, digits, Nat.ofDigitChars_ten_toDigits]

theorem toList_fold_aliasName (n : Nat) :
    (Sql.fold (aliasName n)).toList = 'r' :: Nat.toDigits 10 n := by
  have digits : (Nat.toDigits 10 n).map Char.toLower = Nat.toDigits 10 n := by
    rw [List.map_congr_left fun c inside => toLower_of_isDigit (isDigit_toDigits n c inside), List.map_id']
  simp [aliasName, digits]

theorem fold_aliasName_injective {m n : Nat}
    (same : Sql.fold (aliasName m) = Sql.fold (aliasName n)) : m = n := by
  have texts := congrArg String.toList same
  rw [toList_fold_aliasName, toList_fold_aliasName] at texts
  have digits := List.tail_eq_of_cons_eq texts
  rw [← @Nat.ofDigitChars_ten_toDigits m, digits, Nat.ofDigitChars_ten_toDigits]

theorem relationOf_ok {a : Atom} {r : Relation} (found : relationOf ctx a = .ok r) :
    ctx.catalog.relations.get? a.relationName = some r ∧ a.args.length = r.arity := by
  obtain ⟨one, known, checked⟩ := Compiled.bind_ok.mp found
  split at checked
  · cases checked
    rename_i fits
    unfold Catalog.relation at known
    split at known
    · rename_i listed
      cases known
      exact ⟨listed, fits⟩
    · cases known
  · cases checked

section Stamps

variable {n : Int} {e : Expr}

theorem calculated_of_fits (fits : fitsWord n = true) : BinaryOp.calculated n = .integer n := by
  simp [BinaryOp.calculated, fits]

theorem word_ok (lowered : Iteration.word n = .ok e) : e = .integer n ∧ fitsWord n = true := by
  unfold Iteration.word at lowered
  split at lowered
  · rename_i fits
    cases lowered
    exact ⟨rfl, by simpa [fitsWord] using fits⟩
  · cases lowered

theorem eval_integer (fits : fitsWord n = true) :
    (Expr.integer n).eval w scope = ⟨.integer n, none⟩ := by
  simp [Expr.eval, Value.ofInteger, fits]

theorem eval_iteration (fits : fitsWord w.parameter = true) {i : Iteration}
    (lowered : i.expr n = .ok e) :
    e.eval w scope = ⟨BinaryOp.calculated (i.number w.parameter + n), none⟩ ∧ e.Within v := by
  unfold Iteration.expr at lowered
  split at lowered
  · obtain ⟨rfl, sum⟩ := word_ok lowered
    refine ⟨?_, trivial⟩
    simp only [eval_integer sum, Iteration.number, calculated_of_fits sum]
  · split at lowered
    · rename_i zero
      cases lowered
      refine ⟨?_, trivial⟩
      simp only [zero, Int.add_zero, Iteration.number, calculated_of_fits fits, Expr.eval]
    · split at lowered
      · obtain ⟨offset, here, lowered⟩ := Compiled.bind_ok.mp lowered
        obtain ⟨rfl, small⟩ := word_ok here
        cases lowered
        refine ⟨?_, trivial, trivial⟩
        rw [Expr.eval, eval_integer small, Expr.eval]
        rfl
      · obtain ⟨offset, here, lowered⟩ := Compiled.bind_ok.mp lowered
        obtain ⟨rfl, small⟩ := word_ok here
        cases lowered
        refine ⟨?_, trivial, trivial⟩
        rw [Expr.eval, eval_integer small, Expr.eval]
        have sum : w.parameter - -n = w.parameter + n := by omega
        simp only [BinaryOp.apply, Value.toInteger?, sum, Iteration.number]

end Stamps

section Guards

variable {guard : Option Guard} {position : Nat} {r : Relation} {kind : TableKind}
  {qualifier : String} {es : List Expr}

theorem guardConditions_hold (fits : fitsWord w.parameter = true)
    (lowered : guardConditions ctx guard position r kind qualifier = .ok es) :
    AllTrue w scope es ↔ ∀ g, guard = some g → g.position = position →
      Holds .eq ((Expr.column qualifier Relation.stratumColumn).eval w scope)
        ⟨BinaryOp.calculated (ctx.iteration.number w.parameter + g.offset), none⟩ := by
  unfold guardConditions at lowered
  split at lowered
  · rename_i g
    split at lowered
    · rename_i here
      split at lowered
      · obtain ⟨stamp, found, built⟩ := Compiled.bind_ok.mp lowered
        cases built
        have meant := (@eval_iteration w scope [] _ _ fits _ found).1
        have compares : IsComparison .eq := ⟨by decide, by decide⟩
        simp only [AllTrue, List.mem_singleton, forall_eq, holds_condition compares, meant,
          Option.some.injEq, forall_eq', here, forall_const]
      · cases lowered
    · rename_i elsewhere
      cases lowered
      simp [AllTrue, elsewhere]
  · cases lowered
    simp [AllTrue]

theorem guardConditions_within
    (seen : r.hasStratum kind = true → v.lists qualifier Relation.stratumColumn = true)
    (lowered : guardConditions ctx guard position r kind qualifier = .ok es) :
    ∀ e ∈ es, e.Within v := by
  unfold guardConditions at lowered
  split at lowered
  · split at lowered
    · split at lowered
      · rename_i stratified
        obtain ⟨stamp, found, built⟩ := Compiled.bind_ok.mp lowered
        cases built
        intro e inside
        rw [List.mem_singleton.mp inside]
        exact ⟨seen stratified, (@eval_iteration ⟨.empty, 0⟩ [] v _ _ rfl _ found).2⟩
      · cases lowered
    · cases lowered
      exact List.forall_mem_nil _
  · cases lowered
    exact List.forall_mem_nil _

theorem guardConditions_stratified {g : Guard} (asked : guard = some g)
    (here : g.position = position)
    (lowered : guardConditions ctx guard position r kind qualifier = .ok es) :
    r.hasStratum kind = true := by
  unfold guardConditions at lowered
  rw [asked] at lowered
  dsimp only at lowered
  rw [if_pos here] at lowered
  split at lowered
  · assumption
  · cases lowered

end Guards

-- An item of a FROM clause with the atom that it stands for.
structure Join where
  position : Nat
  atom : Atom
  relation : Relation
  number : Nat

namespace Join

def qualifier (j : Join) : String := aliasName j.number

def table (j : Join) : String := j.relation.tableName j.atom.kind

def source (j : Join) : Source := .joined j.table j.qualifier

def places (j : Join) : List Place := placesOf j.relation j.qualifier j.atom.args

end Join

section Joins

variable {guard : Option Guard} {s s' : Scope} {position : Nat} {a : Atom} {body : List Atom}

structure Joined (ctx : Context) (guard : Option Guard) (s s' : Scope) (joins : List Join) : Prop where
  numbers : joins.map Join.number = List.range' s.aliases joins.length
  relations : ∀ j ∈ joins, relationOf ctx j.atom = .ok j.relation
  guards : ∃ guarded : List (List Expr), s'.conditions = s.conditions ++ guarded.flatten ∧
    List.Forall₂ (fun (j : Join) es =>
      guardConditions ctx guard j.position j.relation j.atom.kind j.qualifier = .ok es) joins guarded
  bindings : s'.bindings = (bindPlaces s.bindings (joins.flatMap Join.places)).1
  pending : s'.pending = s.pending ++ (bindPlaces s.bindings (joins.flatMap Join.places)).2
  sources : s'.sources = s.sources ++ joins.map Join.source
  aliases : s'.aliases = s.aliases + joins.length
  inner : s'.outerJoined = s.outerJoined

theorem joined_nil : Joined ctx guard s s [] where
  numbers := rfl
  relations := List.forall_mem_nil _
  guards := ⟨[], by simp, .nil⟩
  bindings := rfl
  pending := by simp [bindPlaces]
  sources := by simp
  aliases := rfl
  inner := rfl

theorem joinAtom_joined (plain : a.optional = false) (inner : s.outerJoined = false)
    (ran : joinAtom ctx guard s position a = .ok s') :
    ∃ r, Joined ctx guard s s' [⟨position, a, r, s.aliases⟩] := by
  unfold joinAtom at ran
  rw [inner, Bool.false_and, if_neg Bool.false_ne_true] at ran
  obtain ⟨r, found, ran⟩ := Compiled.bind_ok.mp ran
  obtain ⟨guarded, lowered, ran⟩ := Compiled.bind_ok.mp ran
  dsimp only at ran
  rw [plain, if_neg Bool.false_ne_true] at ran
  cases ran
  exact ⟨r, {
    numbers := rfl
    relations := List.forall_mem_singleton.mpr found
    guards := ⟨[guarded], by simp, .cons lowered .nil⟩
    bindings := by simp [Join.places, Join.qualifier]
    pending := by simp [Join.places, Join.qualifier]
    sources := rfl
    aliases := rfl
    inner := inner.symm }⟩

theorem Joined.trans {middle : Scope} {joins more : List Join}
    (first : Joined ctx guard s middle joins) (second : Joined ctx guard middle s' more) :
    Joined ctx guard s s' (joins ++ more) where
  numbers := by
    rw [List.map_append, first.numbers, second.numbers, first.aliases, List.length_append,
      List.range'_append_1]
  relations := List.forall_mem_append.mpr ⟨first.relations, second.relations⟩
  guards := by
    obtain ⟨guarded, grown, each⟩ := first.guards
    obtain ⟨others, grown', each'⟩ := second.guards
    refine ⟨guarded ++ others, ?_, List.rel_append each each'⟩
    rw [grown', grown, List.append_assoc, List.flatten_append]
  bindings := by rw [second.bindings, first.bindings, List.flatMap_append, bindPlaces_append]
  pending := by
    rw [second.pending, first.pending, first.bindings, List.flatMap_append, bindPlaces_append,
      List.append_assoc]
  sources := by rw [second.sources, first.sources, List.map_append, List.append_assoc]
  aliases := by rw [second.aliases, first.aliases, List.length_append, Nat.add_assoc]
  inner := second.inner.trans first.inner

theorem joinAtoms_joined (plain : ∀ a ∈ body, a.optional = false) (inner : s.outerJoined = false)
    (ran : joinAtoms ctx guard s position body = .ok s') :
    ∃ joins, joins.map (fun j => (j.position, j.atom)) = RowSemantics.positives position body ∧
      Joined ctx guard s s' joins := by
  induction body generalizing s position with
  | nil =>
    cases ran
    exact ⟨[], rfl, joined_nil⟩
  | cons a rest ih =>
    obtain ⟨own, others⟩ := List.forall_mem_cons.mp plain
    unfold joinAtoms at ran
    unfold RowSemantics.positives
    split at ran
    · rename_i positive
      obtain ⟨middle, here, ran⟩ := Compiled.bind_ok.mp ran
      obtain ⟨r, first⟩ := joinAtom_joined own inner here
      obtain ⟨joins, listed, later⟩ := ih others (first.inner.trans inner) ran
      rw [if_pos positive]
      exact ⟨_ :: joins, by rw [List.map_cons, listed], first.trans later⟩
    · rename_i other
      rw [if_neg other]
      exact ih others inner ran

end Joins

end Lowering

end PeerExchange
