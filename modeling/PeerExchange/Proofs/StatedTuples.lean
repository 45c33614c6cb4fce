import PeerExchange.Engine
import PeerExchange.Proofs.ProvenanceStages
import PeerExchange.Proofs.Scopes
import PeerExchange.Proofs.StoredTuples

namespace PeerExchange

open Compiled (bind_ok)
open Sql (Expr World)

namespace Literal

-- The term that states a literal at a column.
def stated (column : Column) : Literal → Term
  | null => .typedNull column.type
  | literal => .lit literal

theorem stated_constant (column : Column) (literal : Literal) :
    ∃ own, literal.stated column = .constant own literal := by
  cases literal <;> exact ⟨_, rfl⟩

def expr (column : Column) : Literal → Expr
  | string s | labeledNull s => .text s
  | integer n => .integer n
  | null => .typedNull column.type

theorem tooLarge_eq_none {literal : Literal} :
    literal.tooLarge? = none ↔ ∃ v, literal.toValue = .ok v := by
  cases literal with
  | integer n =>
    by_cases fits : fitsWord n = true
    · exact iff_of_true (if_pos fits) ⟨_, if_pos fits⟩
    · refine iff_of_false (fun none => ?_) fun ⟨v, stored⟩ => ?_
      · cases none.symm.trans (if_neg fits)
      · cases stored.symm.trans (if_neg fits)
  | string | null | labeledNull => exact iff_of_true rfl ⟨_, rfl⟩

end Literal

namespace Relation

variable {r : Relation} {tuple : List Literal}

def Types (r : Relation) (tuple : List Literal) : Prop :=
  ∀ literal c, (literal, c) ∈ tuple.zip r.columns → ∀ type, literal.type? = some type → type = c.type

def statedArgs (r : Relation) (tuple : List Literal) : List Term :=
  (tuple.zip r.columns).map fun place => place.1.stated place.2

-- The rule that states a tuple.
def statement (r : Relation) (id : String) (kind : TableKind) (tuple : List Literal) : Rule :=
  Rule.ofHead id ((Atom.ofRelation r.name (r.statedArgs tuple)).withKind kind) []

def statedPlace (r : Relation) (place : Literal × Column) : List Expr :=
  place.1.expr place.2 :: if (r.markerOf? place.2).isSome then [.integer place.1.marker] else []

def statedExprs (r : Relation) (kind : TableKind) (tuple : List Literal) : List Expr :=
  (tuple.zip r.columns).flatMap r.statedPlace ++ if r.hasStratum kind then [.integer 0] else []

theorem zip_stated (tuple : List Literal) (columns : List Column) :
    ((tuple.zip columns).map fun place => place.1.stated place.2).zip columns =
      (tuple.zip columns).map fun place => (place.1.stated place.2, place.2) := by
  induction tuple generalizing columns with
  | nil => rfl
  | cons literal rest ih =>
    cases columns with
    | nil => rfl
    | cons column columns => exact congrArg (_ :: ·) (ih columns)

theorem length_statedArgs (arity : tuple.length = r.arity) :
    (r.statedArgs tuple).length = r.arity := by
  rw [statedArgs, List.length_map, List.length_zip, arity, Relation.arity, Nat.min_self]

theorem forall_statedArgs {P : Literal → Prop} (arity : tuple.length = r.arity) :
    (∀ own value, Term.constant own value ∈ r.statedArgs tuple → P value) ↔
      ∀ literal ∈ tuple, P literal := by
  have literals : (tuple.zip r.columns).map Prod.fst = tuple := List.map_fst_zip (Nat.le_of_eq arity)
  constructor
  · intro all literal inside
    rw [← literals] at inside
    obtain ⟨place, placed, rfl⟩ := List.mem_map.mp inside
    obtain ⟨own, same⟩ := place.1.stated_constant place.2
    exact all own _ (List.mem_map.mpr ⟨place, placed, same⟩)
  · intro all own value inside
    obtain ⟨place, placed, stated⟩ := List.mem_map.mp inside
    obtain ⟨own', same⟩ := place.1.stated_constant place.2
    cases same.symm.trans stated
    exact all _ (literals ▸ List.mem_map.mpr ⟨place, placed, rfl⟩)

end Relation

namespace Catalog

variable {c : Catalog} {r : Relation} {tuple : List Literal} {id relation : String}
  {uses uses' : List Use} {kind : TableKind}

theorem checkIntegers_ok {args : List Term} : checkIntegers args = .ok () ↔
    ∀ own value, Term.constant own value ∈ args → value.tooLarge? = none := by
  constructor
  · intro checked own value inside
    have here := Compiled.forM_ok checked _ inside
    dsimp only at here
    split at here
    · cases here
    · assumption
  · intro small
    refine Compiled.forM_runs fun t inside => ?_
    cases t with
    | constant own value => simp only [small own value inside]
    | «variable» v => rfl
    | skolem function args => rfl

theorem checkArg_stated {literal : Literal} {column : Column} :
    checkArg id relation uses (literal.stated column) column = .ok uses' ↔
      uses = uses' ∧ ∀ type, literal.type? = some type → type = column.type := by
  obtain ⟨own, same⟩ := literal.stated_constant column
  rw [same, checkArg]
  cases literal.type? with
  | none =>
    refine ⟨fun ran => ⟨Except.ok.inj ran, ?_⟩, fun both => congrArg _ both.1⟩
    rintro type ⟨⟩
  | some type =>
    dsimp only
    split
    · rename_i typed
      refine ⟨fun ran => ⟨Except.ok.inj ran, fun type same => ?_⟩, fun both => congrArg _ both.1⟩
      cases same
      exact typed
    · rename_i differs
      refine ⟨fun ran => ?_, fun both => absurd (both.2 type rfl) differs⟩
      cases ran

theorem checkArgs_stated {places : List (Literal × Column)} :
    (places.map fun place => (place.1.stated place.2, place.2)).foldlM
        (fun uses (arg, column) => checkArg id relation uses arg column) uses = .ok uses' ↔
      uses = uses' ∧ ∀ literal c, (literal, c) ∈ places →
        ∀ type, literal.type? = some type → type = c.type := by
  induction places generalizing uses with
  | nil => exact ⟨fun ran => ⟨Except.ok.inj ran, nofun⟩, fun ⟨same, _⟩ => congrArg _ same⟩
  | cons place rest ih =>
    rw [List.map_cons, List.foldlM_cons]
    refine bind_ok.trans ?_
    simp only [checkArg_stated, ih, List.mem_cons]
    constructor
    · rintro ⟨_, ⟨rfl, here⟩, rfl, later⟩
      refine ⟨rfl, fun literal c inside => ?_⟩
      rcases inside with rfl | inside
      · exact here
      · exact later literal c inside
    · rintro ⟨rfl, all⟩
      exact ⟨uses, ⟨rfl, all _ _ (.inl rfl)⟩, rfl, fun literal c inside => all literal c (.inr inside)⟩

theorem validateRule_statement (found : c.relations.get? r.name = some r)
    (arity : tuple.length = r.arity) : c.validateRule (r.statement id kind tuple) = .ok () ↔
      (∃ row, r.toRow tuple = .ok row) ∧ r.Types tuple := by
  have integers : checkIntegers (r.statedArgs tuple) = .ok () ↔ ∃ row, r.toRow tuple = .ok row := by
    rw [checkIntegers_ok, Relation.toRow_ok_iff]
    simp only [Literal.tooLarge_eq_none]
    exact Relation.forall_statedArgs arity
  have atom : (∃ uses, c.checkAtom id [] ((Atom.ofRelation r.name (r.statedArgs tuple)).withKind kind) =
      .ok uses) ↔ checkIntegers (r.statedArgs tuple) = .ok () ∧ r.Types tuple := by
    have length : ((Atom.ofRelation r.name (r.statedArgs tuple)).withKind kind).args.length = r.arity :=
      r.length_statedArgs arity
    have known := Catalog.relation_ok.mpr found
    have places (uses : List Use) : ((r.statedArgs tuple).zip r.columns).foldlM
        (fun uses (arg, column) => checkArg id r.name uses arg column) [] = .ok uses ↔
          [] = uses ∧ r.Types tuple := by
      rw [Relation.statedArgs, Relation.zip_stated]
      exact checkArgs_stated
    constructor
    · rintro ⟨uses, ran⟩
      obtain ⟨⟨⟩, small, ran⟩ := bind_ok.mp ran
      obtain ⟨_, looked, ran⟩ := bind_ok.mp ran
      cases known.symm.trans looked
      rw [if_pos length] at ran
      exact ⟨small, ((places uses).mp ran).2⟩
    · rintro ⟨small, typed⟩
      refine ⟨[], bind_ok.mpr ⟨(), small, bind_ok.mpr ⟨r, known, ?_⟩⟩⟩
      rw [if_pos length]
      exact (places []).mpr ⟨rfl, typed⟩
  rw [← integers, ← atom]
  change (discard ([(Atom.ofRelation r.name (r.statedArgs tuple)).withKind kind].foldlM
    (c.checkAtom id) []) : Compiled Unit) = .ok () ↔ _
  simp only [List.foldlM_cons, List.foldlM_nil, bind_pure]
  cases c.checkAtom id [] ((Atom.ofRelation r.name (r.statedArgs tuple)).withKind kind) with
  | ok uses => exact iff_of_true rfl ⟨uses, rfl⟩
  | error cause => exact iff_of_false nofun nofun

end Catalog

namespace Engine

variable {c : Compilation} {r : Relation} {id : String} {kind : TableKind} {tuple : List Literal}
  {rule : Rule}

theorem statedArgs_of {f : Literal × Column → Term}
    (same : ∀ literal column, f (literal, column) = literal.stated column) :
    (tuple.zip r.columns).map f = r.statedArgs tuple :=
  List.map_congr_left fun place _ => same place.1 place.2

theorem importedRow_ok {row : Sql.Row} :
    importedRow r tuple = .ok row ↔ tuple.length = r.arity ∧ r.toRow tuple = .ok row := by
  unfold importedRow
  split
  · rename_i arity
    exact (and_iff_right arity).symm
  · rename_i differs
    exact iff_of_false nofun fun both => differs both.1

theorem fact_ok (found : c.catalog.relations.get? r.name = some r) :
    fact c r id kind tuple = .ok rule ↔
      (∃ row, importedRow r tuple = .ok row) ∧ r.Types tuple ∧ rule = r.statement id kind tuple := by
  unfold fact
  dsimp only
  rw [statedArgs_of fun literal column => by cases literal <;> rfl, ← Relation.statement, importedRow]
  by_cases arity : tuple.length = r.arity
  · rw [if_pos arity, if_pos arity]
    have checked : c.catalog.validateRule (r.statement id kind tuple) = .ok () ↔
        (∃ row, r.toRow tuple = .ok row) ∧ r.Types tuple := Catalog.validateRule_statement found arity
    rw [← and_assoc, ← checked]
    cases c.catalog.validateRule (r.statement id kind tuple) with
    | ok => exact ⟨fun made => ⟨rfl, (Except.ok.inj made).symm⟩, fun both => congrArg _ both.2.symm⟩
    | error cause =>
      refine iff_of_false ?_ ?_
      · rintro ⟨⟩
      · rintro ⟨⟨⟩, -⟩
  · rw [if_neg arity, if_neg arity]
    refine iff_of_false ?_ ?_
    · rintro ⟨⟩
    · rintro ⟨⟨_, ⟨⟩⟩, -⟩

end Engine

namespace Lowering

variable {ctx : Context} {r : Relation} {tuple : List Literal} {row : Sql.Row} {id : String}
  {kind : TableKind}

theorem projectPlace_stated {rule : Rule} {column : Column} {literal : Literal} {inKey : Bool}
    {own : Option ColumnType} (unblanked : (rule.blankAll || rule.blankNonKey) = false)
    (same : literal.stated column = .constant own literal) :
    projectPlace rule inKey (r.markerOf? column).isSome column (.ofConstant own literal) =
      r.statedPlace (literal, column) := by
  rw [projectPlace, unblanked, Bool.false_and, if_neg Bool.false_ne_true]
  cases literal <;> cases same <;> rfl

theorem projectColumns_stated {places : List (Literal × Column)} {i : Nat} {bindings : Bindings}
    (unblanked : (ctx.rule.blankAll || ctx.rule.blankNonKey) = false) :
    projectColumns ctx r bindings i (places.map fun place => (place.1.stated place.2, place.2)) =
      .ok (places.flatMap r.statedPlace) := by
  induction places generalizing i with
  | nil => rfl
  | cons place rest ih =>
    obtain ⟨literal, column⟩ := place
    obtain ⟨own, same⟩ := literal.stated_constant column
    rw [List.map_cons, projectColumns, ih, same, List.flatMap_cons, ← projectPlace_stated unblanked same]
    rfl

theorem lower_statement {catalog : Catalog} {config : Config} {iteration : Iteration}
    (found : catalog.relations.get? r.name = some r) (arity : tuple.length = r.arity) :
    (r.statement id kind tuple).lower catalog config iteration =
      .ok [.insert (r.tableName kind) (columnNames r kind) (.values (r.statedExprs kind tuple))] := by
  let head := (Atom.ofRelation r.name (r.statedArgs tuple)).withKind kind
  let ctx : Context := ⟨catalog, config, r.statement id kind tuple, iteration⟩
  have related : relationOf ctx head = .ok r := by
    refine bind_ok.mpr ⟨r, Catalog.relation_ok.mpr found, if_pos ?_⟩
    exact r.length_statedArgs arity
  have projected : project ctx r head .empty = .ok (r.statedExprs kind tuple) := by
    have columns : projectColumns ctx r .empty 0 (head.args.zip r.columns) =
        .ok ((tuple.zip r.columns).flatMap r.statedPlace) := by
      change projectColumns ctx r .empty 0 ((r.statedArgs tuple).zip r.columns) = _
      rw [Relation.statedArgs, Relation.zip_stated]
      exact projectColumns_stated rfl
    rw [project, columns, Relation.statedExprs]
    change (if r.hasStratum kind then _ else _) = _
    cases r.hasStratum kind with
    | true => rfl
    | false => exact congrArg Except.ok (List.append_nil _).symm
  have inserted : lowerInsert ctx head r config.setSemantics =
      .ok (.insert (r.tableName kind) (columnNames r kind) (.values (r.statedExprs kind tuple))) := by
    have isFact : ctx.rule.isFact = true := rfl
    rw [lowerInsert, if_pos isFact]
    exact bind_ok.mpr ⟨_, projected, rfl⟩
  have lowered : lowerRule ctx =
      .ok [.insert (r.tableName kind) (columnNames r kind) (.values (r.statedExprs kind tuple))] :=
    bind_ok.mpr ⟨r, related, bind_ok.mpr ⟨_, inserted, rfl⟩⟩
  rw [Rule.lower, lowered]

-- Expressions that stand for a row wherever they are evaluated, and read nothing.
structure Spells (es : List Expr) (row : Sql.Row) : Prop where
  values : ∀ w, Expr.evalAll w [] es = row
  closed : Expr.AllWithin [] es

theorem eval_expr {w : World} {literal : Literal} {column : Column} {v : Sql.Value}
    (stored : literal.toValue = .ok v) : ((literal.expr column).eval w []).value = v := by
  cases literal with
  | integer n =>
    rw [Literal.toValue] at stored
    split at stored
    · rename_i fits
      cases stored
      exact if_pos fits
    · cases stored
  | string | null | labeledNull =>
    cases stored
    rfl

theorem evalAll_stated {w : World} {columns : List Column} (arity : tuple.length = columns.length)
    (stored : Relation.rowOf (columns.map fun c => (c, r.markerOf? c)) tuple = .ok row) :
    Expr.evalAll w [] ((tuple.zip columns).flatMap r.statedPlace) = row := by
  rw [Expr.evalAll_eq_map]
  induction tuple generalizing columns row with
  | nil =>
    cases stored
    rfl
  | cons literal rest ih =>
    obtain ⟨column, columns, rfl⟩ := List.exists_cons_of_length_eq_add_one arity.symm
    obtain ⟨v, first, stored⟩ := bind_ok.mp stored
    obtain ⟨values, later, stored⟩ := bind_ok.mp stored
    cases stored
    rw [List.zip_cons_cons, List.flatMap_cons, List.map_append, ih (Nat.succ.inj arity) later,
      Relation.statedPlace, List.map_cons, eval_expr first]
    change v :: _ ++ values = v :: (if (r.markerOf? column).isSome then _ else _) ++ values
    cases (r.markerOf? column).isSome with
    | true => cases literal <;> rfl
    | false => rfl

theorem within_statedPlace {place : Literal × Column} : ∀ e ∈ r.statedPlace place, e.Within [] := by
  refine List.forall_mem_cons.mpr ⟨?_, ?_⟩
  · cases place.1 <;> trivial
  · split
    · exact List.forall_mem_singleton.mpr trivial
    · exact List.forall_mem_nil _

theorem spells_stated (flat : r.stratified = false) (arity : tuple.length = r.arity)
    (stored : r.toRow tuple = .ok row) : Spells (r.statedExprs kind tuple) row := by
  have unstamped : r.hasStratum kind = false := by rw [Relation.hasStratum, flat, Bool.false_and]
  rw [Relation.statedExprs, unstamped, if_neg Bool.false_ne_true, List.append_nil]
  exact ⟨fun w => evalAll_stated arity stored,
    Expr.allWithin_iff.mpr (List.forall_mem_flatMap.mpr fun place _ => within_statedPlace)⟩

end Lowering

namespace Relation

-- The statement that adds a row to the pending insertions.
def insertion (r : Relation) (es : List Expr) : Sql.Statement :=
  .insert (r.tableName .insertion) (Lowering.columnNames r .insertion) (.values es)

end Relation

theorem Lowering.Spells.execute {es : List Expr} {row : Sql.Row} {r : Relation} {kind : TableKind}
    (spells : Lowering.Spells es row) (db : Sql.Database) :
    db.execute 0 (.insert (r.tableName kind) (Lowering.columnNames r kind) (.values es)) =
      db.load (r.tableName kind) (Lowering.columnNames r kind) [row] := by
  have none : Expr.allTables es = [] := Expr.allTables_within es spells.closed
  have resolved : Expr.allUnresolved db [] es = [] :=
    Expr.allUnresolved_within (v := []) (fun _ _ shown => by cases shown) es spells.closed
  have checked : (Sql.InsertSource.values es).check db = .ok () := by
    rw [Sql.InsertSource.check, none, resolved]
    rfl
  rw [Sql.Database.execute, Sql.Database.insert, Sql.Database.load, checked, Sql.InsertSource.rows,
    spells.values]
  rfl

end PeerExchange
