import PeerExchange.Proofs.PendingRows
import PeerExchange.Proofs.TypedRules
import PeerExchange.Proofs.WrittenRows

namespace PeerExchange

open RowSemantics (Env Match Meaning Step denote denoteWith)
open Sql (Database Row Table Value)

namespace Sql

def Value.IsUnknown (labels : String → Prop) (width : Nat) (v : Value) : Prop :=
  (∃ label, labels label ∧ v = .text label) ∨
    ∃ function values, v = RowSemantics.inventedText width function values

-- What may stand in a column of a type. The column may store an unknown value in a form of its own.
inductive Value.Conforms (labels : String → Prop) (width : Nat) : ColumnType → Value → Prop where
  | null {type : ColumnType} : Conforms labels width type .null
  | integer (n : Int) : Conforms labels width .integer (.integer n)
  | text (s : String) : Conforms labels width .text (.text s)
  | unknown {type : ColumnType} {v : Value} (unknown : v.IsUnknown labels width) :
    Conforms labels width type v
  | stored {type : ColumnType} {v : Value} (unknown : v.IsUnknown labels width) :
    Conforms labels width type (v.store type)

variable {labels : String → Prop} {width : Nat}

theorem Value.Conforms.store {type : ColumnType} {v : Value} (conforms : v.Conforms labels width type) :
    (v.store type).Conforms labels width type := by
  cases conforms with
  | null => cases type <;> exact .null
  | integer n => exact .integer n
  | text s => exact .text s
  | unknown unknown => exact .stored unknown
  | stored unknown => exact (Value.store_store _ _).symm ▸ .stored unknown

section Texts

variable {function s : String} {values : List Value} {v : Value}

theorem Value.getLast_invented (invented : .text s = RowSemantics.inventedText width function values) :
    s.toList.getLast? = some ')' := by
  rw [RowSemantics.inventedText, concatenate, List.mapM_append] at invented
  split at invented
  · rename_i texts each
    obtain ⟨first, -, each⟩ := Option.bind_eq_some_iff.mp each
    obtain ⟨last, closes, each⟩ := Option.bind_eq_some_iff.mp each
    cases closes
    cases each
    cases invented
    simp
  · cases invented

theorem Value.text_of_store (same : v.store .integer = .text s) : v = .text s := by
  cases v with
  | null => cases same
  | integer n => cases same
  | real x => cases whole : x.integer? <;> simp [store, ofFloating, whole] at same
  | text t =>
    rw [store] at same
    cases parsed : ofNumericText? t with
    | none => rwa [parsed] at same
    | some number =>
      obtain ⟨n, -, rfl⟩ := Option.map_eq_some_iff.mp parsed
      have ranks := congrArg rank same
      rw [parsed, Option.getD_some, rank_ofNumeral] at ranks
      cases ranks

theorem Value.not_conforms_text (other : s.toList.getLast? ≠ some ')') :
    ¬ (Value.text s).Conforms (fun _ => False) width .integer := by
  have known : ¬ (Value.text s).IsUnknown (fun _ => False) width := by
    rintro (⟨_, ⟨⟩, -⟩ | ⟨function, values, same⟩)
    exact other (getLast_invented same)
  intro conforms
  generalize same : Value.text s = v at conforms
  cases conforms with
  | null => cases same
  | integer n => cases same
  | unknown unknown => exact known (same ▸ unknown)
  | stored unknown => exact known (text_of_store same.symm ▸ unknown)

end Texts

-- Values that may stand in the columns of a table.
def Row.Conforms (labels : String → Prop) (width : Nat) (columns : List (String × Option ColumnType))
    (row : Row) : Prop :=
  List.Forall₂ (fun (column : String × Option ColumnType) v =>
    ∀ type, column.2 = some type → v.Conforms labels width type) columns row

def Database.Conforms (labels : String → Prop) (width : Nat) (db : Database) : Prop :=
  ∀ table, ∀ row ∈ db.rows table, row.Conforms labels width (db.columns table)

namespace Function

theorem selected (choose : Value → Value → Value) (chooses : ∀ best v, choose best v = best ∨ choose best v = v)
    (first : Value) (rest : List Value) : rest.foldl choose first ∈ first :: rest := by
  induction rest generalizing first with
  | nil => exact List.mem_singleton_self first
  | cons v rest ih =>
    rcases List.mem_cons.mp (ih (choose first v)) with same | later
    · rw [List.foldl_cons, same]
      rcases chooses first v with best | best <;> simp [best]
    · exact List.mem_cons_of_mem _ (List.mem_cons_of_mem _ later)

theorem least_mem (values : List Value) : least values = .null ∨ least values ∈ values := by
  unfold least
  split
  · exact .inl rfl
  · split
    · exact .inl rfl
    · exact .inr (selected _ (fun best v => by split <;> simp) _ _)

theorem greatest_mem (values : List Value) : greatest values = .null ∨ greatest values ∈ values := by
  unfold greatest
  split
  · exact .inl rfl
  · split
    · exact .inl rfl
    · exact .inr (selected _ (fun best v => by split <;> simp) _ _)

end Function

end Sql

def Literal.IsStated (labels : String → Prop) : Literal → Prop
  | .integer n => fitsWord n = true
  | .labeledNull label => labels label
  | .string _ | .null => True

-- A value and its marker conform to the type of a column and of its companion.
structure RowSemantics.Meaning.Conforms (labels : String → Prop) (width : Nat) (type : ColumnType)
    (m : Meaning) : Prop where
  value : m.value.value.Conforms labels width type
  mark : m.mark.value.Conforms labels width .integer

-- Each variable stands for a value of its type.
def RowSemantics.Env.Conforms (labels : String → Prop) (width : Nat) (types : Typing) (env : Env) :
    Prop :=
  ∀ x m, env.get? x = some m → m.Conforms labels width (types x)

namespace RowSemantics

variable {labels : String → Prop} {width : Nat} {types : Typing} {type : ColumnType} {env final : Env}
  {m : Meaning} {t : Term} {ctx : Lowering.Context} {a : Atom} {s : Step} {x : String}
  {names : List String} {catalog : Catalog}

section Meanings

theorem Meaning.Conforms.of_invented (function : String) (values : List Value) :
    (Meaning.invented (inventedText width function values)).Conforms labels width type :=
  ⟨.unknown (.inr ⟨function, values, rfl⟩), .integer 2⟩

theorem Meaning.Conforms.of_unmarked {value : Sql.Typed} (conforms : value.value.Conforms labels width type) :
    Meaning.Conforms labels width type ⟨value, none⟩ :=
  ⟨conforms, .integer _⟩

theorem Meaning.Conforms.of_literal {own : Option ColumnType} {value : Literal}
    (typed : ∀ type', value.type? = some type' → type' = type) (stated : value.IsStated labels) :
    (Meaning.ofLiteral own value).Conforms labels width type := by
  refine ⟨?_, .integer value.marker⟩
  cases value with
  | string s => exact typed _ rfl ▸ .text s
  | integer n =>
    have fits : Value.ofInteger n = .integer n := if_pos stated
    rw [← typed _ rfl]
    exact (fits ▸ .integer n : (Value.ofInteger n).Conforms labels width .integer)
  | null => exact .null
  | labeledNull label => exact .unknown (.inl ⟨label, stated, rfl⟩)

end Meanings

section Terms

theorem conforms_inventedMeaning {depth : Nat} {v : Variable}
    (meant : inventedMeaning ctx env depth v = some m) : m.Conforms labels ctx.config.skolemWidth type := by
  cases depth with
  | zero => cases meant
  | succ depth =>
    obtain ⟨term, found, meant⟩ := Option.bind_eq_some_iff.mp meant
    obtain ⟨position, -, found⟩ := Option.bind_eq_some_iff.mp found
    obtain ⟨invention, -, rfl⟩ := Option.map_eq_some_iff.mp found
    obtain ⟨values, -, rfl⟩ := Option.map_eq_some_iff.mp meant
    exact .of_invented _ values

variable (conforms : env.Conforms labels ctx.config.skolemWidth types)

include conforms

theorem Env.Conforms.denote (typed : t.HasType (Literal.IsStated labels) types type)
    (meant : denote ctx env t = some m) : m.Conforms labels ctx.config.skolemWidth type := by
  cases t with
  | «variable» v =>
    have typed : types v.name = type := typed
    rw [RowSemantics.denote, denoteWith] at meant
    split at meant
    · rename_i found
      cases meant
      exact typed ▸ conforms v.name _ found
    · exact conforms_inventedMeaning meant
  | constant own value =>
    cases meant
    exact .of_literal typed.1 typed.2
  | skolem function args =>
    obtain ⟨values, -, rfl⟩ := Option.map_eq_some_iff.mp meant
    exact .of_invented function values

theorem Env.Conforms.denoteAll {args : List Term} {ms : List Meaning}
    (typed : ∀ t ∈ args, t.HasType (Literal.IsStated labels) types type)
    (meant : args.mapM (RowSemantics.denote ctx env) = some ms) :
    ∀ m ∈ ms, m.Conforms labels ctx.config.skolemWidth type := by
  induction args generalizing ms with
  | nil =>
    cases meant
    exact List.forall_mem_nil _
  | cons t rest ih =>
    obtain ⟨here, later⟩ := List.forall_mem_cons.mp typed
    rw [List.mapM_cons] at meant
    obtain ⟨m, first, meant⟩ := Option.bind_eq_some_iff.mp meant
    obtain ⟨others, second, meant⟩ := Option.bind_eq_some_iff.mp meant
    cases meant
    exact List.forall_mem_cons.mpr ⟨conforms.denote here first, ih later second⟩

theorem Env.Conforms.functionMeaning {op : Builtin} {args : List Term}
    (typed : ∀ t ∈ args, t.HasType (Literal.IsStated labels) types type)
    (meant : functionMeaning ctx env op args = some m) :
    m.Conforms labels ctx.config.skolemWidth type := by
  obtain ⟨ms, each, rfl⟩ := Option.map_eq_some_iff.mp meant
  have inside := conforms.denoteAll typed each
  refine .of_unmarked ?_
  have selected : (Lowering.functionOf op).apply (ms.map (·.value.value)) = .null ∨
      (Lowering.functionOf op).apply (ms.map (·.value.value)) ∈ ms.map (·.value.value) := by
    cases op with
    | least => exact Sql.Function.least_mem _
    | _ => exact Sql.Function.greatest_mem _
  rcases selected with null | member
  · exact null ▸ .null
  · obtain ⟨own, listed, same⟩ := List.mem_map.mp member
    exact same ▸ (inside own listed).value

theorem Env.Conforms.computed (called : s.atom.builtin? = some s.op)
    (binds : s.atom.binding? names = some x)
    (typed : s.atom.IsTyped (Literal.IsStated labels) catalog types)
    (meant : computed ctx env s x = some m) : m.Conforms labels ctx.config.skolemWidth (types x) := by
  obtain ⟨-, inputs, determines, -⟩ := Atom.determines_of_binding binds
  cases determines with
  | @output op v _ called' function args =>
    cases called.symm.trans called'
    obtain ⟨type, each⟩ := typed.computed ⟨s.op, called, .inr function⟩
    rw [args] at each
    obtain ⟨own, each⟩ := List.forall_mem_cons.mp each
    have own : types v.name = type := own
    rw [RowSemantics.computed, if_pos function, args] at meant
    exact own ▸ conforms.functionMeaning each meant
  | @left v right more equation args =>
    have op : s.op = .eq := Option.some.inj (called.symm.trans equation)
    obtain ⟨type, each⟩ := typed.computed ⟨s.op, called, .inl op⟩
    rw [args] at each
    have own : types v.name = type := each _ List.mem_cons_self
    rw [RowSemantics.computed, op, args] at meant
    refine own ▸ conforms.denote ?_ meant
    split
    · exact each _ (by simp)
    · exact each _ (by simp)
  | @right v left more equation args =>
    have op : s.op = .eq := Option.some.inj (called.symm.trans equation)
    obtain ⟨type, each⟩ := typed.computed ⟨s.op, called, .inl op⟩
    rw [args] at each
    have own : types v.name = type := each (.variable v) (by simp)
    rw [RowSemantics.computed, op, args] at meant
    refine own ▸ conforms.denote ?_ meant
    split
    · exact each _ (by simp)
    · exact each _ (by simp)

theorem Env.Conforms.settle {steps : List Step} (ordered : Ordered names steps)
    (typed : ∀ s ∈ steps, s.atom.IsTyped (Literal.IsStated labels) catalog types)
    (settle : Settle ctx final env steps) : final.Conforms labels ctx.config.skolemWidth types := by
  induction ordered generalizing env with
  | nil =>
    cases settle
    exact conforms
  | @binds names a op x rest builtin binds later ih =>
    obtain ⟨own, typed⟩ := List.forall_mem_cons.mp typed
    obtain ⟨m, meant, settle⟩ := settle
    refine ih (fun y other found => ?_) typed settle
    rw [NameMap.get?_insert] at found
    split at found
    · rename_i same
      cases found
      exact same ▸ conforms.computed (s := ⟨a, op, some x⟩) builtin binds own meant
    · exact conforms y other found
  | tests builtin ready later ih =>
    exact ih conforms (List.forall_mem_cons.mp typed).2 settle.2

end Terms

end RowSemantics

section Rows

variable {labels : String → Prop} {width : Nat} {db : Database} {r : Relation} {kind : TableKind}
  {row : Row}

def Relation.ConformsTo (labels : String → Prop) (width : Nat) (r : Relation) (kind : TableKind)
    (row : Row) : Prop :=
  List.Forall₂ (fun (column : String × ColumnType) v => v.Conforms labels width column.2)
    (r.physicalColumns kind) row

theorem Relation.conformsTo_iff : r.ConformsTo labels width kind row ↔
    Row.Conforms labels width ((r.physicalColumns kind).map fun (name, type) => (name, some type)) row := by
  rw [Relation.ConformsTo, Row.Conforms, List.forall₂_map_left_iff]
  simp

theorem Relation.StoredIn.conforms (stored : r.StoredIn kind db) (conforms : db.Conforms labels width)
    (inside : row ∈ db.rows (r.tableName kind)) : r.ConformsTo labels width kind row :=
  Relation.conformsTo_iff.mpr (stored.columns ▸ conforms _ row inside)

theorem Relation.StoredIn.cell_conforms (stored : r.StoredIn kind db)
    (conforms : db.Conforms labels width) (inside : row ∈ db.rows (r.tableName kind))
    {column : String × ColumnType} (listed : column ∈ r.physicalColumns kind) :
    (RowSemantics.cell db (r.tableName kind) row column.1).value.Conforms labels width column.2 := by
  have each := stored.conforms conforms inside
  obtain ⟨i, bound, rfl⟩ := List.mem_iff_getElem.mp listed
  have inRow : i < row.length := each.length_eq ▸ bound
  rw [stored.cell_at bound inRow]
  exact (List.forall₂_iff_get.mp each).2 i bound inRow

end Rows

namespace RowSemantics

variable {labels : String → Prop} {ctx : Lowering.Context} {db : Database} {parameter : Int}
  {guard : Option Guard} {body : List Atom} {rows : List Row} {env : Env} {types : Typing} {r : Relation}
  {head : Atom}

theorem conforms_match (conforms : db.Conforms labels ctx.config.skolemWidth)
    (typed : ∀ a ∈ body, a.IsTyped (Literal.IsStated labels) ctx.catalog types)
    (stores : ∀ a ∈ body, a.builtin? = none → Lowering.StoresAtom ctx.catalog db a)
    (matched : Match ctx db parameter guard body rows env) :
    env.Conforms labels ctx.config.skolemWidth types := by
  have start : (bound .empty (joinedPlaces ctx db body rows)).Conforms labels ctx.config.skolemWidth
      types := by
    intro x m found
    rw [get?_bound, show (NameMap.empty : Env).get? x = none from rfl, Option.none_or, first?] at found
    obtain ⟨⟨_, t⟩, first, rfl⟩ := Option.map_eq_some_iff.mp found
    have named : name? t = some x := by simpa using List.find?_some first
    obtain ⟨v, rfl, rfl, -⟩ := name?_eq named
    obtain ⟨a, inBody, positive, row, listed, place⟩ :=
      mem_joinedPlaces matched.chosen (List.mem_of_find?_eq_some first)
    have called := Atom.builtin?_of_isPositive positive
    obtain ⟨name, related⟩ : ∃ name, a.relation? = some name := by
      unfold Atom.isPositive at positive
      exact Option.isSome_iff_exists.mp (Bool.and_eq_true_iff.mp positive).2
    obtain ⟨r, known, each⟩ := (typed a inBody).stored name related
    rw [← Atom.relationName_of_relation related] at known
    have stored := stores a inBody called r known
    rw [Lowering.tableOf_known known] at listed
    rw [places, known] at place
    obtain ⟨⟨arg, column⟩, zipped, same⟩ := List.mem_map.mp place
    obtain ⟨rfl, rfl⟩ := Prod.mk.inj same
    have type : types v.name = column.type := (List.forall₂_iff_zip.mp each).2 zipped
    obtain ⟨own, marked⟩ := @Relation.mem_physicalColumns r a.kind column (List.of_mem_zip zipped).2
    refine ⟨type ▸ stored.cell_conforms conforms listed own, ?_⟩
    cases marker : r.markerOf? column with
    | none =>
      rw [Option.map_none]
      exact .integer _
    | some companion => exact stored.cell_conforms conforms listed (marked companion marker)
  have scheduled {passes : Nat} {names : List String} (s : Step)
      (inside : s ∈ schedule passes (builtins body) names) :
      s.atom.IsTyped (Literal.IsStated labels) ctx.catalog types :=
    typed s.atom (List.mem_of_mem_filter (mem_schedule inside))
  exact start.settle (schedule_ordered _) scheduled matched.settled

section Written

variable {places : List (Term × Column)} {i : Nat}

theorem conforms_writtenColumns (denoted : ∀ place ∈ places, ∃ m, denote ctx env place.1 = some m ∧
      m.Conforms labels ctx.config.skolemWidth place.2.type) :
    List.Forall₂ (fun (column : String × ColumnType) v =>
        v.Conforms labels ctx.config.skolemWidth column.2)
      (Lowering.laidOut r places) (writtenColumns ctx r env i places) := by
  induction places generalizing i with
  | nil => exact .nil
  | cons place rest ih =>
    obtain ⟨t, c⟩ := place
    obtain ⟨⟨m, meant, value, mark⟩, later⟩ := List.forall_mem_cons.mp denoted
    rw [Lowering.laidOut_cons, writtenColumns, meant, Option.getD_some]
    refine List.rel_append ?_ (ih later)
    unfold written
    split
    · refine .cons .null ?_
      cases r.markerOf? c with
      | none => exact .nil
      | some marker =>
        refine .cons ?_ .nil
        split
        · exact mark
        · exact .integer 0
    · refine .cons value ?_
      cases r.markerOf? c with
      | none => exact .nil
      | some marker => exact .cons mark .nil

theorem conforms_writtenRow (arity : head.args.length = r.arity)
    (denoted : ∀ place ∈ head.args.zip r.columns, ∃ m, denote ctx env place.1 = some m ∧
      m.Conforms labels ctx.config.skolemWidth place.2.type)
    (stamp : (stampValue ctx parameter).Conforms labels ctx.config.skolemWidth .integer) :
    r.ConformsTo labels ctx.config.skolemWidth head.kind (writtenRow ctx parameter r head env) := by
  rw [Relation.ConformsTo, Lowering.physicalColumns_eq arity, writtenRow]
  refine List.rel_append (conforms_writtenColumns denoted) ?_
  split
  · exact .cons stamp .nil
  · exact .nil

end Written

end RowSemantics

end PeerExchange
