import Mathlib
import PeerExchange.Proofs.InsertStatements
import PeerExchange.Proofs.RuleTypes
import PeerExchange.Skolem

namespace PeerExchange

open RowSemantics (Assignment Satisfies)
open Sql (Database Row Statement Typed Value)

namespace RowSemantics

variable {ctx : Lowering.Context} {db : Database} {parameter : Int} {guard : Option Guard}
  {body : List Atom} {rows : List Row} {σ : Assignment} {own : Atom} {names : List String}

section Negated

theorem positives_append (negated : own.negated = true) (position : Nat) :
    positives position (body ++ [own]) = positives position body := by
  induction body generalizing position with
  | nil => simp [positives, Atom.isPositive, negated]
  | cons a rest ih =>
    rw [List.cons_append, positives, positives]
    split <;> rw [ih]

theorem builtins_append (negated : own.negated = true) : builtins (body ++ [own]) = builtins body := by
  simp [builtins, negated]

theorem joinedNames_append (negated : own.negated = true) :
    joinedNames (body ++ [own]) = joinedNames body := by
  rw [joinedNames, positives_append negated]
  rfl

theorem steps_append (negated : own.negated = true) : steps (body ++ [own]) = steps body := by
  rw [steps, builtins_append negated, joinedNames_append negated]
  rfl

theorem satisfies_append (negated : own.negated = true) :
    Satisfies ctx db parameter guard (body ++ [own]) rows σ ↔
      Satisfies ctx db parameter guard body rows σ ∧
        ∀ row ∈ db.rows (tableOf ctx.catalog own),
          ¬ σ.Hits ctx.catalog db (boundNames body) own row := by
  have positive := @positives_append body own negated 0
  have cells : joinedCells ctx db (body ++ [own]) rows = joinedCells ctx db body rows := by
    rw [joinedCells, joinedPlaces, positive]
    rfl
  have stepped := @steps_append body own negated
  have bound : boundNames (body ++ [own]) = boundNames body := by
    rw [boundNames, joinedNames_append negated, stepped]
    rfl
  constructor
  · rintro ⟨chosen, first, joined, repeated, settled, absent⟩
    rw [positive] at chosen
    rw [cells] at first joined repeated
    rw [stepped] at settled
    rw [bound] at absent
    refine ⟨⟨chosen, first, joined, repeated, settled, fun a inside => ?_⟩, ?_⟩
    · exact absent a (List.mem_append_left _ inside)
    · exact absent own (List.mem_append_right _ List.mem_cons_self) negated
  · rintro ⟨⟨chosen, first, joined, repeated, settled, absent⟩, kept⟩
    refine ⟨positive ▸ chosen, cells ▸ first, cells ▸ joined, cells ▸ repeated, stepped ▸ settled, ?_⟩
    intro a inside negative
    rw [bound]
    rcases List.mem_append.mp inside with early | last
    · exact absent a early negative
    · cases List.mem_singleton.mp last
      exact kept

end Negated

section Marks

variable {a b : Atom} {row : Row} {t : Term}

theorem name?_plain (unmarked : t.isPlain = true) : name? t.plain = name? t := by
  cases t with
  | «variable» v =>
    have none : v.skolem.isNone = true := unmarked
    simp [Term.plain, Term.bind, Term.var, name?, none]
  | constant type literal => rfl
  | skolem function args => cases unmarked

theorem value_plain (unmarked : t.isPlain = true) : σ.value t.plain = σ.value t := by
  cases t with
  | «variable» v => rfl
  | constant type literal => rfl
  | skolem function args => cases unmarked

theorem first?_plain {x : String} {cs : List (Typed × Term)} (plain : ∀ p ∈ cs, p.2.isPlain = true) :
    first? x (cs.map fun p => (p.1, p.2.plain)) = first? x cs := by
  induction cs with
  | nil => rfl
  | cons p rest ih =>
    obtain ⟨here, plain⟩ := List.forall_mem_cons.mp plain
    have others := ih plain
    unfold first? at others ⊢
    rw [List.map_cons, List.find?_cons, List.find?_cons, name?_plain here]
    split
    · rfl
    · exact others

theorem cells_mapArgs (c : Catalog) (f : Term → Term) :
    cells c db (a.mapArgs f) row = (cells c db a row).map fun p => (p.1, f p.2) := by
  unfold cells places
  rw [show (a.mapArgs f).relationName = a.relationName from rfl]
  cases c.relations.get? a.relationName with
  | none => rfl
  | some r =>
    simp only [Atom.mapArgs, List.zip_map_left, List.map_map]
    rfl

theorem hits_plain (plain : ∀ t ∈ a.args, t.isPlain = true) :
    σ.Hits ctx.catalog db names (a.mapArgs Term.plain) row ↔ σ.Hits ctx.catalog db names a row := by
  have plains : ∀ p ∈ cells ctx.catalog db a row, p.2.isPlain = true := by
    rw [cells, List.forall_mem_map]
    exact places_plain plain
  unfold Assignment.Hits
  rw [cells_mapArgs]
  generalize cells ctx.catalog db a row = cs at plains
  have extended : σ.extended names (cs.map fun p => (p.1, p.2.plain)) = σ.extended names cs := by
    funext x
    rw [Assignment.extended, Assignment.extended, first?_plain plains]
  rw [List.forall_mem_map, extended]
  refine forall₂_congr fun p inside => ?_
  rw [value_plain (plains p inside)]

theorem hits_congr (same : a.same b = true) (plainLeft : ∀ t ∈ a.args, t.isPlain = true)
    (plainRight : ∀ t ∈ b.args, t.isPlain = true) :
    tableOf ctx.catalog a = tableOf ctx.catalog b ∧
      (σ.Hits ctx.catalog db names a row ↔ σ.Hits ctx.catalog db names b row) := by
  simp only [Atom.same, Bool.and_eq_true, decide_eq_true_eq, Term.sameList] at same
  obtain ⟨⟨⟨⟨predicate, kind⟩, args⟩, -⟩, -⟩ := same
  have relation : a.relationName = b.relationName := by
    rw [Atom.relationName, Atom.relationName, Atom.relation?, Atom.relation?, predicate]
  constructor
  · rw [tableOf, tableOf, relation, kind]
  · rw [← hits_plain plainLeft, ← hits_plain plainRight]
    have equal : cells ctx.catalog db (a.mapArgs Term.plain) row =
        cells ctx.catalog db (b.mapArgs Term.plain) row := by
      unfold cells places
      rw [show (a.mapArgs Term.plain).relationName = a.relationName from rfl,
        show (b.mapArgs Term.plain).relationName = b.relationName from rfl, relation]
      simp only [Atom.mapArgs, args, kind]
    unfold Assignment.Hits
    rw [equal]

end Marks

section Stability

variable {steps : List Step} {t : Term} {typeOf : String → ColumnType} {r : Relation} {head : Atom}
  {row : Row}

def Stable (a : Typed) : Prop := ∀ type, a.type = some type → a.value.store type = a.value

theorem stable_value (stable : ∀ x ∈ names, Stable (σ x)) (plain : t.isPlain = true)
    (bound : ∀ v ∈ t.vars, v.name ∈ names) : Stable (σ.value t) := by
  cases t with
  | «variable» v => exact stable v.name (bound v List.mem_cons_self)
  | constant own literal =>
    intro type typed
    cases literal with
    | string s => cases typed
    | integer n => cases typed
    | null => cases plain
    | labeledNull label => cases plain
  | skolem function args => cases plain

theorem stable_after (ordered : Ordered names steps)
    (plain : ∀ s ∈ steps, ∀ t ∈ s.atom.args, t.isPlain = true) (settles : ∀ s ∈ steps, σ.Settles s)
    (stable : ∀ x ∈ names, Stable (σ x)) : ∀ x ∈ after names steps, Stable (σ x) := by
  induction ordered with
  | nil => exact stable
  | @binds names a op x rest builtin binds later ih =>
    obtain ⟨plainHere, plain⟩ := List.forall_mem_cons.mp plain
    obtain ⟨here, settles⟩ := List.forall_mem_cons.mp settles
    refine ih plain settles (List.forall_mem_cons.mpr ⟨?_, stable⟩)
    have given : σ x = σ.computed ⟨a, op, some x⟩ x := here
    rw [given, Assignment.computed]
    rcases (binding?_cases builtin binds).2 with ⟨function, -⟩ | ⟨equation, left, right, others, shape, ready⟩
    · rw [if_pos function]
      exact fun type typed => nomatch typed
    · rw [shape] at plainHere
      rw [if_neg (Bool.eq_false_iff.mp equation), shape]
      refine stable_value stable ?_ fun v listed => ?_
      · split
        · exact plainHere right (by simp)
        · exact plainHere left (by simp)
      · exact List.contains_iff_mem.mp (List.all_eq_true.mp ready v listed)
  | tests builtin ready later ih =>
    exact ih (List.forall_mem_cons.mp plain).2 (List.forall_mem_cons.mp settles).2 stable

theorem stable_bound (regular : Regular ctx db typeOf body)
    (holds : Satisfies ctx db parameter guard body rows σ) : ∀ x ∈ boundNames body, Stable (σ x) := by
  refine stable_after (schedule_ordered _) (steps_plain regular) holds.settled fun x joined => ?_
  rw [← joinedPlaces_names regular holds.chosen] at joined
  obtain ⟨m, first⟩ := Option.isSome_iff_exists.mp (first?_isSome.mpr joined)
  obtain ⟨p, placed, rfl⟩ := Option.map_eq_some_iff.mp first
  have own : σ x = p.1.value := by
    refine holds.first x _ ?_
    rw [joinedCells, first?_map, first]
    rfl
  obtain ⟨a, inBody, positive, row, stored, member⟩ :=
    mem_joinedPlaces holds.chosen (List.mem_of_find?_eq_some placed)
  obtain ⟨type, typed, fits, -⟩ := regular.typed a inBody positive row stored p member
  intro other known
  rw [own] at known ⊢
  cases typed.symm.trans known
  exact fits.kept

-- What a column keeps is identical to a value that it would keep only where the two are the same.
theorem same_of_is {a b : Typed} {type : ColumnType} (own : a.type = some type)
    (kept : a.value.store type = a.value) (other : b.value.store type = b.value) (stable : Stable b)
    (identical : Holds .is a b) : b.value.same a.value = true := by
  have order := holds_is_iff.mp identical
  have raw (same : a.order b = a.value.order b.value) : b.value.same a.value = true := by
    rw [Value.same_comm, Value.same, ← same, order]
    rfl
  cases typed : b.type with
  | none => exact raw (order_of_fits own ⟨.inl own, kept⟩ ⟨.inr typed, other⟩)
  | some second =>
    have integers : type ≠ second → a.order b =
        (a.value.store .integer).order (b.value.store .integer) := by
      intro differs
      rw [Typed.order, own, typed]
      cases type <;> cases second <;> first | rfl | exact absurd rfl differs
    cases type with
    | integer =>
      cases second with
      | integer => exact raw (order_of_fits own ⟨.inl own, kept⟩ ⟨.inl typed, other⟩)
      | text => exact raw (by rw [integers (by rintro ⟨⟩), kept, other])
    | text =>
      cases second with
      | text => exact raw (order_of_fits own ⟨.inl own, kept⟩ ⟨.inl typed, other⟩)
      | integer =>
        rw [integers (by rintro ⟨⟩), stable .integer typed] at order
        exact raw (by rw [integers (by rintro ⟨⟩), stable .integer typed, Value.store_integer_of_texts kept other order])

theorem extended_value {cs : List (Typed × Term)} (bound : ∀ v ∈ t.vars, v.name ∈ names) :
    (σ.extended names cs).value t = σ.value t := by
  cases t with
  | «variable» v => exact if_pos (bound v List.mem_cons_self)
  | constant type literal => rfl
  | skolem function args => rfl

theorem physicalColumns_bare {kind : TableKind} (bare : r.labeledNulls = false)
    (unstratified : r.hasStratum kind = false) :
    r.physicalColumns kind = r.columns.map fun c => (c.name, c.type) := by
  have single (c : Column) : ((c.name, c.type) :: ((r.markerOf? c).map (·, ColumnType.integer)).toList) =
      [(c.name, c.type)] := by simp [Relation.markerOf?, bare]
  unfold Relation.physicalColumns
  simp only [single, unstratified, Bool.false_eq_true, if_false, List.append_nil]
  exact List.map_eq_flatMap.symm

theorem same_of_hits (known : ctx.catalog.relations.get? head.relationName = some r)
    (stored : r.StoredIn head.kind db) (bare : r.labeledNulls = false)
    (unstratified : r.hasStratum head.kind = false) (arity : head.args.length = r.arity)
    (plain : ∀ t ∈ head.args, t.isPlain = true)
    (bound : ∀ t ∈ head.args, ∀ v ∈ t.vars, v.name ∈ names) (stable : ∀ x ∈ names, Stable (σ x))
    (kept : List.Forall₂ (fun (column : String × ColumnType) v => v.store column.2 = v)
      (r.physicalColumns head.kind) (headRow ctx parameter r head σ))
    (inside : row ∈ db.rows (r.tableName head.kind))
    (hits : σ.Hits ctx.catalog db names head row) :
    Row.same (headRow ctx parameter r head σ) row = true := by
  have tuple : headRow ctx parameter r head σ = head.args.map fun t => (σ.value t).value := by
    rw [headRow, unstratified, if_neg Bool.false_ne_true, List.append_nil]
  have columns := physicalColumns_bare bare unstratified
  have own := stored.kept row inside
  rw [columns] at own kept
  rw [tuple] at kept ⊢
  rw [Sql.Row.same_iff, List.forall₂_iff_get]
  have length : head.args.length = row.length := by
    rw [arity, ← own.length_eq, List.length_map]
    rfl
  refine ⟨by rw [List.length_map, length], fun i inArgs inRow => ?_⟩
  rw [List.length_map] at inArgs
  have inColumns : i < r.columns.length := Nat.lt_of_lt_of_eq inArgs arity
  have listed : (((r.columns[i].name, some r.columns[i].type), row[i]) :
      (String × Option ColumnType) × Value) ∈ (db.columns (r.tableName head.kind)).zip row := by
    rw [stored.columns, columns, List.map_map, List.mem_iff_getElem]
    exact ⟨i, by simpa using Nat.lt_min.mpr ⟨inColumns, inRow⟩, by simp⟩
  have cell : RowSemantics.cell db (r.tableName head.kind) row r.columns[i].name =
      ⟨row[i], some r.columns[i].type⟩ := by
    rw [RowSemantics.cell, Sql.cell?_of_mem (stored.columnNames ▸ stored.distinct) listed]
    rfl
  have place : ((⟨row[i], some r.columns[i].type⟩, head.args[i]) : Typed × Term) ∈
      cells ctx.catalog db head row := by
    rw [cells, places, known, List.map_map]
    refine List.mem_map.mpr ⟨(head.args[i], r.columns[i]), ?_, ?_⟩
    · rw [List.mem_iff_getElem]
      exact ⟨i, by simpa using Nat.lt_min.mpr ⟨inArgs, inColumns⟩, by simp⟩
    · simp [cell]
  have identical := hits _ place
  have named := bound head.args[i] (List.getElem_mem inArgs)
  rw [extended_value named] at identical
  have keeps := (List.forall₂_iff_get.mp own).2 i (by simpa using inColumns) inRow
  have projects := (List.forall₂_iff_get.mp kept).2 i (by simpa using inColumns) (by simpa using inArgs)
  simp only [List.get_eq_getElem, List.getElem_map] at keeps projects ⊢
  exact same_of_is rfl keeps projects
    (stable_value stable (plain head.args[i] (List.getElem_mem inArgs)) named) identical

end Stability

section Checked

variable {uses : List Catalog.Use} {r : Relation} {kind : TableKind} {row : Row} {a : Atom}

def typeOf (uses : List Catalog.Use) (x : String) : ColumnType :=
  ((uses.find? (·.name = x)).map Catalog.Use.type).getD .integer

theorem fits_constant {own : Option ColumnType} {literal : Literal} {column : Column}
    (plain : (Term.constant own literal).isPlain = true)
    (small : ∀ n, literal = .integer n → fitsWord n = true)
    (recorded : Catalog.Recorded uses (.constant own literal) column) :
    Fits column.type (Meaning.ofLiteral own literal).value := by
  cases literal with
  | string s =>
    have typed := recorded .text rfl
    exact ⟨.inr rfl, typed ▸ rfl⟩
  | integer n =>
    have typed := recorded .integer rfl
    refine ⟨.inr rfl, ?_⟩
    rw [← typed]
    simp only [Meaning.ofLiteral, Value.ofInteger, small n rfl, if_true]
    rfl
  | null => cases plain
  | labeledNull label => cases plain

theorem regular_of_checked (plain : ∀ a ∈ body, ∀ t ∈ a.args, t.isPlain = true)
    (checked : ∀ a ∈ body, ctx.catalog.Checked uses a)
    (bare : ∀ name r, ctx.catalog.relations.get? name = some r → r.labeledNulls = false)
    (stores : ∀ a ∈ body, a.builtin? = none → Lowering.StoresAtom ctx.catalog db a) :
    Regular ctx db (typeOf uses) body where
  plain := plain
  arities a inBody positive := by
    obtain ⟨name, named⟩ : ∃ name, a.relation? = some name := by
      rw [Atom.isPositive, Bool.and_eq_true] at positive
      exact Option.isSome_iff_exists.mp positive.2
    obtain ⟨r, known, arity⟩ := (checked a inBody).known name named
    refine ⟨r, ?_⟩
    rw [Lowering.relationOf, Catalog.relation, Atom.relationName_of_relation named, known]
    exact if_pos arity
  unmarked a inBody row p member := by
    unfold places at member
    split at member
    · rename_i r known
      obtain ⟨⟨arg, column⟩, -, rfl⟩ := List.mem_map.mp member
      simp [Relation.markerOf?, bare a.relationName r known]
    · cases member
  typed a inBody positive row inside p member := by
    obtain ⟨name, named⟩ : ∃ name, a.relation? = some name := by
      rw [Atom.isPositive, Bool.and_eq_true] at positive
      exact Option.isSome_iff_exists.mp positive.2
    unfold places at member
    rw [tableOf] at inside
    split at member
    · rename_i r known
      obtain ⟨⟨arg, column⟩, zipped, rfl⟩ := List.mem_map.mp member
      obtain ⟨isArg, isColumn⟩ := List.of_mem_zip zipped
      rw [known, Option.map_some, Option.getD_some] at inside
      have stored := stores a inBody (Atom.builtin?_of_isPositive positive) r known
      obtain ⟨v, read, kept⟩ := stored.cell_fits inside (Relation.mem_physicalColumns isColumn).1
      have lookup : ctx.catalog.relations.get? name = some r := by
        rw [← known, Atom.relationName_of_relation named]
      have recorded := (checked a inBody).recorded name r named lookup (arg, column) zipped
      refine ⟨column.type, ?_, ?_, fun u same => ?_, fun own literal same => ?_⟩
      · exact congrArg Typed.type read
      · dsimp only
        rw [read]
        exact ⟨.inl rfl, kept⟩
      · dsimp only at same
        subst same
        obtain ⟨use, found, type⟩ := recorded
        rw [typeOf, found, Option.map_some, Option.getD_some, type]
      · dsimp only at same
        subst same
        refine fits_constant (plain a inBody _ isArg) (fun n equal => ?_) recorded
        subst equal
        exact (checked a inBody).integers own n isArg
    · cases member

end Checked

end RowSemantics

-- A rule that adds tuples, with plain arguments and all of its values written.
structure Rule.AddsPlainly (rule : Rule) (head : Atom) : Prop where
  heads : rule.head = [head]
  derives : rule.action = .derive
  joined : rule.body ≠ []
  unblanked : (rule.blankAll || rule.blankNonKey) = false
  inner : ∀ a ∈ head :: rule.body, a.optional = false
  plain : ∀ a ∈ head :: rule.body, ∀ t ∈ a.args, t.isPlain = true

namespace Lowering

variable {ctx : Context} {db : Database} {parameter : Int} {r : Relation} {head : Atom}
  {rows : List Row} {σ : Assignment} {sc : Scope} {joins : List Join} {body : List Atom}
  {guard : Option Guard} {typeOf : String → ColumnType} {projection : List Sql.Expr}

-- What the lowered body of an insertion gives.
def Projects (ctx : Context) (db : Database) (parameter : Int) (r : Relation) (head : Atom)
    (rows : List Row) (σ : Assignment) : Prop :=
  Satisfies ctx db parameter ctx.rule.guard
    (insertionBody ctx.config.setSemantics r head ctx.rule.body).1 rows σ

-- What an insertion adds: the head tuples of the rule. With set semantics a tuple that a table with
-- stamps has under any stamp is not added under another one.
def Produces (ctx : Context) (db : Database) (parameter : Int) (r : Relation) (head : Atom)
    (rows : List Row) (σ : Assignment) : Prop :=
  Satisfies ctx db parameter ctx.rule.guard ctx.rule.body rows σ ∧
    (ctx.config.setSemantics = true → r.hasStratum head.kind = true →
      ∀ row ∈ db.rows (RowSemantics.tableOf ctx.catalog head),
        ¬ σ.Hits ctx.catalog db (RowSemantics.boundNames ctx.rule.body) head row)

theorem unhit_congr {a : Atom} {names : List String} (same : a.same head.negate = true)
    (plain : ∀ t ∈ a.args, t.isPlain = true) (plainHead : ∀ t ∈ head.args, t.isPlain = true) :
    a.negated = true ∧
      ((∀ row ∈ db.rows (RowSemantics.tableOf ctx.catalog a), ¬ σ.Hits ctx.catalog db names a row) ↔
        ∀ row ∈ db.rows (RowSemantics.tableOf ctx.catalog head),
          ¬ σ.Hits ctx.catalog db names head row) := by
  constructor
  · simp only [Atom.same, Bool.and_eq_true, decide_eq_true_eq] at same
    exact same.1.2
  · have table := (@RowSemantics.hits_congr ctx db σ names a head.negate [] same plain plainHead).1
    rw [table]
    exact forall₂_congr fun row _ => not_congr (RowSemantics.hits_congr same plain plainHead).2

-- A negated atom that is the same as the head's own guards the rule by itself, and one that stands
-- last can be left out where the rows it excludes are compared otherwise.
theorem projects_iff (plain : ∀ a ∈ head :: ctx.rule.body, ∀ t ∈ a.args, t.isPlain = true) :
    (Produces ctx db parameter r head rows σ → Projects ctx db parameter r head rows σ) ∧
      (Projects ctx db parameter r head rows σ → Produces ctx db parameter r head rows σ ∨
        ((insertionBody ctx.config.setSemantics r head ctx.rule.body).2 = true ∧
          r.hasStratum head.kind = false ∧
          ∃ row ∈ db.rows (RowSemantics.tableOf ctx.catalog head), σ.Hits ctx.catalog db
            (RowSemantics.boundNames (insertionBody ctx.config.setSemantics r head ctx.rule.body).1)
            head row)) := by
  obtain ⟨plainHead, plain⟩ := List.forall_mem_cons.mp plain
  have own : head.negate.negated = true := rfl
  have self : head.negate.same head.negate = true := by simp [Atom.same, Term.sameList]
  unfold Produces Projects insertionBody
  dsimp only
  split
  · rename_i added
    rw [Bool.and_eq_true] at added
    rw [List.getLast?_concat, Option.any_some, self, Bool.true_and, List.dropLast_concat]
    cases stratified : r.hasStratum head.kind with
    | true =>
      simp only [Bool.not_true, Bool.false_eq_true, if_false, added.1, true_imp_iff]
      rw [RowSemantics.satisfies_append own]
      exact ⟨id, .inl⟩
    | false =>
      simp only [Bool.not_false, if_true, Bool.false_eq_true, false_imp_iff, implies_true, and_true]
      exact ⟨id, .inl⟩
  · rename_i kept
    split
    · rename_i last
      rw [Bool.and_eq_true, Bool.not_eq_true'] at last
      obtain ⟨last, unstratified⟩ := last
      obtain ⟨a, ends, same⟩ := (Option.any_eq_true _ _).mp last
      obtain ⟨before, split⟩ := List.getLast?_eq_some_iff.mp ends
      rw [unstratified, split, List.dropLast_concat]
      simp only [Bool.false_eq_true, false_imp_iff, implies_true, and_true, true_and]
      obtain ⟨negated, unhit⟩ := @unhit_congr ctx db head σ a (RowSemantics.boundNames before) same
        (plain a (split ▸ by simp)) plainHead
      rw [RowSemantics.satisfies_append negated, unhit]
      refine ⟨And.left, fun holds => ?_⟩
      by_cases hit : ∃ row ∈ db.rows (RowSemantics.tableOf ctx.catalog head), σ.Hits ctx.catalog db
          (RowSemantics.boundNames before) head row
      · exact .inr hit
      · exact .inl ⟨holds, fun row inside hits => hit ⟨row, inside, hits⟩⟩
    · refine ⟨And.left, fun holds => .inl ⟨holds, fun sets _ => ?_⟩⟩
      rw [sets, Bool.true_and, Bool.not_eq_true', Bool.not_eq_false] at kept
      obtain ⟨a, member, same⟩ := List.any_eq_true.mp kept
      obtain ⟨negated, unhit⟩ := @unhit_congr ctx db head σ a (RowSemantics.boundNames ctx.rule.body)
        same (plain a member) plainHead
      exact unhit.mp (holds.absent a member negated)

structure Inserted (ctx : Context) (db : Database) (r : Relation) (head : Atom) (sc : Scope)
    (joins : List Join) (typeOf : String → ColumnType) (projection : List Sql.Expr) : Prop where
  shaped : Lowered ctx db ctx.rule.guard
    (insertionBody ctx.config.setSemantics r head ctx.rule.body).1 sc joins
  regular : RowSemantics.Regular ctx db typeOf
    (insertionBody ctx.config.setSemantics r head ctx.rule.body).1
  projected : project ctx r head sc.bindings = .ok projection
  arity : head.args.length = r.arity
  bare : r.labeledNulls = false

theorem inserted_of_lowered {statements : List Statement} (adds : ctx.rule.AddsPlainly head)
    (bare : ∀ name r, ctx.catalog.relations.get? name = some r → r.labeledNulls = false)
    (valid : ctx.catalog.validateRule ctx.rule = .ok ())
    (known : ctx.catalog.relations.get? head.relationName = some r) (target : r.StoredIn head.kind db)
    (stores : ∀ a ∈ ctx.rule.body, a.builtin? = none → StoresAtom ctx.catalog db a)
    (lowered : lowerRule ctx = .ok statements) :
    ∃ sc joins typeOf projection, Inserted ctx db r head sc joins typeOf projection ∧
      statements = [.insert (r.tableName head.kind) (columnNames r head.kind) (.query
        (insertionQuery ctx r head sc projection
          (insertionBody ctx.config.setSemantics r head ctx.rule.body).2))] := by
  obtain ⟨sc, projection, arity, bodied, projected, rfl⟩ :=
    lowerRule_derive adds.derives adds.heads adds.joined known lowered
  obtain ⟨uses, checked⟩ := Catalog.validateRule_types valid
  rw [adds.heads] at checked
  obtain ⟨plainHead, plain⟩ := List.forall_mem_cons.mp adds.plain
  have stored := @stores_insertionBody _ _ _ _ _ ctx.config.setSemantics known target stores
  obtain ⟨innerHead, inner⟩ := List.forall_mem_cons.mp adds.inner
  obtain ⟨joins, shaped⟩ := lowerBody_lowered (forall_insertionBody inner innerHead) stored bodied
  refine ⟨sc, joins, RowSemantics.typeOf uses, projection, ⟨shaped, ?_, projected, arity,
    bare _ r known⟩, rfl⟩
  refine RowSemantics.regular_of_checked (forall_insertionBody plain plainHead)
    (forall_insertionBody ?_ ?_) bare stored
  · exact fun a inside => checked a (List.mem_append_right _ inside)
  · have ofHead := checked head (List.mem_append_left _ List.mem_cons_self)
    exact ⟨ofHead.integers, ofHead.known, ofHead.arity, ofHead.recorded⟩

namespace Inserted

variable (i : Inserted ctx db r head sc joins typeOf projection) (adds : ctx.rule.AddsPlainly head)
  (fits : fitsWord parameter = true)
include i adds fits

theorem head_bound (projects : Projects ctx db parameter r head rows σ) :
    ∀ t ∈ head.args, ∀ v ∈ t.vars, v.name ∈ RowSemantics.boundNames
      (insertionBody ctx.config.setSemantics r head ctx.rule.body).1 := by
  intro t inside
  obtain ⟨env, matched, reads⟩ := RowSemantics.match_of_satisfies i.regular projects
  have each := i.shaped.rows_of_match matched
  obtain ⟨-, same⟩ := (i.shaped.matches_iff ⟨db, parameter⟩ [] rows env rfl fits each).mp matched
  obtain ⟨values, columns, -⟩ := Compiled.bind_ok.mp i.projected
  have terms : (head.args.zip r.columns).map Prod.fst = head.args :=
    List.map_fst_zip (Nat.le_of_eq i.arity)
  obtain ⟨place, listed, rfl⟩ := List.mem_map.mp (terms.symm ▸ inside)
  obtain ⟨-, -, b, found, -⟩ :=
    Compiled.forall₂_result (projectColumns_values adds.unblanked i.bare columns) listed
  subst same
  have plain := (List.forall_mem_cons.mp adds.plain).1
  exact (reads.value_of_denote (plain _ inside) (denote_of_value found)).2

theorem same_of_hit (known : ctx.catalog.relations.get? head.relationName = some r)
    (target : r.StoredIn head.kind db) (unstratified : r.hasStratum head.kind = false)
    (projects : Projects ctx db parameter r head rows σ)
    (kept : List.Forall₂ (fun (column : String × ColumnType) v => v.store column.2 = v)
      (r.physicalColumns head.kind) (RowSemantics.headRow ctx parameter r head σ)) {row : Row}
    (inside : row ∈ db.rows (r.tableName head.kind))
    (hits : σ.Hits ctx.catalog db (RowSemantics.boundNames
      (insertionBody ctx.config.setSemantics r head ctx.rule.body).1) head row) :
    Row.same (RowSemantics.headRow ctx parameter r head σ) row = true :=
  RowSemantics.same_of_hits known target i.bare unstratified i.arity
    (List.forall_mem_cons.mp adds.plain).1 (i.head_bound adds fits projects)
    (RowSemantics.stable_bound i.regular projects) kept inside hits

end Inserted

-- The statement of a rule adds the head tuples of the assignments that satisfy its body, and leaves
-- every other row of every table in place. Rows count as the same where a query tells them not apart.
theorem insertion_exact {catalog : Catalog} {config : Config} {rule : Rule} {iteration : Iteration}
    {statements : List Statement}
    (bare : ∀ name r, catalog.relations.get? name = some r → r.labeledNulls = false)
    (adds : rule.AddsPlainly head) (valid : catalog.validateRule rule = .ok ())
    (lowered : rule.lower catalog config iteration = .ok statements)
    (known : catalog.relations.get? head.relationName = some r)
    (columned : r.physicalColumns head.kind ≠ []) (target : r.StoredIn head.kind db)
    (stores : ∀ a ∈ rule.body, a.builtin? = none → StoresAtom catalog db a)
    (fits : fitsWord parameter = true)
    (kept : ∀ rows σ, Projects ⟨catalog, config, rule, iteration⟩ db parameter r head rows σ →
      List.Forall₂ (fun (column : String × ColumnType) v => v.store column.2 = v)
        (r.physicalColumns head.kind)
        (RowSemantics.headRow ⟨catalog, config, rule, iteration⟩ parameter r head σ)) :
    ∃ statement db' count added, statements = [statement] ∧
      db.execute parameter statement = .ok (db', count) ∧
      (∀ other, Sql.fold other ≠ Sql.fold (r.tableName head.kind) →
        db'.tables.get? other = db.tables.get? other) ∧
      db'.columns (r.tableName head.kind) = db.columns (r.tableName head.kind) ∧
      db'.rows (r.tableName head.kind) = db.rows (r.tableName head.kind) ++ added ∧
      (∀ row ∈ added, ∃ rows σ,
        Produces ⟨catalog, config, rule, iteration⟩ db parameter r head rows σ ∧
          row = RowSemantics.headRow ⟨catalog, config, rule, iteration⟩ parameter r head σ) ∧
      ∀ rows σ, Produces ⟨catalog, config, rule, iteration⟩ db parameter r head rows σ →
        ∃ row ∈ db'.rows (r.tableName head.kind), Row.same
          (RowSemantics.headRow ⟨catalog, config, rule, iteration⟩ parameter r head σ) row = true := by
  have ran : lowerRule ⟨catalog, config, rule, iteration⟩ = .ok statements := by
    unfold Rule.lower at lowered
    split at lowered
    · rename_i same
      cases lowered
      exact same
    · cases lowered
  generalize context : (⟨catalog, config, rule, iteration⟩ : Context) = ctx at *
  obtain rfl : catalog = ctx.catalog := context ▸ rfl
  obtain rfl : rule = ctx.rule := context ▸ rfl
  obtain ⟨sc, joins, typeOf, projection, i, rfl⟩ :=
    inserted_of_lowered adds bare valid known target stores ran
  obtain ⟨t, added, count, found, executed, collects⟩ := @execute_insertion _ _ _ _ _ _ _ _ _ _
    (insertionBody ctx.config.setSemantics r head ctx.rule.body).2 i.shaped target columned
    fits i.projected
  have table : RowSemantics.tableOf ctx.catalog head = r.tableName head.kind := by
    rw [RowSemantics.tableOf, known]
    rfl
  have columns : db.columns (r.tableName head.kind) = t.columns := by
    rw [Database.columns, found]
    rfl
  have projected (row : Row) : row ∈ (selection ctx sc projection).projected ⟨db, parameter⟩ ↔
      ∃ rows σ, Projects ctx db parameter r head rows σ ∧
        row = RowSemantics.headRow ctx parameter r head σ :=
    mem_projected i.shaped i.regular fits columned adds.unblanked i.bare i.arity
      (List.forall_mem_cons.mp adds.plain).1 i.projected
  have sources (row : Row) (inside : row ∈ added) : ∃ rows σ,
      Produces ctx db parameter r head rows σ ∧ row = RowSemantics.headRow ctx parameter r head σ := by
    obtain ⟨given, fresh⟩ := collects.source row inside
    obtain ⟨rows, σ, projects, rfl⟩ := (projected row).mp given
    refine ⟨rows, σ, ((projects_iff adds.plain).2 projects).resolve_right ?_, rfl⟩
    rintro ⟨excepts, unstratified, old, stored, hits⟩
    rw [table] at stored
    have same := i.same_of_hit adds fits known target unstratified projects (kept rows σ projects)
      stored hits
    rw [excepts, if_pos rfl] at fresh
    rw [fresh old stored] at same
    cases same
  have filled : added.map (t.fill t.columnNames) = added := by
    refine (List.map_congr_left fun row inside => ?_).trans (List.map_id _)
    obtain ⟨rows, σ, produces, rfl⟩ := sources row inside
    refine Sql.Table.fill_of_kept ?_ ?_
    · rw [Sql.Table.columnNames, ← columns, target.columnNames]
      exact target.distinct
    · rw [← columns, target.columns, List.forall₂_map_left_iff]
      exact kept rows σ ((projects_iff adds.plain).1 produces)
  rw [filled] at executed
  refine ⟨_, _, count, added, rfl, executed, fun other differs => ?_, ?_, ?_, sources, ?_⟩
  · rw [Database.tables_setRows found, if_neg differs.symm]
  · simp [Database.columns, Database.tables_setRows found, found]
  · rw [Database.rows_setRows found]
  · intro rows σ produces
    rw [Database.rows_setRows found]
    have given := (projected _).mpr ⟨rows, σ, (projects_iff adds.plain).1 produces, rfl⟩
    rcases collects.reached _ given with ⟨old, stored, same⟩ | ⟨row, inside, same⟩
    · refine ⟨old, List.mem_append_left _ ?_, same⟩
      split at stored
      · exact stored
      · cases stored
    · exact ⟨row, List.mem_append_right _ inside, same⟩

section Stamped

-- Insertions into R carry stamps, and S is copied into them.
def stampedCatalog : Catalog where
  peers := [⟨"A", ["R", "S"]⟩]
  relations := .ofList [
    ("R", { name := "R", peer := some "A", columns := [⟨"a", .integer, false⟩], stratified := true }),
    ("S", { name := "S", peer := some "A", columns := [⟨"a", .integer, false⟩] })]

def stampedHead : Atom := (Atom.ofRelation "R" [.var "x"]).withKind .insertion

def stampedRule : Rule :=
  { Rule.ofHead "m" stampedHead [.ofRelation "S" [.var "x"]] with stamp := some (.fixed 1) }

def stampedContext : Context := ⟨stampedCatalog, {}, stampedRule, .literal 0⟩

-- 1 is pending under the stamp 0.
def stampedTables : Database where
  tables := .ofList [
    ("R_INS", { columns := [("a", some .integer), ("STRATUM", some .integer)],
                rows := [[.integer 1, .integer 0]] }),
    ("S", { columns := [("a", some .integer)], rows := [[.integer 1], [.integer 2]] })]

def stampedRelation : Relation :=
  { name := "R", peer := some "A", columns := [⟨"a", .integer, false⟩], stratified := true }

def stampedPending : Option (List Row) :=
  match stampedRule.lower stampedCatalog {} (.literal 0) with
  | .ok [statement] =>
    match stampedTables.execute 0 statement with
    | .ok (db, _) => some (db.rows "R_INS")
    | .error _ => none
  | _ => none

theorem stamped_ran : ∃ statement db count,
    stampedRule.lower stampedCatalog {} (.literal 0) = .ok [statement] ∧
      stampedTables.execute 0 statement = .ok (db, count) ∧
      db.rows "R_INS" = [[.integer 1, .integer 0], [.integer 2, .integer 1]] := by
  have pending : stampedPending = some [[.integer 1, .integer 0], [.integer 2, .integer 1]] := by
    decide +kernel
  unfold stampedPending at pending
  split at pending
  · rename_i statement lowered
    split at pending
    · rename_i db count executed
      exact ⟨statement, db, count, lowered, executed, Option.some.inj pending⟩
    · cases pending
  · cases pending

theorem stamped_adds : stampedRule.AddsPlainly stampedHead where
  heads := rfl
  derives := rfl
  joined := List.cons_ne_nil _ _
  unblanked := rfl
  inner := by simp [stampedRule, Rule.ofHead, Rule.ofHeads, stampedHead, Atom.ofRelation, Atom.withKind]
  plain := by
    simp [stampedRule, Rule.ofHead, Rule.ofHeads, stampedHead, Atom.ofRelation, Atom.withKind, Term.var,
      Term.isPlain]

theorem stamped_satisfies : Satisfies stampedContext stampedTables 0 none stampedRule.body
    [[.integer 1]] fun _ => ⟨.integer 1, some .integer⟩ := by
  have cells : RowSemantics.joinedCells stampedContext stampedTables stampedRule.body [[.integer 1]] =
      [(⟨.integer 1, some .integer⟩, .var "x")] := by decide +kernel
  have steps : RowSemantics.steps stampedRule.body = [] := by cbv
  refine ⟨.cons ⟨List.mem_cons_self, by rintro _ ⟨⟩⟩ .nil, ?_, ?_, ?_, ?_, ?_⟩
  · rw [cells]
    intro x m first
    obtain ⟨p, found, rfl⟩ := Option.map_eq_some_iff.mp first
    rw [List.mem_singleton.mp (List.mem_of_find?_eq_some found)]
  · rw [cells]
    exact List.forall_mem_singleton.mpr (Value.same_self _)
  · rintro _ _ ⟨⟩
  · rw [steps]
    exact List.forall_mem_nil _
  · exact List.forall_mem_singleton.mpr (by rintro ⟨⟩)

-- A tuple that is pending under one stamp is not added under another, although its body holds.
theorem stamped_tuple_kept_out :
    stampedCatalog.validateRule stampedRule = .ok () ∧ stampedRule.checkSafety = .ok () ∧
      stampedRule.AddsPlainly stampedHead ∧ ∃ statement db count rows σ,
        stampedRule.lower stampedCatalog {} (.literal 0) = .ok [statement] ∧
        stampedTables.execute 0 statement = .ok (db, count) ∧
        Satisfies stampedContext stampedTables 0 none stampedRule.body rows σ ∧
        ∀ row ∈ db.rows "R_INS", Row.same
          (RowSemantics.headRow stampedContext 0 stampedRelation stampedHead σ) row = false := by
  obtain ⟨statement, db, count, lowered, executed, rows⟩ := stamped_ran
  refine ⟨by cbv, by cbv, stamped_adds, statement, db, count, _, _, lowered, executed,
    stamped_satisfies, ?_⟩
  rw [rows]
  decide

theorem stamped_stored : stampedRelation.StoredIn .insertion stampedTables := by decide +kernel

theorem stamped_stores : ∀ a ∈ stampedRule.body, a.builtin? = none →
    StoresAtom stampedCatalog stampedTables a := by
  refine List.forall_mem_singleton.mpr fun _ r present => ?_
  have known : stampedCatalog.relations.get? "S" =
      some { name := "S", peer := some "A", columns := [⟨"a", .integer, false⟩] } := by cbv
  cases known.symm.trans present
  decide +kernel

theorem stamped_kept {rows : List Row} {σ : Assignment}
    (projects : Projects stampedContext stampedTables 0 stampedRelation stampedHead rows σ) :
    List.Forall₂ (fun (column : String × ColumnType) v => v.store column.2 = v)
      (stampedRelation.physicalColumns .insertion)
      (RowSemantics.headRow stampedContext 0 stampedRelation stampedHead σ) := by
  have positives : RowSemantics.positives 0 (insertionBody stampedContext.config.setSemantics
      stampedRelation stampedHead stampedContext.rule.body).1 =
        [(0, .ofRelation "S" [.var "x"])] := by cbv
  have copied (n : Int) (fits : fitsWord n = true)
      (same : σ "x" = ⟨.integer n, some .integer⟩) :
      List.Forall₂ (fun (column : String × ColumnType) v => v.store column.2 = v)
        (stampedRelation.physicalColumns .insertion)
        (RowSemantics.headRow stampedContext 0 stampedRelation stampedHead σ) := by
    have row : RowSemantics.headRow stampedContext 0 stampedRelation stampedHead σ =
        [(σ "x").value, .integer 1] := rfl
    rw [row, same]
    exact .cons rfl (.cons rfl .nil)
  have chosen := projects.chosen
  have first := projects.first "x"
  rw [RowSemantics.joinedCells, RowSemantics.joinedPlaces] at first
  rw [positives] at chosen first
  obtain ⟨row, _, ⟨inside, -⟩, none, rfl⟩ := List.forall₂_cons_left_iff.mp chosen
  cases List.forall₂_nil_left_iff.mp none
  have stored : row ∈ [[Value.integer 1], [.integer 2]] := inside
  rcases List.mem_cons.mp stored with rfl | second
  · exact copied 1 rfl (first _ (by cbv))
  · cases List.mem_singleton.mp second
    exact copied 2 rfl (first _ (by cbv))

-- 2 is pending under the stamp 1, and 1 under the stamp that it had.
theorem insertion_exact_stamped : ∃ statement db count added,
    stampedRule.lower stampedCatalog {} (.literal 0) = .ok [statement] ∧
      stampedTables.execute 0 statement = .ok (db, count) ∧
      db.rows "R_INS" = [[.integer 1, .integer 0]] ++ added ∧
      (∀ row ∈ added, ∃ rows σ,
        Produces stampedContext stampedTables 0 stampedRelation stampedHead rows σ ∧
          row = RowSemantics.headRow stampedContext 0 stampedRelation stampedHead σ) ∧
      added = [[.integer 2, .integer 1]] := by
  obtain ⟨statement, db, count, lowered, executed, rows⟩ := stamped_ran
  have bare (name : String) (r : Relation) (present : stampedCatalog.relations.get? name = some r) :
      r.labeledNulls = false := by
    have listed : stampedCatalog.relations.values.all (!·.labeledNulls) = true := by cbv
    have own := List.all_eq_true.mp listed r (NameMap.mem_values.mpr ⟨name, present⟩)
    simpa using own
  have known : stampedCatalog.relations.get? stampedHead.relationName = some stampedRelation := by cbv
  obtain ⟨statement', db', count', added, same, ran, -, -, grown, sources, -⟩ :=
    @insertion_exact stampedTables 0 _ _ _ _ _ _ _ bare stamped_adds (by cbv) lowered known
      (List.cons_ne_nil _ _) stamped_stored stamped_stores (by decide) fun _ _ => stamped_kept
  cases same
  cases executed.symm.trans ran
  refine ⟨statement, db, count, added, lowered, executed, grown, sources, ?_⟩
  exact List.append_cancel_left (grown.symm.trans rows)

end Stamped

end Lowering

end PeerExchange
