import Mathlib
import PeerExchange.Proofs.Compiled
import PeerExchange.Proofs.NameMap
import PeerExchange.Proofs.Scopes
import PeerExchange.Sql.Archive

namespace PeerExchange.Sql

open Syntax (key)

-- What parts that are written one behind the other read as: the first two are put together, and
-- each further one with all before it.
def Syntax.Expr.concatenated : List Syntax.Expr → Syntax.Expr
  | [] => .text ""
  | e :: rest => rest.foldl .concat e

mutual

-- What the text of an expression reads as.
def Expr.written : Expr → Syntax.Expr
  | .column qualifier name => .column qualifier name
  | .integer n => .integer n
  | .text s => .text s
  | .null => .null
  | .typedNull type => .cast .null type
  | .param _ => .parameter
  | .binary op left right => .binary op left.written right.written
  | .call f args => .call f (Expr.writtenAll args)
  | .cast e type => .cast e.written type
  | .concat parts => .concatenated (Expr.writtenAll parts)
  | .nullCase e onNull otherwise => .nullCase e.written onNull.written otherwise.written
  | .exists negated query => .exists negated query.written

def Expr.writtenAll : List Expr → List Syntax.Expr
  | [] => []
  | e :: rest => e.written :: Expr.writtenAll rest

-- Conditions only stand behind what is outer joined.
def Source.writtenAll : List Source → List Syntax.Source
  | [] => []
  | .mk table qualifier outer on :: rest =>
    .mk table false (some qualifier) outer
      (if !outer then [] else if on.isEmpty then [.integer 1] else Expr.writtenAll on) ::
      Source.writtenAll rest

def Select.written : Select → Syntax.Select
  | .mk distinct projection sources conditions =>
    .mk distinct (if projection.isEmpty then [.integer 1] else Expr.writtenAll projection)
      (Source.writtenAll sources) (Expr.writtenAll conditions)

end

def plainName (name : String) : Bool := key name = fold name

mutual

-- No name is one of a schema, at least two parts are put together, and conditions only stand where
-- they are written.
def Expr.isPlain : Expr → Bool
  | .column qualifier name => plainName qualifier && plainName name
  | .binary _ left right => left.isPlain && right.isPlain
  | .call _ args => Expr.allPlain args
  | .cast e _ => e.isPlain
  | .concat parts => 1 < parts.length && Expr.allPlain parts
  | .nullCase e onNull otherwise => e.isPlain && onNull.isPlain && otherwise.isPlain
  | .exists _ query => query.isPlain
  | .integer _ | .text _ | .null | .typedNull _ | .param _ => true

def Expr.allPlain : List Expr → Bool
  | [] => true
  | e :: rest => e.isPlain && Expr.allPlain rest

def Source.allPlain : List Source → Bool
  | [] => true
  | .mk table qualifier outer on :: rest =>
    plainName table && plainName qualifier && (outer || on.isEmpty) && Expr.allPlain on &&
      Source.allPlain rest

def Select.isPlain : Select → Bool
  | .mk _ projection sources conditions =>
    Expr.allPlain projection && Expr.allPlain conditions && Source.allPlain sources

end

-- Columns under the names that an archive keeps.
def foldColumns (columns : List (String × Option ColumnType)) : List (String × Option ColumnType) :=
  columns.map fun (name, type) => (fold name, type)

def Table.folded (t : Table) : Table := { t with columns := foldColumns t.columns }

-- The tables as an archive keeps them.
def Database.folded (db : Database) : Database := { tables := ⟨db.tables.byFold.map Table.folded⟩ }

def Item.folded (i : Item) : Item := ⟨fold i.name, foldColumns i.columns, i.row⟩

def Frame.folded (f : Frame) : Frame := f.map Item.folded

def Scope.folded (s : Scope) : Scope := s.map Frame.folded

def Visible.folded (v : Visible) : Visible := v.map fun (name, columns) => (fold name, columns.map fold)

theorem fold_fold (name : String) : fold (fold name) = fold name := by
  simp [fold, Function.comp_def]

theorem map_fst_foldColumns (columns : List (String × Option ColumnType)) :
    (foldColumns columns).map Prod.fst = (columns.map Prod.fst).map fold := by
  simp [foldColumns, Function.comp_def]

namespace Database

variable {db : Database} {name : String}

theorem get?_folded : db.folded.tables.get? name = (db.tables.get? name).map Table.folded :=
  NameMap.get?_map Table.folded db.tables.byFold (fold name)

theorem columns_folded : db.folded.columns name = foldColumns (db.columns name) := by
  rw [columns, columns, get?_folded]
  cases db.tables.get? name <;> rfl

theorem rows_folded : db.folded.rows name = db.rows name := by
  rw [rows, rows, get?_folded]
  cases db.tables.get? name <;> rfl

theorem columns_fold : db.columns (fold name) = db.columns name := by
  rw [columns, columns, Names.get?_congr (fold_fold name)]

theorem rows_fold : db.rows (fold name) = db.rows name := by
  rw [rows, rows, Names.get?_congr (fold_fold name)]

end Database

theorem listed_fold (names : List String) (name : String) :
    listed (names.map fold) (fold name) = listed names name := by
  simp [listed, Function.comp_def, fold_fold]

theorem Visible.has_folded (v : Visible) (qualifier column : String) :
    v.folded.has (fold qualifier) (fold column) = v.has qualifier column := by
  simp only [has, folded, List.any_map, Function.comp_def, fold_fold, listed_fold]

theorem Item.cell?_folded (column : String) (columns : List (String × Option ColumnType)) (row : Row) :
    cell? (fold column) (foldColumns columns) row = cell? column columns row := by
  induction columns generalizing row with
  | nil => cases row <;> rfl
  | cons first rest ih =>
    obtain ⟨name, type⟩ := first
    cases row with
    | nil => rfl
    | cons v row =>
      simp only [foldColumns, List.map_cons, cell?, fold_fold]
      rw [← ih row]
      rfl

theorem Scope.get?_folded (scope : Scope) (qualifier column : String) :
    scope.folded.get? (fold qualifier) (fold column) = scope.get? qualifier column := by
  have item (i : Item) : i.folded.get? (fold column) = i.get? column :=
    Item.cell?_folded column i.columns i.row
  have frame (f : Frame) : f.folded.get? (fold qualifier) (fold column) = f.get? qualifier column := by
    rw [Frame.get?, Frame.folded, List.findSome?_map]
    refine congrArg (List.findSome? · f) (funext fun i => ?_)
    simp only [Function.comp_apply, item]
    rw [show fold i.folded.name = fold i.name from fold_fold i.name, fold_fold]
  rw [get?, folded, List.findSome?_map]
  exact congrArg (List.findSome? · scope) (funext frame)


-- What reading something as a whole comes to: the first of its columns that nothing has refuses it.
def Settles {α : Type} (unresolved : List String) (P : α → Prop) (result : Except Fault α) : Prop :=
  match unresolved with
  | [] => ∃ a, result = .ok a ∧ P a
  | name :: _ => result = .error (.noColumn name)

namespace Settles

variable {α β : Type} {names more : List String} {P : α → Prop} {Q : β → Prop}
  {result : Except Fault α}

theorem ok {a : α} (holds : P a) : Settles [] P (.ok a) := ⟨a, rfl, holds⟩

theorem mono {P' : α → Prop} (here : Settles names P result) (next : ∀ a, P a → P' a) :
    Settles names P' result := by
  cases names with
  | nil =>
    obtain ⟨a, ran, holds⟩ := here
    exact ⟨a, ran, next a holds⟩
  | cons _ _ => exact here

theorem bind {f : α → Except Fault β} (here : Settles names P result)
    (next : ∀ a, P a → Settles more Q (f a)) : Settles (names ++ more) Q (result >>= f) := by
  cases names with
  | nil =>
    obtain ⟨a, rfl, holds⟩ := here
    exact next a holds
  | cons name rest =>
    have refused : result = .error (.noColumn name) := here
    rw [refused]
    rfl

theorem map {f : α → β} (here : Settles names P result) (next : ∀ a, P a → Q (f a)) :
    Settles names Q (result >>= fun a => .ok (f a)) := by
  have both : Settles (names ++ []) Q (result >>= fun a => .ok (f a)) :=
    here.bind fun a holds => ok (next a holds)
  rwa [List.append_nil] at both

end Settles

-- An expression that has, over the tables as an archive keeps them, the values of another one.
def Expr.IsRead (db : Database) (e e' : Expr) : Prop :=
  ∀ k scope, e'.eval ⟨db.folded, k⟩ (Scope.folded scope) = e.eval ⟨db, k⟩ scope

structure Expr.AllRead (db : Database) (es es' : List Expr) : Prop where
  values : ∀ k scope, Expr.evalAll ⟨db.folded, k⟩ (Scope.folded scope) es' = Expr.evalAll ⟨db, k⟩ scope es
  holding : ∀ k scope, Expr.allHold ⟨db.folded, k⟩ (Scope.folded scope) es' = Expr.allHold ⟨db, k⟩ scope es

def Source.AllRead (db : Database) (sources sources' : List Source) : Prop :=
  ∀ k scope frame, Source.frames ⟨db.folded, k⟩ (Scope.folded scope) (Frame.folded frame) sources' =
    (Source.frames ⟨db, k⟩ scope frame sources).map Frame.folded

structure Select.IsRead (db : Database) (s s' : Select) : Prop where
  distinct : s'.distinct = s.distinct
  frames : ∀ k scope, s'.frames ⟨db.folded, k⟩ (Scope.folded scope) =
    (s.frames ⟨db, k⟩ scope).map Frame.folded
  projected : ∀ k, s'.projected ⟨db.folded, k⟩ = s.projected ⟨db, k⟩

theorem concatenate_concatenate (values : List Value) (last : Value) :
    concatenate [concatenate values, last] = concatenate (values ++ [last]) := by
  have text (s : String) : (Value.text s).toText? = some s := rfl
  have null : Value.null.toText? = none := rfl
  unfold concatenate
  rw [List.mapM_append]
  cases values.mapM Value.toText? with
  | none => simp [null]
  | some texts =>
    cases shown : last.toText? with
    | none => simp [text, shown]
    | some s => simp [text, shown, String.join]

def Expr.nested : List Expr → Expr
  | [] => .text ""
  | e :: rest => rest.foldl (fun left right => .concat [left, right]) e

theorem Syntax.Expr.resolve_foldl (db : Database) (around : List Visible) (rest : List Syntax.Expr)
    (first : Syntax.Expr) :
    (rest.foldl .concat first).resolve db around =
      first.resolve db around >>= fun e => Syntax.Expr.resolveAll db around rest >>= fun es =>
        .ok (es.foldl (fun left right => .concat [left, right]) e) := by
  induction rest generalizing first with
  | nil =>
    simp only [List.foldl_nil, Syntax.Expr.resolveAll]
    cases first.resolve db around <;> rfl
  | cons e rest ih =>
    rw [List.foldl_cons, ih]
    simp only [Syntax.Expr.resolve, Syntax.Expr.resolveAll]
    cases first.resolve db around with
    | error fault => rfl
    | ok first =>
      cases e.resolve db around with
      | error fault => rfl
      | ok e =>
        cases Syntax.Expr.resolveAll db around rest <;> rfl

theorem Syntax.Expr.resolve_concatenated (db : Database) (around : List Visible)
    (es : List Syntax.Expr) :
    (Syntax.Expr.concatenated es).resolve db around =
      Syntax.Expr.resolveAll db around es >>= fun es => .ok (Expr.nested es) := by
  cases es with
  | nil => simp only [Syntax.Expr.concatenated, Syntax.Expr.resolve, Syntax.Expr.resolveAll]; rfl
  | cons e rest =>
    rw [Syntax.Expr.concatenated, Syntax.Expr.resolve_foldl]
    simp only [Syntax.Expr.resolveAll]
    cases e.resolve db around with
    | error fault => rfl
    | ok e => cases Syntax.Expr.resolveAll db around rest <;> rfl

theorem Expr.eval_foldl (w : World) (scope : Scope) (rest : List Expr) (first : Expr)
    (values : List Value) (before : first.eval w scope = ⟨concatenate values, none⟩) :
    (rest.foldl (fun left right => .concat [left, right]) first).eval w scope =
      ⟨concatenate (values ++ Expr.evalAll w scope rest), none⟩ := by
  induction rest generalizing first values with
  | nil => simpa [Expr.evalAll] using before
  | cons e rest ih =>
    have next : (Expr.concat [first, e]).eval w scope =
        ⟨concatenate (values ++ [(e.eval w scope).value]), none⟩ := by
      simp only [Expr.eval, Expr.evalAll, before, concatenate_concatenate]
    rw [List.foldl_cons, ih _ _ next]
    simp only [Expr.evalAll, List.append_assoc, List.singleton_append]

theorem Expr.eval_nested (w : World) (scope : Scope) (es : List Expr) (several : 1 < es.length) :
    (Expr.nested es).eval w scope = ⟨concatenate (Expr.evalAll w scope es), none⟩ := by
  match es, several with
  | first :: second :: rest, _ =>
    have two : (Expr.concat [first, second]).eval w scope =
        ⟨concatenate [(first.eval w scope).value, (second.eval w scope).value], none⟩ := by
      simp only [Expr.eval, Expr.evalAll]
    rw [Expr.nested, List.foldl_cons, Expr.eval_foldl w scope rest _ _ two]
    simp only [Expr.evalAll, List.cons_append, List.nil_append]

theorem Expr.length_evalAll (w : World) (scope : Scope) (es : List Expr) :
    (Expr.evalAll w scope es).length = es.length := by
  rw [Expr.evalAll_eq_map, List.length_map]

theorem Expr.allRead_nil (db : Database) : Expr.AllRead db [] [] :=
  ⟨fun _ _ => rfl, fun _ _ => rfl⟩

theorem Expr.AllRead.cons {db : Database} {e e' : Expr} {es es' : List Expr} (first : e.IsRead db e')
    (rest : Expr.AllRead db es es') : Expr.AllRead db (e :: es) (e' :: es') where
  values k scope := by simp only [Expr.evalAll, first k scope, rest.values k scope]
  holding k scope := by simp only [Expr.allHold, first k scope, rest.holding k scope]

-- A one stands where no condition does.
theorem Expr.allHold_one (w : World) (scope : Scope) : Expr.allHold w scope [.integer 1] = true := rfl

theorem Source.visible_written {db : Database} {sources : List Source}
    (plain : Source.allPlain sources = true) :
    (Source.writtenAll sources).map (Syntax.Source.visible db.folded) =
      (Source.visible db sources).folded := by
  induction sources with
  | nil => rfl
  | cons s rest ih =>
    obtain ⟨table, qualifier, outer, on⟩ := s
    simp only [Source.allPlain, plainName, Bool.and_eq_true, decide_eq_true_eq] at plain
    obtain ⟨⟨⟨⟨named, called⟩, -⟩, -⟩, others⟩ := plain
    rw [Source.writtenAll, List.map_cons, ih others, Syntax.Source.visible, Option.getD_some, named,
      called, Database.columns_fold, Database.columns_folded, map_fst_foldColumns]
    rfl

section Reading

variable {db : Database}

theorem Source.allRead_cons {table qualifier : String} {outer : Bool} {on on' : List Expr}
    {rest rest' : List Source}
    (tested : outer = true → ∀ k scope, Expr.allHold ⟨db.folded, k⟩ (Scope.folded scope) on' =
      Expr.allHold ⟨db, k⟩ scope on)
    (others : Source.AllRead db rest rest') :
    Source.AllRead db (.mk table qualifier outer on :: rest)
      (.mk (fold table) (fold qualifier) outer on' :: rest') := by
  intro k scope frame
  have items : (db.rows table).map (Item.mk (fold qualifier) (foldColumns (db.columns table))) =
      ((db.rows table).map (Item.mk qualifier (db.columns table))).map Item.folded := by
    rw [List.map_map]
    rfl
  have next (i : Item) : Source.frames ⟨db.folded, k⟩ (Scope.folded scope)
      (i.folded :: Frame.folded frame) rest' =
      (Source.frames ⟨db, k⟩ scope (i :: frame) rest).map Frame.folded := others k scope (i :: frame)
  simp only [Source.frames, Database.columns_folded, Database.rows_folded, Database.columns_fold,
    Database.rows_fold, items]
  cases outer with
  | false => simp [List.flatMap_map, List.map_flatMap, next]
  | true =>
    have held (i : Item) : Expr.allHold ⟨db.folded, k⟩ ((i.folded :: Frame.folded frame) ::
        Scope.folded scope) on' = Expr.allHold ⟨db, k⟩ ((i :: frame) :: scope) on :=
      tested rfl k ((i :: frame) :: scope)
    have unmatched : (⟨fold qualifier, foldColumns (db.columns table),
        (foldColumns (db.columns table)).map fun _ => .null⟩ : Item) =
        Item.folded ⟨qualifier, db.columns table, (db.columns table).map fun _ => .null⟩ := by
      rw [Item.folded, foldColumns, List.map_map]
      rfl
    simp only [↓reduceIte, List.filter_map, Function.comp_def, held, List.isEmpty_map, unmatched]
    split
    · simp [next]
    · simp [List.flatMap_map, List.map_flatMap, next]

theorem Select.project_one (w : World) (frame : Frame) :
    Select.project w [.integer 1] frame = Select.project w [] frame := rfl

theorem Select.project_read {projection projection' : List Expr}
    (read : Expr.AllRead db projection projection')
    (k : Int) (frame : Frame) :
    Select.project ⟨db.folded, k⟩ projection' (Frame.folded frame) =
      Select.project ⟨db, k⟩ projection frame := by
  have values : Expr.evalAll ⟨db.folded, k⟩ [Frame.folded frame] projection' =
      Expr.evalAll ⟨db, k⟩ [frame] projection := read.values k [frame]
  have lengths : projection'.length = projection.length := by
    rw [← Expr.length_evalAll ⟨db.folded, k⟩ [Frame.folded frame], values, Expr.length_evalAll]
  have empty : projection'.isEmpty = projection.isEmpty := by
    rw [Bool.eq_iff_iff, List.isEmpty_iff_length_eq_zero, List.isEmpty_iff_length_eq_zero, lengths]
  rw [project, project, empty, values]

theorem Select.isRead_mk {distinct : Bool} {projection projection' conditions conditions' : List Expr}
    {sources sources' : List Source}
    (projected : ∀ k frame, Select.project ⟨db.folded, k⟩ projection' (Frame.folded frame) =
      Select.project ⟨db, k⟩ projection frame)
    (tested : Expr.AllRead db conditions conditions') (joined : Source.AllRead db sources sources') :
    Select.IsRead db (.mk distinct projection sources conditions)
      (.mk distinct projection' sources' conditions') := by
  have frames (k : Int) (scope : Scope) :
      (Select.mk distinct projection' sources' conditions').frames ⟨db.folded, k⟩ (Scope.folded scope) =
      ((Select.mk distinct projection sources conditions).frames ⟨db, k⟩ scope).map Frame.folded := by
    have held (f : Frame) : Expr.allHold ⟨db.folded, k⟩ (Frame.folded f :: Scope.folded scope) conditions' =
        Expr.allHold ⟨db, k⟩ (f :: scope) conditions := tested.holding k (f :: scope)
    have all : Source.frames ⟨db.folded, k⟩ (Scope.folded scope) [] sources' =
        (Source.frames ⟨db, k⟩ scope [] sources).map Frame.folded := joined k scope []
    simp only [Select.frames, all, List.filter_map, Function.comp_def, held]
  refine ⟨rfl, frames, fun k => ?_⟩
  have own := frames k []
  rw [Select.projected, Select.projected]
  change ((Select.mk distinct projection' sources' conditions').frames ⟨db.folded, k⟩ (Scope.folded [])).map
    (Select.project ⟨db.folded, k⟩ projection') = List.map (Select.project ⟨db, k⟩ projection) _
  rw [own, List.map_map]
  exact List.map_congr_left fun frame _ => projected k frame

mutual

theorem Expr.resolve_written : (e : Expr) → e.isPlain = true → ∀ around,
    Settles (e.unresolved db around) (e.IsRead db)
      (e.written.resolve db.folded (around.map Visible.folded))
  | .column qualifier name, plain, around => by
    simp only [Expr.isPlain, plainName, Bool.and_eq_true, decide_eq_true_eq] at plain
    simp only [Expr.written, Syntax.Expr.resolve, Expr.unresolved, plain.1, plain.2, List.any_map,
      Function.comp_def, Visible.has_folded]
    split
    · exact .ok fun k scope => by simp only [Expr.eval, Scope.get?_folded]
    · rfl
  | .integer _, _, _ | .text _, _, _ | .null, _, _ | .param _, _, _ => by
    simp only [Expr.written, Syntax.Expr.resolve, Expr.unresolved]
    exact .ok fun k scope => by simp only [Expr.eval]
  | .typedNull type, _, _ => by
    simp only [Expr.written, Syntax.Expr.resolve, Expr.unresolved]
    exact .ok fun k scope => by cases type <;> rfl
  | .binary _ left right, plain, around => by
    simp only [Expr.isPlain, Bool.and_eq_true] at plain
    simp only [Expr.written, Syntax.Expr.resolve, Expr.unresolved]
    refine (Expr.resolve_written left plain.1 around).bind fun left' first => ?_
    refine (Expr.resolve_written right plain.2 around).map fun right' second k scope => ?_
    simp only [Expr.eval, first k scope, second k scope]
  | .call _ args, plain, around => by
    simp only [Expr.isPlain] at plain
    simp only [Expr.written, Syntax.Expr.resolve, Expr.unresolved]
    refine (Expr.resolveAll_written args plain around).map fun args' read k scope => ?_
    simp only [Expr.eval, read.values k scope]
  | .cast e _, plain, around => by
    simp only [Expr.isPlain] at plain
    simp only [Expr.written, Syntax.Expr.resolve, Expr.unresolved]
    refine (Expr.resolve_written e plain around).map fun e' read k scope => ?_
    have same := read k scope
    simp only [Expr.eval, same]
  | .concat parts, plain, around => by
    simp only [Expr.isPlain, Bool.and_eq_true, decide_eq_true_eq] at plain
    simp only [Expr.written, Syntax.Expr.resolve_concatenated, Expr.unresolved]
    refine (Expr.resolveAll_written parts plain.2 around).map fun parts' read k scope => ?_
    have length : parts'.length = parts.length := by
      rw [← Expr.length_evalAll ⟨db.folded, k⟩ (Scope.folded scope), read.values k scope,
        Expr.length_evalAll]
    rw [Expr.eval_nested _ _ _ (by omega), read.values k scope, Expr.eval]
  | .nullCase e onNull otherwise, plain, around => by
    simp only [Expr.isPlain, Bool.and_eq_true] at plain
    obtain ⟨⟨tested, null⟩, other⟩ := plain
    simp only [Expr.written, Syntax.Expr.resolve, Expr.unresolved, List.append_assoc]
    refine (Expr.resolve_written e tested around).bind fun e' first => ?_
    refine (Expr.resolve_written onNull null around).bind fun onNull' second => ?_
    refine (Expr.resolve_written otherwise other around).map fun otherwise' third k scope => ?_
    simp only [Expr.eval, first k scope, second k scope, third k scope]
  | .exists _ query, plain, around => by
    simp only [Expr.isPlain] at plain
    simp only [Expr.written, Syntax.Expr.resolve, Expr.unresolved]
    refine (Select.resolve_written query plain around).map fun query' read k scope => ?_
    simp only [Expr.eval, read.frames k scope, List.isEmpty_map]

theorem Expr.resolveAll_written : (es : List Expr) → Expr.allPlain es = true → ∀ around,
    Settles (Expr.allUnresolved db around es) (Expr.AllRead db es)
      (Syntax.Expr.resolveAll db.folded (around.map Visible.folded) (Expr.writtenAll es))
  | [], _, _ => by
    simp only [Expr.writtenAll, Syntax.Expr.resolveAll, Expr.allUnresolved]
    exact .ok (Expr.allRead_nil db)
  | e :: rest, plain, around => by
    simp only [Expr.allPlain, Bool.and_eq_true] at plain
    simp only [Expr.writtenAll, Syntax.Expr.resolveAll, Expr.allUnresolved]
    refine (Expr.resolve_written e plain.1 around).bind fun e' first => ?_
    exact (Expr.resolveAll_written rest plain.2 around).map fun rest' others =>
      Expr.AllRead.cons first others

theorem Source.resolveAll_written : (sources : List Source) → Source.allPlain sources = true →
    ∀ around, Settles (Source.unresolved db around sources) (Source.AllRead db sources)
      (Syntax.Source.resolveAll db.folded (around.map Visible.folded) (Source.writtenAll sources))
  | [], _, _ => by
    simp only [Source.writtenAll, Syntax.Source.resolveAll, Source.unresolved]
    exact .ok fun k scope frame => by simp only [Source.frames, List.map_cons, List.map_nil]
  | .mk table qualifier outer on :: rest, plain, around => by
    simp only [Source.allPlain, plainName, Bool.and_eq_true, decide_eq_true_eq, Bool.or_eq_true] at plain
    obtain ⟨⟨⟨⟨named, called⟩, placed⟩, conditions⟩, others⟩ := plain
    simp only [Source.writtenAll, Syntax.Source.resolveAll, Source.unresolved, Option.getD_some, named,
      called]
    have conditionsRead : Settles (Expr.allUnresolved db around on)
        (fun on' => outer = true → ∀ k scope, Expr.allHold ⟨db.folded, k⟩ (Scope.folded scope) on' =
          Expr.allHold ⟨db, k⟩ scope on)
        (Syntax.Expr.resolveAll db.folded (around.map Visible.folded)
          (if !outer then [] else if on.isEmpty then [.integer 1] else Expr.writtenAll on)) := by
      have read := Expr.resolveAll_written on conditions around
      cases outer with
      | false =>
        have none : on = [] := by simpa using placed
        rw [none]
        refine .ok fun impossible => ?_
        cases impossible
      | true =>
        cases on with
        | nil => exact .ok fun _ _ _ => rfl
        | cons e more =>
          exact read.mono fun on' held _ => held.holding
    refine conditionsRead.bind fun on' tested => ?_
    exact (Source.resolveAll_written rest others around).map fun rest' joined =>
      Source.allRead_cons tested joined

theorem Select.resolve_written : (s : Select) → s.isPlain = true → ∀ around,
    Settles (s.unresolved db around) (s.IsRead db)
      (s.written.resolve db.folded (around.map Visible.folded))
  | .mk distinct projection sources conditions, plain, around => by
    simp only [Select.isPlain, Bool.and_eq_true] at plain
    obtain ⟨⟨projected, tested⟩, joined⟩ := plain
    simp only [Select.written, Syntax.Select.resolve, Select.unresolved, List.append_assoc,
      Source.visible_written joined]
    have results : Settles (Expr.allUnresolved db (Source.visible db sources :: around) projection)
        (fun projection' => ∀ k frame, Select.project ⟨db.folded, k⟩ projection' (Frame.folded frame) =
          Select.project ⟨db, k⟩ projection frame)
        (Syntax.Expr.resolveAll db.folded
          ((Source.visible db sources).folded :: around.map Visible.folded)
          (if projection.isEmpty then [.integer 1] else Expr.writtenAll projection)) := by
      cases projection with
      | nil => exact .ok fun k frame => Select.project_one _ _
      | cons e more =>
        have read := Expr.resolveAll_written (e :: more) projected (Source.visible db sources :: around)
        exact read.mono fun projection' shown => Select.project_read shown
    refine results.bind fun projection' shown => ?_
    refine (Expr.resolveAll_written conditions tested _).bind fun conditions' held => ?_
    exact (Source.resolveAll_written sources joined _).map fun sources' all =>
      Select.isRead_mk shown held all

end

end Reading

namespace Query

-- What the text of a query reads as: its arms, and behind them the rows that are kept out.
def combination (q : Query) : Syntax.Combination := if q.all then .unionAll else .union

def parts (q : Query) : List (Syntax.Combination × Select) :=
  q.selects.tail.map (q.combination, ·) ++ q.except.toList.map (.except, ·)

def written (q : Query) : Syntax.Query where
  first := (q.selects.head?.map Select.written).getD (.mk false [] [] [])
  more := q.parts.map fun (how, s) => (how, s.written)

-- There is an arm, and all have one width.
def isPlain (q : Query) : Bool :=
  !q.selects.isEmpty && q.checked.all fun s =>
    s.isPlain && s.written.width = q.written.first.width

def IsRead (db : Database) (q q' : Query) : Prop := ∀ k, q'.rows ⟨db.folded, k⟩ = q.rows ⟨db, k⟩

variable {db : Database}

def ArmRead (db : Database) (arm arm' : Syntax.Combination × Select) : Prop :=
  arm'.1 = arm.1 ∧ arm.2.IsRead db arm'.2

theorem resolveMore_written {width : Nat} {pairs : List (Syntax.Combination × Select)}
    (plain : ∀ arm ∈ pairs, arm.2.isPlain = true ∧ arm.2.written.width = width) :
    Settles (pairs.reverse.flatMap fun arm => arm.2.unresolved db [])
      (List.Forall₂ (ArmRead db) pairs)
      (Syntax.Query.resolveMore db.folded (pairs.map fun arm => (arm.1, arm.2.written))) := by
  induction pairs with
  | nil => exact .ok .nil
  | cons arm rest ih =>
    obtain ⟨how, s⟩ := arm
    obtain ⟨⟨own, wide⟩, others⟩ := List.forall_mem_cons.mp plain
    rw [List.reverse_cons, List.flatMap_append, List.flatMap_singleton, List.map_cons,
      Syntax.Query.resolveMore]
    refine (ih others).bind fun rest' read => ?_
    have cons (s' : Select) (readHere : s.IsRead db s') :
        List.Forall₂ (ArmRead db) ((how, s) :: rest) ((how, s') :: rest') := .cons ⟨rfl, readHere⟩ read
    cases rest with
    | nil => exact (Select.resolve_written s own []).map cons
    | cons next more =>
      have same : s.written.width = next.2.written.width :=
        wide.trans (List.forall_mem_cons.mp others).1.2.symm
      simp only [List.map_cons, same, ↓reduceIte]
      exact (Select.resolve_written s own []).map cons

theorem flatMap_read {f g : Select → List Row} {selects selects' : List Select}
    (read : List.Forall₂ (Select.IsRead db) selects selects')
    (same : ∀ s s', s.IsRead db s' → f s' = g s) : selects'.flatMap f = selects.flatMap g := by
  induction read with
  | nil => rfl
  | cons here _ ih => rw [List.flatMap_cons, List.flatMap_cons, same _ _ here, ih]

theorem rows_read {q q' : Query} (selects : List.Forall₂ (Select.IsRead db) q.selects q'.selects)
    (except : Option.Rel (Select.IsRead db) q.except q'.except)
    (all : (q'.all || decide (q'.selects.length ≤ 1)) = (q.all || decide (q.selects.length ≤ 1))) :
    q.IsRead db q' := by
  intro k
  have projected : q'.selects.flatMap (Select.projected ⟨db.folded, k⟩) =
      q.selects.flatMap (Select.projected ⟨db, k⟩) := flatMap_read selects fun _ _ here => here.projected k
  have rows : q'.selects.flatMap (Select.rows ⟨db.folded, k⟩) =
      q.selects.flatMap (Select.rows ⟨db, k⟩) := flatMap_read selects fun _ _ here => by
    rw [Select.rows, Select.rows, here.distinct, here.projected k]
  rw [Query.rows, Query.rows, projected, rows]
  obtain ⟨arms, all', excepted⟩ := q
  obtain ⟨arms', all'', excepted'⟩ := q'
  cases except with
  | none => simp only [all]
  | some here => simp only [here.projected k]

theorem filter_armRead {p : Syntax.Combination → Bool}
    {pairs pairs' : List (Syntax.Combination × Select)} (read : List.Forall₂ (ArmRead db) pairs pairs') :
    List.Forall₂ (Select.IsRead db) ((pairs.filter (p ·.1)).map Prod.snd)
      ((pairs'.filter (p ·.1)).map Prod.snd) := by
  induction read with
  | nil => exact .nil
  | @cons arm arm' _ _ here _ ih =>
    rw [List.filter_cons, List.filter_cons, here.1]
    split
    · exact .cons here.2 ih
    · exact ih

theorem reverse_toList {α : Type} (o : Option α) : o.toList.reverse = o.toList := by cases o <;> rfl

theorem checked_eq {q : Query} {first : Select} {rest : List Select} (shape : q.selects = first :: rest) :
    q.checked = (((Syntax.Combination.union, first) :: q.parts).map Prod.snd).reverse := by
  simp [checked, parts, shape, Function.comp_def, reverse_toList]

theorem kept_parts {q : Query} {first : Select} {rest : List Select} (shape : q.selects = first :: rest) :
    (((Syntax.Combination.union, first) :: q.parts).filter (·.1 ≠ .except)).map Prod.snd = q.selects := by
  have kept : q.combination ≠ .except := by unfold combination; split <;> decide
  simp [parts, shape, List.filter_map, Function.comp_def, kept]

theorem except_parts {q : Query} {first : Select} {rest : List Select}
    (shape : q.selects = first :: rest) :
    (((Syntax.Combination.union, first) :: q.parts).filter (·.1 = .except)).map Prod.snd =
      q.except.toList := by
  have kept : q.combination ≠ .except := by unfold combination; split <;> decide
  simp [parts, shape, List.filter_map, Function.comp_def, kept]

theorem any_parts {q : Query} {first : Select} {rest : List Select} (shape : q.selects = first :: rest) :
    (q.parts.any (·.1 = .unionAll)) = (q.all && !rest.isEmpty) := by
  rw [parts, shape, List.tail_cons]
  cases all : q.all <;> cases rest <;> simp [combination, all]

theorem resolve_written {q : Query} (plain : q.isPlain = true) :
    Settles (q.checked.flatMap (Select.unresolved db [])) (q.IsRead db)
      (q.written.resolve db.folded) := by
  simp only [isPlain, Bool.and_eq_true, List.all_eq_true, decide_eq_true_eq] at plain
  obtain ⟨nonempty, each⟩ := plain
  cases shape : q.selects with
  | nil => simp [shape] at nonempty
  | cons first rest =>
    have checked := checked_eq shape
    have pairs : ∀ arm ∈ (Syntax.Combination.union, first) :: q.parts,
        arm.2.isPlain = true ∧ arm.2.written.width = q.written.first.width := fun arm inside =>
      each arm.2 (checked ▸ List.mem_reverse.mpr (List.mem_map_of_mem inside))
    have read := @resolveMore_written db _ _ pairs
    have names : ((Syntax.Combination.union, first) :: q.parts).reverse.flatMap
        (fun arm => arm.2.unresolved db []) = q.checked.flatMap (Select.unresolved db []) := by
      rw [checked, ← List.map_reverse, List.flatMap_map]
    rw [names] at read
    have written : q.written.first = first.written := by simp [Query.written, shape]
    rw [Syntax.Query.resolve, written]
    refine read.map fun pairs' both => ?_
    have selects := filter_armRead (p := fun how => how ≠ .except) both
    have except := filter_armRead (p := fun how => how = .except) both
    rw [kept_parts shape] at selects
    rw [except_parts shape] at except
    refine rows_read selects ?_ ?_
    · change Option.Rel _ q.except ((pairs'.filter (·.1 = .except)).map Prod.snd).head?
      cases excepted : q.except with
      | none =>
        rw [excepted] at except
        rw [List.forall₂_nil_left_iff.mp except]
        exact .none
      | some s =>
        rw [excepted] at except
        obtain ⟨s', _, here, -, same⟩ := List.forall₂_cons_left_iff.mp except
        rw [same]
        exact .some here
    · have more : q.written.more.any (·.1 = .unionAll) = (q.all && !rest.isEmpty) := by
        rw [← any_parts shape, Query.written, List.any_map]
        rfl
      rw [more, ← selects.length_eq, shape]
      cases rest <;> simp

end Query

namespace InsertSource

def written : InsertSource → Syntax.InsertSource
  | .values es => .values (Expr.writtenAll es)
  | .query q => .query q.written

def isPlain : InsertSource → Bool
  | .values es => Expr.allPlain es
  | .query q => q.isPlain

def tables : InsertSource → List String
  | .values es => Expr.allTables es
  | .query q => q.checked.flatMap Select.tables

def unresolved (db : Database) : InsertSource → List String
  | .values es => Expr.allUnresolved db [] es
  | .query q => q.checked.flatMap (Select.unresolved db [])

theorem check_eq (db : Database) (source : InsertSource) :
    source.check db = checkNames db source.tables (source.unresolved db) := by
  cases source <;> rfl

theorem resolve_written {db : Database} {source : InsertSource} (plain : source.isPlain = true) :
    Settles (source.unresolved db)
      (fun source' => ∀ k, source'.rows ⟨db.folded, k⟩ = source.rows ⟨db, k⟩)
      (source.written.resolve db.folded) := by
  cases source with
  | values es =>
    exact (Expr.resolveAll_written es plain []).map fun es' read k =>
      congrArg (fun row => [row]) (read.values k [])
  | query q => exact (Query.resolve_written plain).map fun q' read k => read k

end InsertSource

section Resolved

variable {db : Database}

-- Tables that are read are among those that are written.
def Among (tables : List String) (written : List Syntax.Reading) : Prop :=
  ∀ name ∈ tables, ∃ reading ∈ written, name = key reading.1

theorem Among.append {tables more : List String} {written others : List Syntax.Reading}
    (first : Among tables written) (second : Among more others) :
    Among (tables ++ more) (written ++ others) := by
  intro name inside
  rcases List.mem_append.mp inside with here | there
  · obtain ⟨r, own, same⟩ := first name here
    exact ⟨r, List.mem_append_left _ own, same⟩
  · obtain ⟨r, own, same⟩ := second name there
    exact ⟨r, List.mem_append_right _ own, same⟩

theorem Among.nil {written : List Syntax.Reading} : Among [] written :=
  fun _ inside => (List.not_mem_nil inside).elim

theorem mem_ownersOf {around : List Visible} {column owner : String}
    (owned : owner ∈ Syntax.ownersOf around column) :
    around.any (·.has owner column) = true := by
  induction around with
  | nil => cases owned
  | cons v rest ih =>
    rw [List.any_cons, Bool.or_eq_true]
    cases owners : v.filter (·.2.contains column) with
    | nil =>
      have later : Syntax.ownersOf (v :: rest) column = Syntax.ownersOf rest column := by
        rw [Syntax.ownersOf, List.findSome?_cons, owners]
        rfl
      exact .inr (ih (later ▸ owned))
    | cons first more =>
      have here : Syntax.ownersOf (v :: rest) column =
          (v.filter (·.2.contains column)).map Prod.fst := by
        rw [Syntax.ownersOf, List.findSome?_cons, owners]
        rfl
      rw [here] at owned
      obtain ⟨entry, inside, rfl⟩ := List.mem_map.mp owned
      obtain ⟨own, listing⟩ := List.mem_filter.mp inside
      refine .inl (List.any_eq_true.mpr ⟨entry, own, ?_⟩)
      simp [listed_of_mem (List.contains_iff_mem.mp listing)]

mutual

theorem Expr.of_resolve : (e : Syntax.Expr) → ∀ {around e'},
    e.resolve db around = .ok e' → e'.unresolved db around = [] ∧ Among e'.tables e.tables
  | .column qualifier name, around, e', ran => by
    simp only [Syntax.Expr.resolve] at ran
    split at ran
    · rename_i present
      cases ran
      simp only [Expr.unresolved, present, Expr.tables, ↓reduceIte, true_and]
      exact Among.nil
    · cases ran
  | .name quoted name, around, e', ran => by
    simp only [Syntax.Expr.resolve] at ran
    split at ran
    · rename_i owner owners
      cases ran
      have present := mem_ownersOf (owners ▸ List.mem_singleton_self owner)
      simp only [Expr.unresolved, present, Expr.tables, ↓reduceIte, true_and]
      exact Among.nil
    · split at ran
      · cases ran
        exact ⟨rfl, Among.nil⟩
      · split at ran
        · cases ran
          exact ⟨rfl, Among.nil⟩
        · cases ran
    · cases ran
  | .integer _, _, _, ran | .text _, _, _, ran | .null, _, _, ran | .parameter, _, _, ran => by
    simp only [Syntax.Expr.resolve] at ran
    cases ran
    simp only [Expr.unresolved, Expr.tables, true_and]
    exact Among.nil
  | .binary _ left right, around, e', ran => by
    simp only [Syntax.Expr.resolve, Compiled.bind_ok] at ran
    obtain ⟨left', first, right', second, same⟩ := ran
    cases same
    obtain ⟨none, read⟩ := Expr.of_resolve left first
    obtain ⟨none', read'⟩ := Expr.of_resolve right second
    simp only [Expr.unresolved, none, none', List.append_nil, Expr.tables, Syntax.Expr.tables, true_and]
    exact read.append read'
  | .call _ args, around, e', ran => by
    simp only [Syntax.Expr.resolve, Compiled.bind_ok] at ran
    obtain ⟨args', all, same⟩ := ran
    cases same
    simp only [Expr.unresolved, Expr.tables, Syntax.Expr.tables]
    exact Expr.of_resolveAll args all
  | .cast e _, around, e', ran => by
    simp only [Syntax.Expr.resolve, Compiled.bind_ok] at ran
    obtain ⟨inner, own, same⟩ := ran
    cases same
    simp only [Expr.unresolved, Expr.tables, Syntax.Expr.tables]
    exact Expr.of_resolve e own
  | .concat left right, around, e', ran => by
    simp only [Syntax.Expr.resolve, Compiled.bind_ok] at ran
    obtain ⟨left', first, right', second, same⟩ := ran
    cases same
    obtain ⟨none, read⟩ := Expr.of_resolve left first
    obtain ⟨none', read'⟩ := Expr.of_resolve right second
    simp only [Expr.unresolved, Expr.allUnresolved, none, none', List.append_nil, Expr.tables,
      Expr.allTables, Syntax.Expr.tables, true_and]
    exact read.append read'
  | .nullCase e onNull otherwise, around, e', ran => by
    simp only [Syntax.Expr.resolve, Compiled.bind_ok] at ran
    obtain ⟨_, first, _, second, _, third, same⟩ := ran
    cases same
    obtain ⟨none, read⟩ := Expr.of_resolve e first
    obtain ⟨none', read'⟩ := Expr.of_resolve onNull second
    obtain ⟨none'', read''⟩ := Expr.of_resolve otherwise third
    simp only [Expr.unresolved, none, none', none'', List.append_nil, Expr.tables, Syntax.Expr.tables,
      true_and]
    exact (read.append read').append read''
  | .exists _ query, around, e', ran => by
    simp only [Syntax.Expr.resolve, Compiled.bind_ok] at ran
    obtain ⟨inner, own, same⟩ := ran
    cases same
    simp only [Expr.unresolved, Expr.tables, Syntax.Expr.tables]
    exact Select.of_resolve query own
  | .other parts, around, e', ran => by
    simp only [Syntax.Expr.resolve, Compiled.bind_ok] at ran
    obtain ⟨_, -, same⟩ := ran
    cases same
    exact ⟨rfl, Among.nil⟩

theorem Expr.of_resolveAll : (es : List Syntax.Expr) → ∀ {around es'},
    Syntax.Expr.resolveAll db around es = .ok es' →
      Expr.allUnresolved db around es' = [] ∧ Among (Expr.allTables es') (Syntax.Expr.allTables es)
  | [], around, es', ran => by
    simp only [Syntax.Expr.resolveAll] at ran
    cases ran
    exact ⟨rfl, Among.nil⟩
  | e :: rest, around, es', ran => by
    simp only [Syntax.Expr.resolveAll, Compiled.bind_ok] at ran
    obtain ⟨e', first, rest', others, same⟩ := ran
    cases same
    obtain ⟨none, read⟩ := Expr.of_resolve e first
    obtain ⟨none', read'⟩ := Expr.of_resolveAll rest others
    simp only [Expr.allUnresolved, none, none', List.append_nil, Expr.allTables, Syntax.Expr.allTables,
      true_and]
    exact read.append read'

theorem Source.of_resolveAll : (sources : List Syntax.Source) → ∀ {around sources'},
    Syntax.Source.resolveAll db around sources = .ok sources' →
      Source.unresolved db around sources' = [] ∧
      Source.visible db sources' = sources.map (Syntax.Source.visible db) ∧
      Among (Source.tables sources') (Syntax.Source.tables sources) ∧
      Among (Source.conditionTables sources') (Syntax.Source.conditionTables sources)
  | [], around, sources', ran => by
    simp only [Syntax.Source.resolveAll] at ran
    cases ran
    exact ⟨rfl, rfl, Among.nil, Among.nil⟩
  | .mk table called label outer on :: rest, around, sources', ran => by
    simp only [Syntax.Source.resolveAll, Compiled.bind_ok] at ran
    obtain ⟨on', tested, rest', others, same⟩ := ran
    cases same
    obtain ⟨none, read⟩ := Expr.of_resolveAll on tested
    obtain ⟨none', shown, joined, conditions⟩ := Source.of_resolveAll rest others
    refine ⟨?_, ?_, ?_, ?_⟩
    · simp only [Source.unresolved, none, none', List.append_nil]
    · rw [Source.visible, List.map_cons, ← Source.visible, shown]
      rfl
    · have own : Among [key table] [(table, called)] := fun name inside =>
        ⟨(table, called), List.mem_singleton_self _, List.mem_singleton.mp inside⟩
      exact own.append joined
    · exact read.append conditions

theorem Select.of_resolve : (s : Syntax.Select) → ∀ {around s'},
    s.resolve db around = .ok s' → s'.unresolved db around = [] ∧ Among s'.tables s.tables
  | .mk distinct projection sources conditions, around, s', ran => by
    simp only [Syntax.Select.resolve, Compiled.bind_ok] at ran
    obtain ⟨projection', shown, conditions', tested, sources', joined, same⟩ := ran
    cases same
    obtain ⟨none, read⟩ := Expr.of_resolveAll projection shown
    obtain ⟨none', read'⟩ := Expr.of_resolveAll conditions tested
    obtain ⟨none'', visible, tables, outer⟩ := Source.of_resolveAll sources joined
    simp only [Select.unresolved, visible, none, none', none'', List.append_nil, Select.tables,
      Syntax.Select.tables, true_and]
    exact ((tables.append read).append read').append outer

end

end Resolved

section Tables

theorem Syntax.Expr.allTables_append (es more : List Syntax.Expr) :
    Syntax.Expr.allTables (es ++ more) = Syntax.Expr.allTables es ++ Syntax.Expr.allTables more := by
  induction es with
  | nil => rfl
  | cons e rest ih => simp only [List.cons_append, Syntax.Expr.allTables, ih, List.append_assoc]

theorem Syntax.Expr.tables_foldl (rest : List Syntax.Expr) (first : Syntax.Expr) :
    (rest.foldl .concat first).tables = first.tables ++ Syntax.Expr.allTables rest := by
  induction rest generalizing first with
  | nil => simp [Syntax.Expr.allTables]
  | cons e rest ih =>
    rw [List.foldl_cons, ih]
    simp only [Syntax.Expr.tables, Syntax.Expr.allTables, List.append_assoc]

theorem Syntax.Expr.tables_concatenated (es : List Syntax.Expr) :
    (Syntax.Expr.concatenated es).tables = Syntax.Expr.allTables es := by
  cases es with
  | nil => simp only [Syntax.Expr.concatenated, Syntax.Expr.tables, Syntax.Expr.allTables]
  | cons e rest => rw [Syntax.Expr.concatenated, Syntax.Expr.tables_foldl, Syntax.Expr.allTables]

-- A table that is read, which is not called.
def reading (name : String) : Syntax.Reading := (name, false)

mutual

theorem Expr.tables_written : (e : Expr) → e.isPlain = true → e.written.tables = e.tables.map reading
  | .column _ _, _ | .integer _, _ | .text _, _ | .null, _ | .typedNull _, _ | .param _, _ => by
    simp only [Expr.written, Syntax.Expr.tables, Expr.tables, List.map_nil]
  | .binary _ left right, plain => by
    simp only [Expr.isPlain, Bool.and_eq_true] at plain
    simp only [Expr.written, Syntax.Expr.tables, Expr.tables, List.map_append,
      Expr.tables_written left plain.1, Expr.tables_written right plain.2]
  | .call _ args, plain => by
    simp only [Expr.isPlain] at plain
    simp only [Expr.written, Syntax.Expr.tables, Expr.tables, Expr.allTables_written args plain]
  | .cast e _, plain => by
    simp only [Expr.isPlain] at plain
    have own := Expr.tables_written e plain
    simp only [Expr.written, Syntax.Expr.tables, Expr.tables, own]
  | .concat parts, plain => by
    simp only [Expr.isPlain, Bool.and_eq_true] at plain
    simp only [Expr.written, Syntax.Expr.tables_concatenated, Expr.tables,
      Expr.allTables_written parts plain.2]
  | .nullCase e onNull otherwise, plain => by
    simp only [Expr.isPlain, Bool.and_eq_true] at plain
    simp only [Expr.written, Syntax.Expr.tables, Expr.tables, List.map_append,
      Expr.tables_written e plain.1.1, Expr.tables_written onNull plain.1.2,
      Expr.tables_written otherwise plain.2]
  | .exists _ query, plain => by
    simp only [Expr.isPlain] at plain
    simp only [Expr.written, Syntax.Expr.tables, Expr.tables, Select.tables_written query plain]

theorem Expr.allTables_written : (es : List Expr) → Expr.allPlain es = true →
    Syntax.Expr.allTables (Expr.writtenAll es) = (Expr.allTables es).map reading
  | [], _ => by simp only [Expr.writtenAll, Syntax.Expr.allTables, Expr.allTables, List.map_nil]
  | e :: rest, plain => by
    simp only [Expr.allPlain, Bool.and_eq_true] at plain
    simp only [Expr.writtenAll, Syntax.Expr.allTables, Expr.allTables, List.map_append,
      Expr.tables_written e plain.1, Expr.allTables_written rest plain.2]

theorem Source.tables_written : (sources : List Source) → Source.allPlain sources = true →
    Syntax.Source.tables (Source.writtenAll sources) = (Source.tables sources).map reading ∧
      Syntax.Source.conditionTables (Source.writtenAll sources) =
        (Source.conditionTables sources).map reading
  | [], _ => ⟨rfl, rfl⟩
  | .mk table _ outer on :: rest, plain => by
    simp only [Source.allPlain, Bool.and_eq_true, Bool.or_eq_true] at plain
    obtain ⟨⟨⟨-, placed⟩, conditions⟩, others⟩ := plain
    obtain ⟨joined, tested⟩ := Source.tables_written rest others
    have own := Expr.allTables_written on conditions
    refine ⟨?_, ?_⟩
    · simp only [Source.writtenAll, Syntax.Source.tables, Source.tables, List.map_cons, joined, reading]
    · simp only [Source.writtenAll, Syntax.Source.conditionTables, Source.conditionTables, tested,
        List.map_append, ← own]
      cases outer with
      | false =>
        have none : on = [] := by simpa using placed
        subst none
        rfl
      | true => cases on <;> rfl

theorem Select.tables_written : (s : Select) → s.isPlain = true → s.written.tables = s.tables.map reading
  | .mk _ projection sources conditions, plain => by
    simp only [Select.isPlain, Bool.and_eq_true] at plain
    obtain ⟨⟨projected, tested⟩, joined⟩ := plain
    obtain ⟨read, outer⟩ := Source.tables_written sources joined
    simp only [Select.written, Syntax.Select.tables, Select.tables, List.map_append, read, outer,
      Expr.allTables_written conditions tested, ← Expr.allTables_written projection projected]
    cases projection <;> rfl

end

theorem Query.tables_written {q : Query} (plain : q.isPlain = true) :
    q.written.tables = (q.checked.flatMap Select.tables).map reading := by
  simp only [isPlain, Bool.and_eq_true, List.all_eq_true, decide_eq_true_eq] at plain
  obtain ⟨nonempty, each⟩ := plain
  cases shape : q.selects with
  | nil => simp [shape] at nonempty
  | cons first rest =>
    have selects : q.written.selects.reverse = q.checked.map Select.written := by
      rw [checked_eq shape, Syntax.Query.selects, Query.written, shape]
      simp [Function.comp_def]
    rw [Syntax.Query.tables, selects, List.flatMap_map, List.map_flatMap]
    exact List.flatMap_congr fun s inside => Select.tables_written s (each s inside).1

theorem InsertSource.tables_written {source : InsertSource} (plain : source.isPlain = true) :
    source.written.tables = source.tables.map reading := by
  cases source with
  | values es => exact Expr.allTables_written es plain
  | query q => exact Query.tables_written plain

end Tables

end PeerExchange.Sql
