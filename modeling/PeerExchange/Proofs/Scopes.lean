import Mathlib.Data.List.Forall2
import Mathlib.Data.List.Nodup
import PeerExchange.Sql.Execution

namespace PeerExchange.Sql

variable {db : Database} {w : World}

@[simp] theorem fold_toList (name : String) : (fold name).toList = name.toList.map Char.toLower := by
  simp [fold]

theorem listed_of_mem {names : List String} {name : String} (inside : name ∈ names) :
    listed names name = true :=
  List.contains_iff_mem.mpr (List.mem_map_of_mem inside)

def Distinct (names : List String) : Prop := (names.map fold).Nodup

instance (names : List String) : Decidable (Distinct names) :=
  inferInstanceAs (Decidable (names.map fold).Nodup)

theorem Distinct.nodup {names : List String} (distinct : Distinct names) : names.Nodup :=
  List.Nodup.of_map fold distinct

theorem distinct_cons {name : String} {names : List String} :
    Distinct (name :: names) ↔ fold name ∉ names.map fold ∧ Distinct names := List.nodup_cons

namespace Names

variable {α : Type} {m : Names α} {name : String}

theorem contains_of_get? {value : α} (found : m.get? name = some value) : m.contains name = true := by
  rw [contains, found]
  rfl

theorem get?_of_contains (present : m.contains name = true) : ∃ value, m.get? name = some value :=
  Option.isSome_iff_exists.mp present

theorem contains_insert {value : α} {other : String} :
    (m.insert name value).contains other = true ↔ fold name = fold other ∨ m.contains other = true := by
  rw [contains, get?_insert]
  by_cases same : fold name = fold other
  · simp [same]
  · simp [same, contains]

theorem modify_absent {f : α → α} (absent : m.get? name = none) : m.modify name f = m := by
  rw [get?] at absent
  rw [modify, NameMap.modify, absent]

theorem get?_congr {other : String} (same : fold name = fold other) : m.get? name = m.get? other := by
  rw [get?, get?, same]

end Names

-- A column that is listed under a qualifier, both as they are written.
def Visible.lists (v : Visible) (qualifier column : String) : Bool :=
  v.any fun (name, columns) => name = qualifier && columns.contains column

mutual

def Expr.Within (v : Visible) : Expr → Prop
  | .column qualifier name => v.lists qualifier name = true
  | .binary _ left right => left.Within v ∧ right.Within v
  | .call _ args => Expr.AllWithin v args
  | .cast e _ => e.Within v
  | .concat parts => Expr.AllWithin v parts
  | .nullCase e onNull otherwise => e.Within v ∧ onNull.Within v ∧ otherwise.Within v
  | .exists _ _ => False
  | .integer _ | .text _ | .null | .typedNull _ | .param _ => True

def Expr.AllWithin (v : Visible) : List Expr → Prop
  | [] => True
  | e :: rest => e.Within v ∧ Expr.AllWithin v rest

end

@[simp] theorem Expr.allWithin_iff {v : Visible} {es : List Expr} :
    Expr.AllWithin v es ↔ ∀ e ∈ es, e.Within v := by
  induction es with
  | nil => simp [Expr.AllWithin]
  | cons e rest ih => simp [Expr.AllWithin, ih]

namespace Visible

theorem lists_append {v v' : Visible} {qualifier column : String} :
    (v ++ v').lists qualifier column = (v.lists qualifier column || v'.lists qualifier column) := by
  simp [lists, List.any_append]

theorem lists_iff {v : Visible} {qualifier column : String} :
    v.lists qualifier column = true ↔ ∃ columns, (qualifier, columns) ∈ v ∧ column ∈ columns := by
  simp [lists]

theorem has_of_lists {v : Visible} {qualifier column : String} (own : v.lists qualifier column = true) :
    v.has qualifier column = true := by
  obtain ⟨columns, inside, named⟩ := lists_iff.mp own
  refine List.any_eq_true.mpr ⟨_, inside, ?_⟩
  simp [listed_of_mem named]

def Covers (v' v : Visible) : Prop :=
  ∀ qualifier column, v.lists qualifier column = true → v'.lists qualifier column = true

def Shown (v : Visible) (around : List Visible) : Prop :=
  ∀ qualifier column, v.lists qualifier column = true →
    around.any (·.lists qualifier column) = true

theorem shown_cons {v : Visible} {around : List Visible} : v.Shown (v :: around) := by
  intro qualifier column present
  simp [present]

theorem shown_nil {around : List Visible} : Shown [] around := fun _ _ present => nomatch present

theorem shown_append {v inner : Visible} {around : List Visible} (shown : v.Shown around) :
    Shown (inner ++ v) (inner :: around) := by
  intro qualifier column present
  rw [lists_append, Bool.or_eq_true] at present
  rcases present with here | there
  · exact shown_cons qualifier column here
  · simp only [List.any_cons, shown qualifier column there, Bool.or_true]

end Visible

def Scope.AgreeOn (v : Visible) (scope scope' : Scope) : Prop :=
  ∀ qualifier column, v.lists qualifier column = true →
    scope.get? qualifier column = scope'.get? qualifier column

section Widening

variable {v v' : Visible}

mutual

theorem Expr.within_mono (wider : v'.Covers v) : (e : Expr) → e.Within v → e.Within v'
  | .column qualifier name, within => wider qualifier name within
  | .binary _ left right, ⟨inLeft, inRight⟩ =>
    ⟨Expr.within_mono wider left inLeft, Expr.within_mono wider right inRight⟩
  | .call _ args, within => Expr.allWithin_mono wider args within
  | .cast e _, within => Expr.within_mono wider e within
  | .concat parts, within => Expr.allWithin_mono wider parts within
  | .nullCase e onNull otherwise, ⟨tested, inNull, inOther⟩ =>
    ⟨Expr.within_mono wider e tested, Expr.within_mono wider onNull inNull,
      Expr.within_mono wider otherwise inOther⟩
  | .integer _, _ | .text _, _ | .null, _ | .typedNull _, _ | .param _, _ => trivial

theorem Expr.allWithin_mono (wider : v'.Covers v) :
    (es : List Expr) → Expr.AllWithin v es → Expr.AllWithin v' es
  | [], _ => trivial
  | e :: rest, ⟨first, others⟩ =>
    ⟨Expr.within_mono wider e first, Expr.allWithin_mono wider rest others⟩

end

end Widening

section Coincidence

variable {v : Visible} {scope scope' : Scope}

mutual

theorem Expr.eval_congr (agree : Scope.AgreeOn v scope scope') :
    (e : Expr) → e.Within v → e.eval w scope = e.eval w scope'
  | .column qualifier name, within => by simp only [Expr.eval, agree qualifier name within]
  | .binary _ left right, ⟨inLeft, inRight⟩ => by
    simp only [Expr.eval, Expr.eval_congr agree left inLeft, Expr.eval_congr agree right inRight]
  | .call _ args, within => by simp only [Expr.eval, Expr.evalAll_congr agree args within]
  | .cast e _, within => by
    have same := Expr.eval_congr agree e within
    simp only [Expr.eval, same]
  | .concat parts, within => by simp only [Expr.eval, Expr.evalAll_congr agree parts within]
  | .nullCase e onNull otherwise, ⟨tested, inNull, inOther⟩ => by
    simp only [Expr.eval, Expr.eval_congr agree e tested, Expr.eval_congr agree onNull inNull,
      Expr.eval_congr agree otherwise inOther]
  | .integer _, _ | .text _, _ | .null, _ | .typedNull _, _ | .param _, _ => by
    simp only [Expr.eval]

theorem Expr.evalAll_congr (agree : Scope.AgreeOn v scope scope') :
    (es : List Expr) → Expr.AllWithin v es →
    Expr.evalAll w scope es = Expr.evalAll w scope' es
  | [], _ => by simp only [Expr.evalAll]
  | e :: rest, ⟨first, others⟩ => by
    simp only [Expr.evalAll, Expr.eval_congr agree e first, Expr.evalAll_congr agree rest others]

end

end Coincidence

mutual

theorem Expr.tables_within {v : Visible} : (e : Expr) → e.Within v → e.tables = []
  | .column _ _, _ => by simp only [Expr.tables]
  | .binary _ left right, ⟨inLeft, inRight⟩ => by
    simp only [Expr.tables, Expr.tables_within left inLeft, Expr.tables_within right inRight,
      List.append_nil]
  | .call _ args, within => by simp only [Expr.tables, Expr.allTables_within args within]
  | .cast e _, within => by
    have none := Expr.tables_within e within
    simp only [Expr.tables, none]
  | .concat parts, within => by simp only [Expr.tables, Expr.allTables_within parts within]
  | .nullCase e onNull otherwise, ⟨tested, inNull, inOther⟩ => by
    simp only [Expr.tables, Expr.tables_within e tested, Expr.tables_within onNull inNull,
      Expr.tables_within otherwise inOther, List.append_nil]
  | .integer _, _ | .text _, _ | .null, _ | .typedNull _, _ | .param _, _ => by
    simp only [Expr.tables]

theorem Expr.allTables_within {v : Visible} : (es : List Expr) → Expr.AllWithin v es →
    Expr.allTables es = []
  | [], _ => by simp only [Expr.allTables]
  | e :: rest, ⟨first, others⟩ => by
    simp only [Expr.allTables, Expr.tables_within e first, Expr.allTables_within rest others,
      List.append_nil]

end

section Names

variable {v : Visible} {around : List Visible}

mutual

theorem Expr.unresolved_within (shown : v.Shown around) :
    (e : Expr) → e.Within v → e.unresolved db around = []
  | .column qualifier name, within => by
    obtain ⟨inner, listed, own⟩ := List.any_eq_true.mp (shown qualifier name within)
    rw [Expr.unresolved, if_pos (List.any_eq_true.mpr ⟨inner, listed, Visible.has_of_lists own⟩)]
  | .binary _ left right, ⟨inLeft, inRight⟩ => by
    simp only [Expr.unresolved, Expr.unresolved_within shown left inLeft,
      Expr.unresolved_within shown right inRight, List.append_nil]
  | .call _ args, within => by simp only [Expr.unresolved, Expr.allUnresolved_within shown args within]
  | .cast e _, within => by
    have none := Expr.unresolved_within shown e within
    simp only [Expr.unresolved, none]
  | .concat parts, within => by
    simp only [Expr.unresolved, Expr.allUnresolved_within shown parts within]
  | .nullCase e onNull otherwise, ⟨tested, inNull, inOther⟩ => by
    simp only [Expr.unresolved, Expr.unresolved_within shown e tested,
      Expr.unresolved_within shown onNull inNull, Expr.unresolved_within shown otherwise inOther,
      List.append_nil]
  | .integer _, _ | .text _, _ | .null, _ | .typedNull _, _ | .param _, _ => by
    simp only [Expr.unresolved]

theorem Expr.allUnresolved_within (shown : v.Shown around) :
    (es : List Expr) → Expr.AllWithin v es →
    Expr.allUnresolved db around es = []
  | [], _ => by simp only [Expr.allUnresolved]
  | e :: rest, ⟨first, others⟩ => by
    simp only [Expr.allUnresolved, Expr.unresolved_within shown e first,
      Expr.allUnresolved_within shown rest others, List.append_nil]

end

end Names

theorem checkNames_ok {tables unresolved : List String}
    (present : ∀ table ∈ tables, db.tables.contains table = true) (resolved : unresolved = []) :
    checkNames db tables unresolved = .ok () := by
  have none : tables.find? (!db.tables.contains ·) = none := by
    rw [List.find?_eq_none]
    intro table inside
    simp [present table inside]
  simp only [checkNames, none, resolved]

namespace Item

theorem cell?_isSome {column : String} {columns : List (String × Option ColumnType)} {row : Row}
    (full : row.length = columns.length) (named : column ∈ columns.map Prod.fst) :
    ∃ t, cell? column columns row = some t := by
  induction columns generalizing row with
  | nil => cases named
  | cons first rest ih =>
    cases row with
    | nil => cases full
    | cons v values =>
      obtain ⟨name, type⟩ := first
      by_cases here : fold name = fold column
      · exact ⟨⟨v, type⟩, by simp [cell?, here]⟩
      · have later : column ∈ rest.map Prod.fst :=
          (List.mem_cons.mp named).resolve_left fun same => here (congrArg fold same.symm)
        obtain ⟨t, found⟩ := ih (by simpa using full) later
        exact ⟨t, by simpa [cell?, here] using found⟩

end Item

namespace Frame

theorem get?_of_mem {f : Frame} {i : Item} {column : String} {t : Typed}
    (distinct : (f.map fun i => fold i.name).Nodup) (inside : i ∈ f) (found : i.get? column = some t) :
    f.get? i.name column = some t := by
  unfold get?
  induction f with
  | nil => cases inside
  | cons first rest ih =>
    rw [List.map_cons, List.nodup_cons] at distinct
    rcases List.mem_cons.mp inside with rfl | later
    · simp [found]
    · have other : fold first.name ≠ fold i.name := by
        intro same
        exact distinct.1 (same ▸ List.mem_map_of_mem (f := fun i : Item => fold i.name) later)
      simpa [other] using ih distinct.2 later

theorem get?_of_absent {f : Frame} {qualifier column : String}
    (absent : fold qualifier ∉ f.map fun i => fold i.name) : f.get? qualifier column = none := by
  unfold get?
  rw [List.findSome?_eq_none_iff]
  intro i inside
  have other : fold i.name ≠ fold qualifier := fun same =>
    absent (same ▸ List.mem_map_of_mem (f := fun i : Item => fold i.name) inside)
  simp [other]

end Frame

namespace Scope

theorem get?_congr {scope : Scope} {qualifier other column : String} (same : fold qualifier = fold other) :
    scope.get? qualifier column = scope.get? other column := by
  simp only [get?, Frame.get?, same]

theorem get?_of_frame {f : Frame} {outer : Scope} {qualifier column : String} {t : Typed}
    (found : f.get? qualifier column = some t) : get? (f :: outer) qualifier column = some t := by
  simp [get?, found]

theorem get?_of_outer {f : Frame} {outer : Scope} {qualifier column : String}
    (absent : f.get? qualifier column = none) :
    get? (f :: outer) qualifier column = get? outer qualifier column := by
  simp [get?, absent]

end Scope

namespace Source

variable {sources : List Source} {rows : List Row}

def item (db : Database) (s : Source) (row : Row) : Item := ⟨s.qualifier, db.columns s.table, row⟩

def frameOf (db : Database) (sources : List Source) (rows : List Row) : Frame :=
  (List.zipWith (item db) sources rows).reverse

def IsJoined (s : Source) : Prop := s = joined s.table s.qualifier

def RowsOf (db : Database) (sources : List Source) (rows : List Row) : Prop :=
  List.Forall₂ (fun s row => row ∈ db.rows s.table) sources rows

theorem mem_frames {scope : Scope} {frame f : Frame} (joined : ∀ s ∈ sources, s.IsJoined) :
    f ∈ Source.frames w scope frame sources ↔
      ∃ rows, RowsOf w.database sources rows ∧ f = frameOf w.database sources rows ++ frame := by
  induction sources generalizing frame with
  | nil =>
    simp only [Source.frames, List.mem_singleton, RowsOf, List.forall₂_nil_left_iff, frameOf]
    constructor
    · rintro rfl
      exact ⟨[], rfl, by simp⟩
    · rintro ⟨rows, rfl, rfl⟩
      simp
  | cons s rest ih =>
    have shape : s = mk s.table s.qualifier false [] := joined s List.mem_cons_self
    have others := fun s inside => joined s (List.mem_cons_of_mem _ inside)
    rw [shape]
    simp only [Source.frames, Bool.false_eq_true, if_false, List.mem_flatMap, List.mem_map]
    constructor
    · rintro ⟨_, ⟨row, stored, rfl⟩, later⟩
      obtain ⟨rows, each, rfl⟩ := (ih others).mp later
      exact ⟨row :: rows, .cons stored each, by simp [frameOf, item, table, qualifier]⟩
    · rintro ⟨rows, each, rfl⟩
      cases each with
      | cons stored each =>
        refine ⟨_, ⟨_, stored, rfl⟩, (ih others).mpr ⟨_, each, ?_⟩⟩
        simp [frameOf, item, table, qualifier]

theorem frameOf_names (same : sources.length = rows.length) :
    (frameOf db sources rows).map Item.name = (sources.map qualifier).reverse := by
  rw [frameOf, List.map_reverse]
  congr 1
  induction sources generalizing rows with
  | nil => rfl
  | cons s rest ih =>
    cases rows with
    | nil => cases same
    | cons row others => simp [item, ih (Nat.succ.inj same)]

theorem frameOf_folds (same : sources.length = rows.length) :
    ((frameOf db sources rows).map fun i => fold i.name) =
      (sources.map fun s => fold s.qualifier).reverse := by
  have names := congrArg (List.map fold) (@frameOf_names db _ _ same)
  rw [List.map_map, List.map_reverse, List.map_map] at names
  exact names

theorem item_mem_frameOf {s : Source} {row : Row} (chosen : (s, row) ∈ sources.zip rows) :
    item db s row ∈ frameOf db sources rows := by
  rw [frameOf, List.mem_reverse, ← List.map_uncurry_zip_eq_zipWith]
  exact List.mem_map.mpr ⟨_, chosen, rfl⟩

theorem frameOf_cell {s : Source} {row : Row} {column : String}
    (distinct : (sources.map fun s => fold s.qualifier).Nodup) (same : sources.length = rows.length)
    (chosen : (s, row) ∈ sources.zip rows) (full : row.length = (db.columns s.table).length)
    (named : column ∈ (db.columns s.table).map Prod.fst) :
    ∃ t, Item.cell? column (db.columns s.table) row = some t ∧
      (frameOf db sources rows).get? s.qualifier column = some t := by
  obtain ⟨t, found⟩ := Item.cell?_isSome full named
  refine ⟨t, found, Frame.get?_of_mem (i := item db s row) ?_ (item_mem_frameOf chosen) found⟩
  rw [frameOf_folds same]
  exact (List.reverse_perm _).nodup_iff.mpr distinct

theorem mem_visible {qualifier column : String} :
    (visible db sources).lists qualifier column = true ↔
      ∃ s ∈ sources, s.qualifier = qualifier ∧ column ∈ (db.columns s.table).map Prod.fst := by
  rw [Visible.lists_iff]
  constructor
  · rintro ⟨columns, listed, named⟩
    obtain ⟨s, inside, same⟩ := List.mem_map.mp listed
    cases same
    exact ⟨s, inside, rfl, named⟩
  · rintro ⟨s, inside, rfl, named⟩
    exact ⟨_, List.mem_map_of_mem inside, named⟩

end Source

end PeerExchange.Sql
