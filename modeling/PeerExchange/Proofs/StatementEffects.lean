import PeerExchange.Proofs.Compiled
import PeerExchange.Proofs.Retraction
import PeerExchange.Proofs.Running
import PeerExchange.Session.Memory

namespace PeerExchange

open Sql (Database Row Statement Table)

namespace Sql

variable {tables : String → Prop} {db db' db'' : Database} {s : Statement} {parameter : Int} {n : Nat}

def Statement.Edits (tables : String → Prop) : Statement → Prop
  | .insert table _ _ | .delete table _ => tables table
  | .createTable _ _ | .createView _ _ _ => False

theorem Statement.Edits.mono {wider : String → Prop} (within : ∀ table, tables table → wider table)
    (edits : s.Edits tables) : s.Edits wider := by
  cases s with
  | insert table columns source => exact within table edits
  | delete table conditions => exact within table edits
  | createTable => exact edits
  | createView => exact edits

namespace Database

def Elsewhere (tables : String → Prop) (name : String) : Prop :=
  ∀ table, tables table → fold table ≠ fold name

theorem elsewhere_singleton {table name : String} :
    Elsewhere (· = table) name ↔ fold table ≠ fold name := by
  simp [Elsewhere]

structure ChangesIn (tables : String → Prop) (db db' : Database) : Prop where
  kept : ∀ name, Elsewhere tables name → db'.tables.get? name = db.tables.get? name
  present : ∀ name, db'.tables.contains name = db.tables.contains name
  columns : ∀ name, db'.columns name = db.columns name
  views : db'.views = db.views

namespace ChangesIn

theorem refl (tables : String → Prop) (db : Database) : ChangesIn tables db db :=
  ⟨fun _ _ => rfl, fun _ => rfl, fun _ => rfl, rfl⟩

theorem trans (first : ChangesIn tables db db') (second : ChangesIn tables db' db'') :
    ChangesIn tables db db'' where
  kept name outside := (second.kept name outside).trans (first.kept name outside)
  present name := (second.present name).trans (first.present name)
  columns name := (second.columns name).trans (first.columns name)
  views := second.views.trans first.views

theorem rows (changes : ChangesIn tables db db') {name : String} (outside : Elsewhere tables name) :
    db'.rows name = db.rows name := by
  rw [Database.rows, Database.rows, changes.kept name outside]

theorem mono {wider : String → Prop} (within : ∀ table, tables table → wider table)
    (changes : ChangesIn tables db db') : ChangesIn wider db db' :=
  { changes with
    kept := fun name outside => changes.kept name fun table inside => outside table (within table inside) }

end ChangesIn

theorem changesIn_setRows {table : String} {rows : List Row} (inside : tables table) :
    ChangesIn tables db (db.setRows table rows) := by
  cases found : db.tables.get? table with
  | none =>
    have same : db.setRows table rows = db := by
      rw [setRows, Names.modify_absent found]
    rw [same]
    exact .refl tables db
  | some t =>
    refine ⟨fun name outside => ?_, fun name => ?_, fun name => ?_, rfl⟩
    · rw [tables_setRows found, if_neg (outside table inside)]
    · rw [Names.contains, Names.contains, tables_setRows found]
      split
      · rename_i same
        rw [← Names.get?_congr same, found]
        rfl
      · rfl
    · rw [columns, columns, tables_setRows found]
      split
      · rename_i same
        rw [← Names.get?_congr same, found]
        rfl
      · rfl

theorem target_ok {table : String} {t : Table} (found : db.target table = .ok t) :
    db.tables.get? table = some t := by
  unfold target at found
  split at found
  · cases found
    assumption
  · cases found

theorem execute_delete_ok {table : String} {conditions : List Expr}
    (ran : db.execute parameter (.delete table conditions) = .ok (db', n)) :
    ChangesIn (· = table) db db' ∧ db'.rows table = (db.rows table).filter fun row =>
      !Expr.allHold ⟨db, parameter⟩ [[⟨table, db.columns table, row⟩]] conditions := by
  rw [execute, delete] at ran
  obtain ⟨t, found, ran⟩ := Compiled.bind_ok.mp ran
  obtain ⟨⟨⟩, -, ran⟩ := Compiled.bind_ok.mp ran
  cases ran
  refine ⟨changesIn_setRows rfl, ?_⟩
  have found := target_ok found
  rw [rows_setRows found]
  simp [rows, columns, found, isSelected]

theorem execute_clearTable_ok {table : String}
    (ran : db.execute parameter (.clearTable table) = .ok (db', n)) :
    ChangesIn (· = table) db db' ∧ db'.rows table = [] := by
  obtain ⟨changes, rows⟩ := execute_delete_ok ran
  refine ⟨changes, rows.trans (List.filter_eq_nil_iff.mpr fun row _ => ?_)⟩
  exact Bool.false_ne_true

theorem insertRows_rows {table : String} {names : List String} {t : Table} {added : List Row}
    (found : db.tables.get? table = some t) :
    ChangesIn (· = table) db (db.insertRows table names t added).1 ∧
      (db.insertRows table names t added).1.rows table =
        db.rows table ++ added.map (t.fill names) := by
  refine ⟨changesIn_setRows rfl, ?_⟩
  rw [insertRows, rows_setRows found]
  simp [rows, found]

theorem execute_insert_ok {table : String} {names : List String} {source : InsertSource}
    (ran : db.execute parameter (.insert table names source) = .ok (db', n)) :
    ∃ t, db.tables.get? table = some t ∧ ChangesIn (· = table) db db' ∧
      db'.rows table = db.rows table ++ (source.rows ⟨db, parameter⟩).map (t.fill names) := by
  rw [execute, insert] at ran
  split at ran
  · cases ran
  · obtain ⟨t, found, ran⟩ := Compiled.bind_ok.mp ran
    obtain ⟨⟨⟩, -, ran⟩ := Compiled.bind_ok.mp ran
    obtain ⟨⟨⟩, -, ran⟩ := Compiled.bind_ok.mp ran
    cases ran
    exact ⟨t, target_ok found, insertRows_rows (target_ok found)⟩

theorem load_ok {table : String} {names : List String} {added : List Row}
    (ran : db.load table names added = .ok (db', n)) :
    ∃ t, db.tables.get? table = some t ∧ ChangesIn (· = table) db db' ∧
      db'.rows table = db.rows table ++ added.map (t.fill names) := by
  rw [load] at ran
  split at ran
  · cases ran
  · obtain ⟨t, found, ran⟩ := Compiled.bind_ok.mp ran
    obtain ⟨⟨⟩, -, ran⟩ := Compiled.bind_ok.mp ran
    cases ran
    exact ⟨t, target_ok found, insertRows_rows (target_ok found)⟩

theorem changesIn_execute (edits : s.Edits tables) (ran : db.execute parameter s = .ok (db', n)) :
    ChangesIn tables db db' := by
  cases s with
  | insert table columns source =>
    obtain ⟨t, -, changes, -⟩ := execute_insert_ok ran
    refine changes.mono ?_
    rintro other rfl
    exact edits
  | delete table conditions =>
    refine (execute_delete_ok ran).1.mono ?_
    rintro other rfl
    exact edits
  | createTable => cases edits
  | createView => cases edits

-- Statements one after the other, with the number of rows that they change.
inductive Executes (parameter : Int) : List Statement → Database → Nat → Database → Prop
  | nil (db : Database) : Executes parameter [] db 0 db
  | cons {s : Statement} {rest : List Statement} {db middle db' : Database} {n more : Nat}
    (here : db.execute parameter s = .ok (middle, n))
    (later : Executes parameter rest middle more db') :
    Executes parameter (s :: rest) db (n + more) db'

namespace Executes

variable {ss : List Statement} {P : Database → Prop}

theorem nothing (ran : Executes parameter [] db n db') : db' = db := by
  cases ran
  rfl

theorem single (ran : Executes parameter [s] db n db') : db.execute parameter s = .ok (db', n) := by
  cases ran with
  | cons here later =>
    cases later
    exact here

theorem keeps (each : ∀ s ∈ ss, ∀ db db' n, P db → db.execute parameter s = .ok (db', n) → P db')
    (ran : Executes parameter ss db n db') (holds : P db) : P db' := by
  induction ran with
  | nil => exact holds
  | cons here _ ih =>
    obtain ⟨first, others⟩ := List.forall_mem_cons.mp each
    exact ih others (first _ _ _ holds here)

theorem brings {Q : Database → Prop}
    (each : ∀ s ∈ ss, ∀ db db' n, P db → db.execute parameter s = .ok (db', n) → P db')
    (later : ∀ s ∈ ss, ∀ db db' n, P db → Q db → db.execute parameter s = .ok (db', n) → Q db')
    (inside : s ∈ ss) (now : ∀ db db' n, P db → db.execute parameter s = .ok (db', n) → Q db')
    (ran : Executes parameter ss db n db') (holds : P db) : Q db' := by
  induction ran with
  | nil => cases inside
  | @cons first rest db middle db' _ _ here rest_ ih =>
    obtain ⟨keepsHere, keeps⟩ := List.forall_mem_cons.mp each
    obtain ⟨-, staysLater⟩ := List.forall_mem_cons.mp later
    have between := keepsHere _ _ _ holds here
    rcases List.mem_cons.mp inside with rfl | after
    · have both := rest_.keeps (P := fun db => P db ∧ Q db) (fun t listed db db' n both ran =>
        ⟨keeps t listed db db' n both.1 ran, staysLater t listed db db' n both.1 both.2 ran⟩)
        ⟨between, now _ _ _ holds here⟩
      exact both.2
    · exact ih keeps staysLater after between

end Executes

end Database

namespace Batch

variable {merging : Option (Nat × Bool)} {b : Batch}

theorem all_push {P : Statement → Prop}
    (merged : ∀ {limit all first second whole}, P first → P second →
      Statement.merge? limit all first second = some whole → P whole)
    (before : ∀ t ∈ b.reversed, P t) (here : P s) : ∀ t ∈ (b.push merging s).reversed, P t := by
  unfold push
  split
  · rename_i limit all last rest same
    rw [same] at before
    obtain ⟨top, others⟩ := List.forall_mem_cons.mp before
    split
    · rename_i whole folded
      exact List.forall_mem_cons.mpr ⟨merged top here folded, others⟩
    · rw [same]
      exact List.forall_mem_cons.mpr ⟨here, before⟩
  · exact List.forall_mem_cons.mpr ⟨here, before⟩

theorem merge?_delete {limit : Nat} {all : Bool} {table : String} {conditions : List Expr} :
    Statement.merge? limit all s (.delete table conditions) = none ∧
      Statement.merge? limit all (.delete table conditions) s = none := by
  refine ⟨?_, rfl⟩
  cases s with
  | insert _ _ source => cases source <;> rfl
  | _ => rfl

theorem mem_push {table : String} {conditions : List Expr}
    (inside : .delete table conditions = s ∨ .delete table conditions ∈ b.reversed) :
    .delete table conditions ∈ (b.push merging s).reversed := by
  unfold push
  split
  · rename_i limit all last rest same
    rw [same] at inside ⊢
    split
    · rename_i whole folded
      rcases inside with rfl | inside
      · cases merge?_delete.1.symm.trans folded
      · rcases List.mem_cons.mp inside with rfl | before
        · cases merge?_delete.2.symm.trans folded
        · exact List.mem_cons_of_mem _ before
    · exact List.mem_cons.mpr inside
  · exact List.mem_cons.mpr inside

theorem edits_merge {limit : Nat} {all : Bool} {first second whole : Statement}
    (here : first.Edits tables) (merged : Statement.merge? limit all first second = some whole) :
    whole.Edits tables := by
  unfold Statement.merge? at merged
  split at merged
  · split at merged
    · cases merged
      exact here
    · cases merged
  · cases merged

section Folds

variable {ss : List Statement}

theorem all_foldl_push {P : Statement → Prop}
    (merged : ∀ {limit all first second whole}, P first → P second →
      Statement.merge? limit all first second = some whole → P whole)
    (before : ∀ t ∈ b.reversed, P t) (each : ∀ s ∈ ss, P s) :
    ∀ t ∈ (ss.foldl (push merging) b).reversed, P t := by
  induction ss generalizing b with
  | nil => exact before
  | cons s rest ih =>
    obtain ⟨here, later⟩ := List.forall_mem_cons.mp each
    exact ih (all_push merged before here) later

theorem all_statements {P : Statement → Prop}
    (merged : ∀ {limit all first second whole}, P first → P second →
      Statement.merge? limit all first second = some whole → P whole)
    (each : ∀ s ∈ ss, P s) : ∀ t ∈ (ss.foldl (push merging) {}).statements, P t :=
  fun t inside => all_foldl_push merged (List.forall_mem_nil _) each t (List.mem_reverse.mp inside)

theorem mem_foldl_push {table : String} {conditions : List Expr}
    (inside : .delete table conditions ∈ ss ∨ .delete table conditions ∈ b.reversed) :
    .delete table conditions ∈ (ss.foldl (push merging) b).reversed := by
  induction ss generalizing b with
  | nil => exact inside.resolve_left List.not_mem_nil
  | cons s rest ih =>
    refine ih ?_
    rcases inside with listed | before
    · rcases List.mem_cons.mp listed with here | later
      · exact .inr (mem_push (.inl here))
      · exact .inl later
    · exact .inr (mem_push (.inr before))

theorem mem_statements {table : String} {conditions : List Expr}
    (inside : .delete table conditions ∈ ss) :
    .delete table conditions ∈ (ss.foldl (push merging) {}).statements :=
  List.mem_reverse.mpr (mem_foldl_push (.inl inside))

end Folds

end Batch

end Sql

end PeerExchange
