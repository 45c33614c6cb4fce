import Mathlib
import PeerExchange.Proofs.Compiled
import PeerExchange.Tuple

namespace PeerExchange

open Compiled (bind_ok)

namespace Literal

def Told (companion : Option String) (literal : Literal) : Prop :=
  ∀ label, literal = labeledNull label → companion.isSome

theorem toValue_error_iff {literal : Literal} : (∃ cause, literal.toValue = .error cause) ↔
    ∃ n, literal = integer n ∧ ¬(-2 ^ 63 ≤ n ∧ n < 2 ^ 63) := by
  cases literal with
  | integer n =>
    have range : fitsWord n = true ↔ -2 ^ 63 ≤ n ∧ n < 2 ^ 63 := by
      rw [fitsWord, Bool.and_eq_true, decide_eq_true_eq, decide_eq_true_eq]
      omega
    by_cases fits : fitsWord n = true
    · have stored : (integer n).toValue = .ok (.integer n) := if_pos fits
      rw [stored]
      refine ⟨nofun, fun ⟨m, same, outside⟩ => ?_⟩
      cases same
      exact absurd (range.mp fits) outside
    · have refused : (integer n).toValue = .error (.integerOutOfRange n) := if_neg fits
      rw [refused]
      exact ⟨fun _ => ⟨n, rfl, fits ∘ range.mpr⟩, fun _ => ⟨_, rfl⟩⟩
  | string | null | labeledNull => exact ⟨nofun, nofun⟩

theorem ofMarked_toValue {literal : Literal} {companion : Option String} {v : Sql.Value}
    (told : literal.Told companion) (stored : literal.toValue = .ok v) :
    ofMarked (companion.map fun _ => .integer literal.marker) v = literal := by
  cases literal with
  | integer n =>
    rw [toValue] at stored
    split at stored
    · cases stored
      cases companion <;> rfl
    · cases stored
  | labeledNull label =>
    cases stored
    obtain ⟨_, rfl⟩ := Option.isSome_iff_exists.mp (told label rfl)
    rfl
  | string | null =>
    cases stored
    cases companion <;> rfl

end Literal

namespace Relation

def columnsFor (column : Column × Option String) : List (String × ColumnType) :=
  (column.1.name, column.1.type) :: (column.2.map (·, ColumnType.integer)).toList

-- Tuples of the relation, with labels only where a companion tells them from texts.
structure Admits (r : Relation) (tuple : List Literal) : Prop where
  arity : tuple.length = r.arity
  labels : ∀ literal c, (literal, c) ∈ tuple.zip r.columns → literal.Told (r.markerOf? c)

variable {r : Relation} {tuple other : List Literal} {row : Sql.Row}
  {columns : List (Column × Option String)}

theorem Admits.told (admits : r.Admits tuple) :
    List.Forall₂ (fun literal column => literal.Told column.2) tuple r.markedColumns := by
  rw [List.forall₂_iff_zip, markedColumns, List.length_map]
  refine ⟨admits.arity, fun inside => ?_⟩
  rw [List.zip_map_right, List.mem_map] at inside
  obtain ⟨⟨literal, c⟩, inside, same⟩ := inside
  cases same
  exact admits.labels literal c inside

theorem rowOf_error_iff : (∃ cause, rowOf columns tuple = .error cause) ↔
    ∃ literal ∈ tuple, ∃ cause, literal.toValue = .error cause := by
  induction tuple generalizing columns with
  | nil => exact ⟨nofun, nofun⟩
  | cons literal rest ih =>
    rw [List.exists_mem_cons_iff, ← @ih columns.tail, rowOf]
    cases literal.toValue with
    | error cause => exact ⟨fun _ => .inl ⟨cause, rfl⟩, fun _ => ⟨cause, rfl⟩⟩
    | ok v =>
      cases rowOf columns.tail rest with
      | error cause => exact ⟨fun _ => .inr ⟨cause, rfl⟩, fun _ => ⟨cause, rfl⟩⟩
      | ok rest => exact ⟨nofun, nofun⟩

theorem toRow_ok_iff : (∃ row, r.toRow tuple = .ok row) ↔
    ∀ literal ∈ tuple, ∃ v, literal.toValue = .ok v := by
  have either {α : Type} (outcome : Compiled α) :
      (∃ a, outcome = .ok a) ↔ ¬∃ cause, outcome = .error cause := by
    cases outcome with
    | ok a => exact iff_of_true ⟨a, rfl⟩ nofun
    | error cause => exact iff_of_false nofun (not_not_intro ⟨cause, rfl⟩)
  simp only [either]
  rw [toRow, rowOf_error_iff]
  push Not
  rfl

theorem length_rowOf (arity : tuple.length = columns.length) (stored : rowOf columns tuple = .ok row) :
    row.length = (columns.flatMap columnsFor).length := by
  induction columns generalizing tuple row with
  | nil =>
    cases List.length_eq_zero_iff.mp arity
    cases stored
    rfl
  | cons column columns ih =>
    obtain ⟨literal, rest, rfl⟩ := List.exists_cons_of_length_eq_add_one arity
    obtain ⟨v, -, stored⟩ := bind_ok.mp stored
    obtain ⟨values, later, stored⟩ := bind_ok.mp stored
    have length := ih (Nat.succ.inj arity) later
    obtain ⟨c, _ | companion⟩ := column
    · obtain rfl : v :: values = row := by simpa using stored
      exact congrArg (· + 1) length
    · obtain rfl : v :: .integer literal.marker :: values = row := by simpa using stored
      exact congrArg (· + 2) length

theorem tupleOf_rowOf (told : List.Forall₂ (fun literal column => literal.Told column.2) tuple columns)
    (stored : rowOf columns tuple = .ok row) : tupleOf columns row = tuple := by
  induction told generalizing row with
  | nil => rfl
  | @cons literal column rest columns told _ ih =>
    obtain ⟨v, first, stored⟩ := bind_ok.mp stored
    obtain ⟨values, later, stored⟩ := bind_ok.mp stored
    have back := ih later
    obtain ⟨c, _ | companion⟩ := column
    · obtain rfl : v :: values = row := by simpa using stored
      exact congrArg₂ List.cons (Literal.ofMarked_toValue told first) back
    · obtain rfl : v :: .integer literal.marker :: values = row := by simpa using stored
      exact congrArg₂ List.cons (Literal.ofMarked_toValue told first) back

theorem physicalColumns_base : r.physicalColumns .base = r.markedColumns.flatMap columnsFor := by
  rw [physicalColumns, if_neg (by simp [hasStratum]), List.append_nil, markedColumns,
    List.flatMap_map]
  rfl

theorem length_toRow (arity : tuple.length = r.arity) (stored : r.toRow tuple = .ok row) :
    row.length = (r.physicalColumns .base).length := by
  rw [physicalColumns_base]
  exact length_rowOf (by rw [arity, markedColumns, List.length_map, Relation.arity]) stored

theorem toRow_faithful (admits : r.Admits tuple) :
    ((∃ cause, r.toRow tuple = .error cause) ↔
      ∃ n, .integer n ∈ tuple ∧ ¬(-2 ^ 63 ≤ n ∧ n < 2 ^ 63)) ∧
    ∀ row, r.toRow tuple = .ok row →
      row.length = (r.physicalColumns .base).length ∧ r.ofRow row = tuple ∧
      ∀ other, r.Admits other → r.toRow other = .ok row → other = tuple := by
  refine ⟨?_, fun row stored => ?_⟩
  · rw [toRow, rowOf_error_iff]
    constructor
    · rintro ⟨literal, inside, failed⟩
      obtain ⟨n, rfl, outside⟩ := Literal.toValue_error_iff.mp failed
      exact ⟨n, inside, outside⟩
    · rintro ⟨n, inside, outside⟩
      exact ⟨_, inside, Literal.toValue_error_iff.mpr ⟨n, rfl, outside⟩⟩
  · have back := tupleOf_rowOf admits.told stored
    refine ⟨length_toRow admits.arity stored, back, fun other admitted same => ?_⟩
    exact (tupleOf_rowOf admitted.told same).symm.trans back

-- A column of each kind: without a companion, and with one.
def mixedRelation : Relation :=
  { name := "R", labeledNulls := true, columns := [⟨"a", .integer, false⟩, ⟨"b", .text, true⟩,
      ⟨"c", .text, true⟩, ⟨"d", .text, false⟩, ⟨"e", .integer, true⟩] }

def mixedTuple : List Literal :=
  [.integer (-2 ^ 63), .labeledNull "m_x(1)", .string "m_x(1)", .null, .null]

theorem mixedRelation_admits : mixedRelation.Admits mixedTuple where
  arity := rfl
  labels literal c inside := by
    rintro label rfl
    simp [mixedTuple, mixedRelation] at inside
    obtain ⟨-, rfl⟩ := inside
    rfl

theorem toRow_faithful_mixed :
    (∃ row, mixedRelation.toRow mixedTuple = .ok row ∧ row.length = 8 ∧
      mixedRelation.ofRow row = mixedTuple) ∧
    ¬∃ cause, mixedRelation.toRow mixedTuple = .error cause := by
  obtain ⟨fails, rows⟩ := toRow_faithful mixedRelation_admits
  refine ⟨⟨[.integer (-2 ^ 63), .text "m_x(1)", .integer 2, .text "m_x(1)", .integer 1, .null,
    .null, .integer 0], rfl, rfl, (rows _ rfl).2.1⟩, ?_⟩
  rw [fails]
  rintro ⟨n, inside, outside⟩
  simp [mixedTuple] at inside
  omega

end Relation

end PeerExchange
