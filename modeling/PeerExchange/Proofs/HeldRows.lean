import Mathlib.Algebra.Order.Field.Power
import Mathlib.Algebra.Order.Ring.Rat
import Mathlib.Tactic.Linarith
import Mathlib.Tactic.Positivity
import PeerExchange.Proofs.InsertStatements

namespace PeerExchange

namespace Binary

variable {a b : Binary}

def size (b : Binary) : ℚ := b.mantissa * 2 ^ b.exponent

theorem size_inUnits {e : Int} (coarser : e ≤ b.exponent) : (b.inUnits e : ℚ) * 2 ^ e = b.size := by
  have shifted : (b.exponent - e).toNat = b.exponent - e := Int.toNat_of_nonneg (by omega)
  have power : ((Nat.pow 2 (b.exponent - e).toNat : Nat) : ℚ) = 2 ^ (b.exponent - e) := by
    rw [← shifted, zpow_natCast]
    exact Nat.cast_pow 2 _
  rw [inUnits, Nat.cast_mul, power, mul_assoc, ← zpow_add₀ two_ne_zero, Int.sub_add_cancel]
  rfl

theorem order_eq_iff : a.order b = .eq ↔ a.size = b.size := by
  have unit : (2 : ℚ) ^ (min a.exponent b.exponent) ≠ 0 := zpow_ne_zero _ two_ne_zero
  rw [order, Nat.compare_eq_eq, ← size_inUnits (Int.min_le_left a.exponent b.exponent),
    ← size_inUnits (Int.min_le_right a.exponent b.exponent), mul_left_inj' unit, Nat.cast_inj]

theorem size_nonneg (b : Binary) : 0 ≤ b.size := by
  unfold size
  positivity

theorem size_eq_zero_iff : b.size = 0 ↔ b.mantissa = 0 := by
  rw [size, mul_eq_zero, Nat.cast_eq_zero, or_iff_left (zpow_ne_zero _ two_ne_zero)]

end Binary

namespace Floating

def size : Floating → Bool ⊕ ℚ
  | finite negative b => .inr (if negative then -b.size else b.size)
  | infinite negative => .inl negative

theorem size_exactly (n : Int) : (exactly n).size = .inr (n : ℚ) := by
  simp only [exactly, size, Binary.size, Binary.ofNat, zpow_zero, mul_one, Sum.inr.injEq]
  by_cases negative : n < 0
  · rw [if_pos (by simpa using negative), ← Int.cast_natCast, ← Int.cast_neg]
    exact congrArg Int.cast (by omega)
  · rw [if_neg (by simpa using negative), ← Int.cast_natCast]
    exact congrArg Int.cast (by omega)

theorem order_eq_iff (x y : Floating) : x.order y = .eq ↔ x.size = y.size := by
  cases x with
  | infinite na =>
    cases y with
    | infinite nb => cases na <;> cases nb <;> simp [order, size]
    | finite nb b => cases na <;> simp [order, size]
  | finite na a =>
    cases y with
    | infinite nb => cases nb <;> simp [order, size]
    | finite nb b =>
      rw [order, size, size, Sum.inr.injEq]
      split
      · rename_i zero
        simp only [Bool.and_eq_true, decide_eq_true_eq, ← Binary.size_eq_zero_iff] at zero
        simp [zero]
      · rename_i some
        simp only [Bool.and_eq_true, decide_eq_true_eq, ← Binary.size_eq_zero_iff] at some
        have left := a.size_nonneg
        have right := b.size_nonneg
        cases na <;> cases nb <;> simp only [negated, reduceCtorEq, if_true, if_false,
          Bool.false_eq_true, ← Binary.order_eq_iff, neg_inj, false_iff, Bool.true_eq_false]
        · exact fun same => some ⟨by linarith, by linarith⟩
        · exact fun same => some ⟨by linarith, by linarith⟩
        · cases a.order b <;> decide

end Floating

namespace Sql

namespace Value

abbrev Weight := Option (Bool ⊕ ℚ) ⊕ String

def weight : Value → Weight
  | null => .inl none
  | integer n => .inl (some (.inr n))
  | real x => .inl (some x.size)
  | text s => .inr s

theorem same_iff (v w : Value) : v.same w = true ↔ v.weight = w.weight := by
  rw [same, decide_eq_true_eq]
  cases v <;> cases w <;> simp [order, weight, rank, Floating.order_eq_iff, Floating.size_exactly]

theorem weight_eq_null {v : Value} : v.weight = null.weight ↔ v = null := by
  cases v <;> simp [weight]

theorem same_trans {u v w : Value} (first : u.same v = true) (second : v.same w = true) :
    u.same w = true :=
  (same_iff u w).mpr (((same_iff u v).mp first).trans ((same_iff v w).mp second))

end Value

namespace Row

variable {a b c row other : Row} {rows more : List Row}

theorem same_comm (a b : Row) : a.same b = b.same a := by
  rw [Bool.eq_iff_iff, same_iff, same_iff]
  have swapped (v w : Value) (same : v.same w = true) : w.same v = true := Value.same_comm v w ▸ same
  exact ⟨fun each => (each.imp swapped).flip, fun each => (each.imp swapped).flip⟩

theorem same_trans (first : a.same b = true) (second : b.same c = true) : a.same c = true := by
  rw [same_iff] at first second ⊢
  induction first generalizing c with
  | nil =>
    cases second
    exact .nil
  | cons here _ ih =>
    obtain ⟨w, rest, there, later, rfl⟩ := List.forall₂_cons_left_iff.mp second
    exact .cons (Value.same_trans here there) (ih later)

-- Some row of the list counts as the given one.
def HeldIn (rows : List Row) (row : Row) : Prop := ∃ stored ∈ rows, row.same stored = true

theorem heldIn_congr (same : row.same other = true) : HeldIn rows row ↔ HeldIn rows other := by
  refine exists_congr fun stored => and_congr_right fun _ => ⟨fun held => ?_, same_trans same⟩
  exact same_trans (same_comm row other ▸ same) held

theorem heldIn_append : HeldIn (rows ++ more) row ↔ HeldIn rows row ∨ HeldIn more row := by
  simp only [HeldIn, List.mem_append, or_and_right, exists_or]

def Steady (P : Row → Prop) : Prop := ∀ a b, Row.same a b = true → (P a ↔ P b)

theorem heldIn_filter {keep : Row → Bool} {P : Row → Prop} (steady : Steady P)
    (exactly : ∀ stored ∈ rows, keep stored = true ↔ P stored) :
    HeldIn (rows.filter keep) row ↔ HeldIn rows row ∧ P row := by
  constructor
  · rintro ⟨stored, inside, same⟩
    obtain ⟨inside, kept⟩ := List.mem_filter.mp inside
    exact ⟨⟨stored, inside, same⟩, (steady row stored same).mpr ((exactly stored inside).mp kept)⟩
  · rintro ⟨⟨stored, inside, same⟩, holds⟩
    refine ⟨stored, List.mem_filter.mpr ⟨inside, (exactly stored inside).mpr ?_⟩, same⟩
    exact (steady row stored same).mp holds

end Row

end Sql

end PeerExchange
