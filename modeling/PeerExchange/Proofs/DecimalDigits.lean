import Mathlib.Data.List.Basic

namespace PeerExchange

theorem head_toDigits (n : Nat) :
    ∃ first rest, Nat.toDigits 10 n = first :: rest ∧ (first = '0' → n = 0) := by
  induction n using Nat.strongRecOn with
  | ind n ih =>
    by_cases small : n < 10
    · have digit : ∀ k < 10, Nat.digitChar k = '0' → k = 0 := by decide
      exact ⟨_, [], Nat.toDigits_of_lt_base small, digit n small⟩
    · obtain ⟨first, rest, shape, zero⟩ := ih (n / 10) (by omega)
      refine ⟨first, rest ++ [(n % 10).digitChar], ?_, fun same => ?_⟩
      · rw [Nat.toDigits_of_base_le (by decide) (by omega), shape, List.cons_append]
      · have := zero same
        omega

theorem isDigit_toDigits (n : Nat) : ∀ c ∈ Nat.toDigits 10 n, c.isDigit = true :=
  fun _ inside => Nat.isDigit_of_mem_toDigits (by decide) (by decide) inside

theorem toLower_of_isDigit {c : Char} (digit : c.isDigit = true) : c.toLower = c := by
  simp only [Char.isDigit, Bool.and_eq_true, decide_eq_true_eq] at digit
  have low : ¬ (c.val ≥ 'A'.val ∧ c.val ≤ 'Z'.val) := fun upper => by
    have above := UInt32.le_iff_toNat_le.mp upper.1
    have below := UInt32.le_iff_toNat_le.mp digit.2
    simp at above below
    omega
  exact dif_neg low

theorem toList_integer (n : Int) :
    (toString n).toList = (if n < 0 then ['-'] else []) ++ Nat.toDigits 10 n.natAbs := by
  rw [Int.toString_eq_repr, Int.repr_eq_if]
  by_cases sign : 0 ≤ n
  · rw [if_pos sign, if_neg (by omega), Nat.repr_eq_ofList_toDigits, String.toList_ofList,
      show n.toNat = n.natAbs by omega]
    rfl
  · rw [if_neg sign, if_pos (by omega), String.toList_append, Nat.repr_eq_ofList_toDigits,
      show (-n).toNat = n.natAbs by omega, String.toList_ofList, String.toList_ofList]

theorem head_integer (n : Int) :
    ∃ c rest, (toString n).toList = c :: rest ∧ (c = '-' ∨ c.isDigit = true) := by
  obtain ⟨first, rest, shape, -⟩ := head_toDigits n.natAbs
  have digit := isDigit_toDigits n.natAbs first (by rw [shape]; exact List.mem_cons_self)
  rw [toList_integer, shape]
  by_cases sign : n < 0
  · exact ⟨'-', _, by rw [if_pos sign]; rfl, .inl rfl⟩
  · exact ⟨first, rest, by rw [if_neg sign]; rfl, .inr digit⟩

end PeerExchange
