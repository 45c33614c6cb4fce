import PeerExchange.Json.Parser
import PeerExchange.Json.Printer
import PeerExchange.Proofs.DecimalDigits

namespace PeerExchange.Json

section Reading

variable {α : Type}

-- The reader takes something off the front of a text and leaves the rest.
def Reads (p : Reader α) (s : List Char) (a : α) (rest : List Char) : Prop :=
  ∃ shorter, p s = some (a, ⟨rest, shorter⟩)

variable {p : Reader α} {s t rest : List Char} {a : α}

theorem reads_of_eq {b : α} {left : Shorter s} (ran : p s = some (b, left)) (same : b = a)
    (behind : left.1 = rest) : Reads p s a rest := by
  subst same behind
  exact ⟨left.2, ran⟩

theorem reads_afterBlanks (skipped : skipBlanks s = t) (reads : Reads p t a rest) :
    Reads (afterBlanks p) s a rest := by
  subst skipped
  obtain ⟨shorter, read⟩ := reads
  refine ⟨Nat.lt_of_lt_of_le shorter (length_skipBlanks_le s), ?_⟩
  rw [afterBlanks, read]
  rfl

theorem skipBlanks_append {blanks : List Char} (all : ∀ c ∈ blanks, isBlank c = true) :
    skipBlanks (blanks ++ s) = skipBlanks s :=
  List.dropWhile_append_of_pos all

theorem skipBlanks_cons {c : Char} (dark : isBlank c = false) : skipBlanks (c :: s) = c :: s := by
  rw [skipBlanks, List.dropWhile_cons, dark]
  rfl

end Reading

section Strings

variable {c : Char} {s rest : List Char}

theorem reads_plain (slash : c ≠ '\\') (visible : ¬ c.toNat < 0x20) :
    Reads stringChar? (c :: rest) (some c) rest :=
  ⟨_, by rw [stringChar?, if_neg slash, if_neg visible]; rfl⟩

theorem reads_short {d : Char} (known : escapes.lookup c = some d) (apart : c ≠ 'u') :
    Reads stringChar? ('\\' :: c :: rest) (some d) rest :=
  ⟨by simp only [List.length_cons]; omega, by rw [stringChar?, if_pos rfl, escaped?, if_neg apart, known]; rfl⟩

theorem controlDigits_eq : ∀ n < 32,
    controlDigits n = ['0', '0', Nat.digitChar (n / 16), Nat.digitChar (n % 16)] := by
  decide

theorem hexValue?_digitChar : ∀ n < 16, hexValue? (Nat.digitChar n) = some n := by
  decide

theorem reads_unit {a b c d : Char} {i j k l : Nat} (first : hexValue? a = some i)
    (second : hexValue? b = some j) (third : hexValue? c = some k) (fourth : hexValue? d = some l) :
    Reads unit? (a :: b :: c :: d :: rest) (((i * 16 + j) * 16 + k) * 16 + l) rest :=
  ⟨by simp; omega, by simp only [unit?, first, second, third, fourth]; rfl⟩

theorem reads_unitChar {n : Nat} (unit : Reads unit? s n rest) (small : n < 0xd800) :
    Reads unitChar? s (some (Char.ofNat n)) rest := by
  obtain ⟨shorter, read⟩ := unit
  refine ⟨shorter, ?_⟩
  simp only [unitChar?, read, Option.bind_eq_bind, Option.bind_some]
  rw [if_neg (by simp; omega), if_neg (by simp; omega)]

theorem reads_control (control : c.toNat < 0x20) :
    Reads stringChar? (['\\', 'u'] ++ controlDigits c.toNat ++ rest) (some c) rest := by
  have value : ((0 * 16 + 0) * 16 + c.toNat / 16) * 16 + c.toNat % 16 = c.toNat := by omega
  have zero : hexValue? '0' = some 0 := rfl
  have high := hexValue?_digitChar (c.toNat / 16) (by omega)
  have low := hexValue?_digitChar (c.toNat % 16) (by omega)
  have unit : Reads unit? ('0' :: '0' :: _ :: _ :: rest) _ rest := reads_unit zero zero high low
  rw [value] at unit
  obtain ⟨shorter, read⟩ := reads_unitChar unit (by omega)
  rw [controlDigits_eq _ control]
  refine ⟨by simp; omega, ?_⟩
  simp only [List.cons_append, List.nil_append, stringChar?, if_pos, escaped?, read, Char.ofNat_toNat]
  rfl

theorem reads_escape (c : Char) (rest : List Char) : Reads stringChar? (escape c ++ rest) (some c) rest := by
  unfold escape
  split
  · subst_vars; exact reads_short rfl (by decide)
  split
  · subst_vars; exact reads_short rfl (by decide)
  split
  · subst_vars; exact reads_short rfl (by decide)
  split
  · subst_vars; exact reads_short rfl (by decide)
  split
  · subst_vars; exact reads_short rfl (by decide)
  split
  · subst_vars; exact reads_short rfl (by decide)
  split
  · subst_vars; exact reads_short rfl (by decide)
  split
  · exact reads_control ‹_›
  · rename_i slash _ _ _ _ _ visible
    exact reads_plain slash visible

theorem escape_ne_quote (c : Char) : ∃ d left, escape c = d :: left ∧ d ≠ '"' := by
  unfold escape
  split
  · exact ⟨_, _, rfl, by decide⟩
  · rename_i quote
    repeat
      split
      · exact ⟨_, _, rfl, by decide⟩
    exact ⟨_, _, rfl, quote⟩

theorem reads_tail_char {d : Char} {left middle reversed : List Char} {cs : Option (List Char)}
    (here : Reads stringChar? (d :: left) (some c) middle) (quote : d ≠ '"')
    (later : Reads (stringTail? (some (c :: reversed))) middle cs rest) :
    Reads (stringTail? (some reversed)) (d :: left) cs rest := by
  obtain ⟨shorter, read⟩ := here
  obtain ⟨less, ran⟩ := later
  refine ⟨Nat.lt_trans less shorter, ?_⟩
  rw [stringTail?, if_neg quote, read]
  simp only [Option.bind_some, Option.map_some, ran]
  rfl

theorem reads_tail (s rest reversed : List Char) :
    Reads (stringTail? (some reversed)) (s.flatMap escape ++ '"' :: rest) (some (s.reverse ++ reversed))
      rest := by
  induction s generalizing reversed with
  | nil =>
    rw [List.flatMap_nil, List.nil_append]
    exact ⟨by simp, by rw [stringTail?, if_pos rfl]; rfl⟩
  | cons c s ih =>
    have here := reads_escape c (s.flatMap escape ++ '"' :: rest)
    obtain ⟨d, left, shape, quote⟩ := escape_ne_quote c
    rw [shape] at here
    rw [List.flatMap_cons, List.append_assoc, shape, List.reverse_cons, List.append_assoc]
    exact reads_tail_char here quote (ih (c :: reversed))

theorem reads_quote (s : String) (rest : List Char) : Reads string? (quote s ++ rest) (some s) rest := by
  obtain ⟨shorter, read⟩ := reads_tail s.toList rest []
  rw [quote, List.append_assoc, List.cons_append, List.singleton_append]
  refine ⟨Nat.lt_succ_of_lt shorter, ?_⟩
  rw [string?, if_pos rfl, read]
  simp only [Option.map_some, List.append_nil, List.reverse_reverse, String.ofList_toList]
  rfl

end Strings

section Numbers

variable {n : Nat} {rest : List Char}

theorem digitsValue_toDigits (n : Nat) : digitsValue (Nat.toDigits 10 n) = n :=
  Nat.ofDigitChars_ten_toDigits

-- Digits are appended while the significand stays below its limit, which it does if it does in
-- the end.
theorem appendDigits_all (digits : List Char) (k : Nat)
    (small : digits.foldl (fun n d => 10 * n + (d.toNat - '0'.toNat)) k < significandLimit) :
    appendDigits k digits = (digits.foldl (fun n d => 10 * n + (d.toNat - '0'.toNat)) k, []) ∧
      k < significandLimit := by
  induction digits generalizing k with
  | nil => exact ⟨rfl, small⟩
  | cons d rest ih =>
    obtain ⟨later, next⟩ := ih (10 * k + (d.toNat - '0'.toNat)) small
    exact ⟨by rw [appendDigits, if_pos next, later]; rfl, by omega⟩

theorem normalize_le (p : Precision) (b : Binary) :
    (p.normalize b).exponent ≤ b.exponent + 1 ∧ (p.normalize b).mantissa ≤ b.mantissa := by
  unfold Precision.normalize
  split
  · rename_i full
    rw [full]
    exact ⟨Int.le_refl _, Nat.pow_le_pow_right (by decide) (Nat.sub_le _ _)⟩
  · exact ⟨by omega, Nat.le_refl _⟩

theorem roundQuotient_le (num den : Nat) : Binary.roundQuotient num den ≤ num + 1 := by
  have below := Nat.div_le_self num den
  unfold Binary.roundQuotient
  simp only
  split
  · omega
  · split <;> omega

theorem leadingBit_bounds (num : Nat) :
    (-1 : Int) ≤ Precision.leadingBit num 1 ∧ Precision.leadingBit num 1 ≤ num.log2 := by
  unfold Precision.leadingBit
  have one : (1 : Nat).log2 = 0 := by decide
  simp only [one]
  split <;> omega

theorem exponent_round_le (num : Nat) (e : Int) :
    (Precision.double.round num 1 e).exponent ≤ max (e + num.log2 - 52) 0 + 1 := by
  unfold Precision.round
  split
  · change (0 : Int) ≤ _
    omega
  · have bound := (leadingBit_bounds num).2
    refine Int.le_trans (normalize_le _ _).1 ?_
    change max (e + Precision.leadingBit num 1 - 52) (-1074) + 1 ≤ _
    omega

theorem shift_le (num : Nat) {e : Int} (bound : -53 ≤ e) :
    (Binary.shift 2 num 1 e).1 ≤ num * 9007199254740992 := by
  unfold Binary.shift
  split
  · exact Nat.le_mul_of_pos_right _ (by decide)
  · have power : Nat.pow 2 e.natAbs ≤ Nat.pow 2 53 := Nat.pow_le_pow_right (by decide) (by omega)
    exact Nat.mul_le_mul_left num power

theorem mantissa_round_le (num : Nat) :
    (Precision.double.round num 1 0).mantissa ≤ num * 9007199254740992 + 1 := by
  unfold Precision.round
  split
  · exact Nat.zero_le _
  · have bound := (leadingBit_bounds num).1
    have unit : -53 ≤ max (0 + Precision.leadingBit num 1 - (Precision.double.bits - 1))
        Precision.double.leastExponent - 0 := by
      change -53 ≤ max (0 + Precision.leadingBit num 1 - 52) (-1074) - 0
      omega
    refine Nat.le_trans (normalize_le _ _).2 (Nat.le_trans (roundQuotient_le _ _) ?_)
    exact Nat.succ_le_succ (shift_le num unit)

theorem holds_mul {a b : Binary} (mantissa : (a.mantissa * b.mantissa).log2 ≤ 180)
    (exponent : a.exponent + b.exponent ≤ 0) :
    Precision.double.holds (Precision.double.mul a b) = true := by
  have bound : (Precision.double.mul a b).exponent ≤ _ := exponent_round_le _ _
  have limit : (Precision.double.mul a b).exponent ≤ 971 := by omega
  generalize Precision.double.mul a b = product at limit
  exact decide_eq_true limit

theorem bounded_integer (small : n < significandLimit) : isBounded n 0 = true := by
  have one : Precision.double.ofFraction (Nat.pow 10 (0 : Int).toNat) 1 = ⟨2 ^ 52, -52⟩ := by decide
  have mantissa : (Precision.double.ofFraction n 1).mantissa ≤ n * 9007199254740992 + 1 :=
    mantissa_round_le n
  have exponent : (Precision.double.ofFraction n 1).exponent ≤ max (0 + (n.log2 : Int) - 52) 0 + 1 :=
    exponent_round_le n 0
  have limit : significandLimit = 2 ^ 64 := rfl
  unfold isBounded
  rw [one]
  generalize Precision.double.ofFraction n 1 = weight at mantissa exponent ⊢
  have log : n.log2 ≤ 64 := by
    by_cases zero : n = 0
    · rw [zero]; decide
    · exact Nat.le_of_lt ((Nat.log2_lt zero).mpr (limit ▸ small))
  have product : (weight.mantissa * 2 ^ 52).log2 ≤ 180 := by
    by_cases zero : weight.mantissa * 2 ^ 52 = 0
    · rw [zero]; decide
    · exact Nat.le_of_lt ((Nat.log2_lt zero).mpr (by omega))
  rw [holds_mul (b := ⟨2 ^ 52, -52⟩) product (by simp only; omega), Bool.and_true, Bool.or_eq_true]
  exact .inr (by decide)

theorem numberValue_integer (small : n < significandLimit) (negative : Bool)
    (signed : negative = true → n ≠ 0) :
    numberValue negative (Nat.toDigits 10 n) [] [] = int (if negative then -(n : Int) else n) := by
  have digits := digitsValue_toDigits n
  have appended : appendDigits 0 (Nat.toDigits 10 n) = (n, []) := by
    have all := (appendDigits_all (Nat.toDigits 10 n) 0 (by rwa [← digitsValue, digits])).1
    rwa [← digitsValue, digits] at all
  have power : scaled (Nat.toDigits 10 n) [] [] = (n, 0) := by
    simp only [scaled, appended, appendDigits]
    rfl
  have plain : (negative && Nat.toDigits 10 n = ['0']) = false := by
    cases negative with
    | false => rfl
    | true =>
      have apart : Nat.toDigits 10 n ≠ ['0'] := fun same => by
        rw [same] at digits
        exact signed rfl digits.symm
      simp [apart]
  simp only [numberValue, List.tail_nil, power, bounded_integer small, if_true, List.isEmpty_nil,
    Bool.true_and, plain, Bool.not_false, digits]

-- What stands behind a number does not go on with it.
def Ends (rest : List Char) : Prop :=
  ∀ c s, rest = c :: s → isDigit c = false ∧ c ≠ '.' ∧ c ≠ 'e' ∧ c ≠ 'E'

theorem reads_digits (ends : Ends rest) {c : Char} {more : List Char}
    (all : ∀ d ∈ c :: more, isDigit d = true) : Reads digits? (c :: more ++ rest) (c :: more) rest := by
  obtain ⟨digit, all⟩ := List.forall_mem_cons.mp all
  have behind : rest.takeWhile isDigit = [] ∧ rest.dropWhile isDigit = rest := by
    match rest with
    | [] => exact ⟨rfl, rfl⟩
    | d :: left =>
      rw [List.takeWhile_cons, List.dropWhile_cons, (ends d left rfl).1]
      exact ⟨rfl, rfl⟩
  refine reads_of_eq (if_pos digit) ?_ ?_
  · rw [List.append_eq, List.takeWhile_append_of_pos all, behind.1, List.append_nil]
  · exact (List.dropWhile_append_of_pos all).trans behind.2

theorem reads_whole (ends : Ends rest) :
    Reads whole? (Nat.toDigits 10 n ++ rest) (Nat.toDigits 10 n) rest := by
  obtain ⟨first, more, shape, zero⟩ := head_toDigits n
  have all : ∀ d ∈ first :: more, isDigit d = true := fun d inside =>
    isDigit_toDigits n d (shape ▸ inside)
  by_cases leading : first = '0'
  · have none : n = 0 := zero leading
    subst none
    exact ⟨Nat.lt_succ_self _, rfl⟩
  · rw [shape]
    obtain ⟨shorter, read⟩ := reads_digits ends all
    exact ⟨shorter, (if_neg leading).trans read⟩

theorem fraction_none (ends : Ends rest) : fraction? rest = some ([], ⟨rest, Nat.le_refl _⟩) := by
  rw [fraction?]
  rintro _ rfl
  exact (ends _ _ rfl).2.1 rfl

theorem exponent_none (ends : Ends rest) : exponent? rest = some ([], ⟨rest, Nat.le_refl _⟩) := by
  match rest with
  | [] => rfl
  | c :: s =>
    obtain ⟨-, -, small, large⟩ := ends c s rfl
    exact if_neg (by simp [small, large])

theorem reads_magnitude (small : n < significandLimit) (negative : Bool)
    (signed : negative = true → n ≠ 0) (ends : Ends rest) :
    Reads (magnitude? negative) (Nat.toDigits 10 n ++ rest) (int (if negative then -(n : Int) else n))
      rest := by
  obtain ⟨shorter, read⟩ := reads_whole (n := n) ends
  refine ⟨shorter, ?_⟩
  simp only [magnitude?, read, fraction_none ends, exponent_none ends, Option.bind_eq_bind,
    Option.bind_some, numberValue_integer small negative signed]

theorem reads_integer (i : Int) (small : i.natAbs < significandLimit) (ends : Ends rest) :
    Reads number? ((toString i).toList ++ rest) (int i) rest := by
  rw [toList_integer]
  by_cases sign : i < 0
  · have value : int (if true then -(i.natAbs : Int) else i.natAbs) = int i := by
      rw [if_pos rfl, show -(i.natAbs : Int) = i by omega]
    obtain ⟨shorter, read⟩ := value ▸ reads_magnitude small true (fun _ => by omega) ends
    rw [if_pos sign]
    refine ⟨Nat.lt_succ_of_lt shorter, ?_⟩
    change (magnitude? true (Nat.toDigits 10 i.natAbs ++ rest)).map _ = _
    rw [read]
    rfl
  · have value : int (if false then -(i.natAbs : Int) else i.natAbs) = int i := by
      rw [if_neg Bool.false_ne_true, show (i.natAbs : Int) = i by omega]
    obtain ⟨shorter, read⟩ := value ▸ reads_magnitude small false nofun ends
    obtain ⟨first, more, shape, -⟩ := head_toDigits i.natAbs
    have digit := isDigit_toDigits i.natAbs first (by rw [shape]; exact List.mem_cons_self)
    rw [if_neg sign]
    refine ⟨shorter, ?_⟩
    change number? (Nat.toDigits 10 i.natAbs ++ rest) = _
    rw [number?.eq_2, read]
    rw [shape]
    rintro _ ⟨⟩
    exact absurd digit (by decide)

end Numbers

end PeerExchange.Json
