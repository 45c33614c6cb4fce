import PeerExchange.Grammar.Rule
import PeerExchange.Proofs.DecimalDigits
import PeerExchange.Proofs.LaidOutText

namespace PeerExchange

open Grammar

def IsName (name : String) : Prop :=
  ∃ first rest, name.toList = first :: rest ∧ isLetter first = true ∧ ∀ c ∈ rest, isWordChar c = true

theorem isName_of_all {name : String} {first : Char} {rest : List Char}
    (starts : name.toList = first :: rest) (letter : isLetter first = true)
    (word : rest.all isWordChar = true) : IsName name :=
  ⟨first, rest, starts, letter, List.all_eq_true.mp word⟩

def Literal.IsWritten : Literal → Prop
  | .string s => ∀ c ∈ s.toList, c ≠ '"' ∧ Text.escape c = [c]
  | .labeledNull label => IsName label
  | .integer _ | .null => True

inductive Term.IsWritten : Term → Prop
  | var {name : String} (word : IsName name) (known : name ≠ "null") : (Term.var name).IsWritten
  | lit {value : Literal} (written : value.IsWritten) : (Term.lit value).IsWritten

namespace Grammar

section Words

variable {name w piece : String} {more : List String} {p : Char → Bool} {cs s : List Char}
  {value : Literal}

theorem isBlank_cases {c : Char} (blank : isBlank c = true) :
    c = ' ' ∨ c = '\t' ∨ c = '\n' ∨ c = '\r' := by
  simpa only [isBlank, isLineEnd, Bool.or_eq_true, decide_eq_true_eq, or_assoc] using blank

theorem starts_name (word : IsName name) : Starts name := by
  obtain ⟨c, rest, shape, letter, -⟩ := word
  refine ⟨c, rest, shape, Bool.eq_false_iff.mpr fun blank => ?_, ?_⟩
  · rcases isBlank_cases blank with rfl | rfl | rfl | rfl <;> revert letter <;> decide
  · rintro rfl
    revert letter
    decide

theorem isWordChar_of_isLetter {c : Char} (letter : isLetter c = true) : isWordChar c = true := by
  simp only [isLetter, isWordChar, Char.isAlphanum, Bool.or_eq_true, decide_eq_true_eq] at letter ⊢
  exact letter.imp_left .inl

theorem isWordChar_of_mem (word : IsName name) : ∀ c ∈ name.toList, isWordChar c = true := by
  obtain ⟨first, rest, shape, letter, all⟩ := word
  rw [shape]
  exact List.forall_mem_cons.mpr ⟨isWordChar_of_isLetter letter, all⟩

theorem takeWhile_run (all : ∀ c ∈ cs, p c = true) (stop : ∀ c rest, s = c :: rest → p c = false) :
    (cs ++ s).takeWhile p = cs := by
  rw [List.takeWhile_append_of_pos all]
  match s with
  | [] => exact List.append_nil _
  | c :: rest =>
    rw [List.takeWhile_cons, stop c rest rfl]
    exact List.append_nil _

theorem takeRun_append (all : ∀ c ∈ cs, p c = true) (stop : ∀ c rest, s = c :: rest → p c = false) :
    takeRun p (cs ++ s) = some (cs, s) := by
  have left : (cs ++ s).dropWhile p = s := by
    rw [List.dropWhile_append_of_pos all]
    match s with
    | [] => rfl
    | c :: rest => rw [List.dropWhile_cons, stop c rest rfl]; rfl
  rw [takeRun, takeWhile_run all stop, left]

variable (stops : ∀ c s, Spread more (c :: s) → isWordChar c = false)

include stops

theorem reads_identifier (word : IsName name) : Reads identifier name [name] more := by
  obtain ⟨first, rest, shape, letter, all⟩ := id word
  refine reads_token (starts_name word) fun s laid => ?_
  have run : takeRun isWordChar (rest ++ s) = some (rest, s) :=
    takeRun_append all fun c left same => stops c left (same ▸ laid)
  have one : takeOne isLetter (first :: (rest ++ s)) = some (first, rest ++ s) := if_pos letter
  rw [shape, List.cons_append]
  refine (bind_some one).trans ((bind_some run).trans ?_)
  rw [← shape, String.ofList_toList]
  rfl

theorem reads_word (known : IsName w) : Reads (word w) () [w] more := by
  refine reads_token (starts_name known) fun s laid => ?_
  refine (bind_some (exactly_append w s)).trans ?_
  match s with
  | [] => rfl
  | c :: rest => exact if_neg (by rw [stops c rest laid]; exact Bool.false_ne_true)

theorem refuses_word (other : IsName name) (known : IsName w) (differ : name ≠ w) :
    Refuses (word w) (name :: more) := by
  refine refuses_token (starts_name other) fun s laid => ?_
  match took : exactly w (name.toList ++ s) with
  | none => exact bind_none took
  | some ((), rest) =>
    refine (bind_some took).trans ?_
    obtain ⟨_, stripped, same⟩ := Option.map_eq_some_iff.mp took
    cases same
    have split := stripChars_eq_some.mp stripped
    have whole := takeWhile_run (isWordChar_of_mem other) fun c left same => stops c left (same ▸ laid)
    have longer : ¬ ∀ c left, rest = c :: left → isWordChar c = false := fun ended => by
      rw [split, takeWhile_run (isWordChar_of_mem known) ended] at whole
      exact differ (String.toList_inj.mp whole.symm)
    match rest with
    | [] => exact absurd nofun longer
    | c :: left =>
      refine if_pos (Bool.not_eq_false _ ▸ fun ended => longer ?_)
      rintro _ _ ⟨⟩
      exact ended

end Words

section Terms

variable {name piece w : String} {more : List String} {value : Literal} {t : Term}

theorem ends_stops (stops : ends more = true) (c : Char) (s : List Char)
    (laid : Spread more (c :: s)) : isWordChar c = false :=
  (ends_head stops laid).1

theorem isDigit_of_isLetter {c : Char} (letter : isLetter c = true) : c.isDigit = false := by
  have split : c.isAlpha = true ∨ c = '_' := by simpa [isLetter] using letter
  rcases split with alpha | rfl
  · have above : 57 < c.val := by
      rcases (Bool.or_eq_true c.isUpper c.isLower).mp alpha with upper | lower
      · exact UInt32.lt_of_lt_of_le (by decide) (of_decide_eq_true upper).1
      · have both := (Bool.and_eq_true _ _).mp lower
        exact UInt32.lt_of_lt_of_le (by decide) (of_decide_eq_true both.1)
    have beyond : decide (c.val ≤ 57) = false := decide_eq_false (UInt32.not_le.mpr above)
    exact (congrArg (decide (c.val ≥ 48) && ·) beyond).trans (Bool.and_false _)
  · decide

theorem refuses_stringLiteral (starts : Starts piece) (differ : piece.toList.head? ≠ some '"') :
    Refuses stringLiteral (piece :: more) := by
  refine refuses_token starts fun s _ => bind_none ?_
  obtain ⟨c, rest, shape, -⟩ := starts
  rw [shape] at differ ⊢
  exact exactly_ne rfl fun same => differ (congrArg some same)

theorem refuses_labeledNull (starts : Starts piece)
    (differ : ∀ s, Spread more s → ∀ rest, piece.toList ++ s ≠ '_' :: ':' :: rest) :
    Refuses labeledNull (piece :: more) := by
  refine refuses_token starts fun s laid => bind_none ?_
  rw [exactly, Option.map_eq_none_iff, Option.eq_none_iff_forall_ne_some]
  exact fun rest stripped => differ s laid rest (stripChars_eq_some.mp stripped)

theorem exactly_minus {c : Char} {s : List Char} (differ : c ≠ '-') :
    maybe (exactly "-") (c :: s) = some (none, c :: s) :=
  maybe_none (exactly_ne rfl differ)

theorem refuses_integerText (starts : Starts piece) (minus : piece.toList.head? ≠ some '-')
    (digit : ∀ c, piece.toList.head? = some c → c.isDigit = false) :
    Refuses integerText (piece :: more) := by
  refine refuses_token starts fun s _ => ?_
  obtain ⟨c, rest, shape, -⟩ := starts
  rw [shape] at minus digit ⊢
  refine (bind_some (exactly_minus fun same => minus (congrArg some same))).trans (bind_none ?_)
  exact if_neg (by rw [digit c rfl]; exact Bool.false_ne_true)

theorem refuses_literal (word : IsName name) (known : name ≠ "null") (stops : ends more = true) :
    Refuses literal (name :: more) := by
  have starts := starts_name word
  obtain ⟨first, rest, shape, letter, all⟩ := id word
  have head : name.toList.head? = some first := by rw [shape]; rfl
  have letterOnly {c : Char} (same : name.toList.head? = some c) : isLetter c = true := by
    rw [head] at same
    exact Option.some.inj same ▸ letter
  refine (refuses_stringLiteral starts fun same => ?_).orElse
    ((refuses_labeledNull starts fun s laid left same => ?_).orElse
      ((refuses_integerText starts (fun same => ?_) fun c same => ?_).map.orElse
        (refuses_word (ends_stops stops) word (isName_of_all rfl rfl rfl) known).map))
  · exact absurd (letterOnly same) (by decide)
  · rw [shape] at same
    have behind : (rest ++ s) = ':' :: left := (List.cons.inj same).2
    match rest with
    | [] =>
      rw [List.nil_append] at behind
      exact (ends_head stops (behind ▸ laid)).2 rfl
    | c :: _ =>
      have colon := all c List.mem_cons_self
      rw [(List.cons.inj behind).1] at colon
      exact absurd colon (by decide)
  · exact absurd (letterOnly same) (by decide)
  · exact isDigit_of_isLetter (letterOnly same)

theorem starts_of_head {c : Char} (head : piece.toList.head? = some c) (dark : isBlank c = false)
    (apart : c ≠ '/') : Starts piece := by
  obtain ⟨rest, shape⟩ := List.head?_eq_some_iff.mp head
  exact ⟨c, rest, shape, dark, apart⟩

theorem starts_of_isDigit {c : Char} (head : piece.toList.head? = some c) (digit : c.isDigit = true) :
    Starts piece := by
  refine starts_of_head head (Bool.eq_false_iff.mpr fun blank => ?_) ?_
  · rcases isBlank_cases blank with rfl | rfl | rfl | rfl <;> revert digit <;> decide
  · rintro rfl
    revert digit
    decide

theorem toList_quoted {s : String} (written : (Literal.string s).IsWritten) :
    (Text.quoted s).toList = '"' :: s.toList ++ ['"'] := by
  rw [Text.quoted, String.toList_ofList]
  have same : s.toList.flatMap Text.escape = s.toList.flatMap ([·]) :=
    List.flatMap_congr fun c inside => (written c inside).2
  rw [same, List.flatMap_singleton']

theorem reads_string {s : String} (written : (Literal.string s).IsWritten) :
    Reads stringLiteral (.string s) [Text.quoted s] more := by
  have shown := toList_quoted written
  refine reads_token ⟨_, _, shown, rfl, by decide⟩ fun rest _ => ?_
  have run : takeRun (· ≠ '"') (s.toList ++ '"' :: rest) = some (s.toList, '"' :: rest) :=
    takeRun_append (fun c inside => decide_eq_true (written c inside).1) (by rintro _ _ ⟨⟩; rfl)
  rw [shown, List.append_assoc]
  refine (bind_some (exactly_append "\"" _)).trans ((bind_some run).trans ?_)
  refine (bind_some (exactly_append "\"" rest)).trans ?_
  rw [String.ofList_toList]
  rfl

theorem reads_labeledNull {label : String} (word : IsName label) (stops : ends more = true) :
    Reads labeledNull (.labeledNull label) ["_:" ++ label] more := by
  obtain ⟨first, rest, shape, letter, all⟩ := word
  have shown : ("_:" ++ label).toList = '_' :: ':' :: first :: rest := by
    rw [String.toList_append, shape]
    rfl
  refine reads_token ⟨_, _, shown, rfl, by decide⟩ fun s laid => ?_
  have run : takeRun isWordChar (rest ++ s) = some (rest, s) :=
    takeRun_append all fun c left same => ends_stops stops c left (same ▸ laid)
  have one : takeOne isLetter (first :: (rest ++ s)) = some (first, rest ++ s) := if_pos letter
  rw [shown]
  refine (bind_some (exactly_append "_:" _)).trans ((bind_some one).trans ((bind_some run).trans ?_))
  rw [← shape, String.ofList_toList]
  rfl

theorem digitsValue_toDigits (n : Nat) : digitsValue (Nat.toDigits 10 n) = n :=
  Nat.ofDigitChars_ten_toDigits

theorem value_toDigits (n : Int) : (IntegerText.mk (n < 0) (Nat.toDigits 10 n.natAbs)).value = n := by
  rw [IntegerText.value, digitsValue_toDigits]
  by_cases sign : n < 0
  · rw [decide_eq_true sign, if_pos rfl]
    omega
  · rw [decide_eq_false sign, if_neg Bool.false_ne_true]
    omega

theorem head?_integer (n : Int) :
    ∃ c, (toString n).toList.head? = some c ∧ (c = '-' ∨ c.isDigit = true) := by
  obtain ⟨c, rest, shape, kind⟩ := head_integer n
  exact ⟨c, by rw [shape]; rfl, kind⟩

theorem starts_integer (n : Int) : Starts (toString n) := by
  obtain ⟨c, head, rfl | digit⟩ := head?_integer n
  · exact starts_of_head head rfl (by decide)
  · exact starts_of_isDigit head digit

theorem reads_integer (n : Int) (stops : ends more = true) :
    Reads ((Literal.integer ·.value) <$> integerText) (.integer n) [toString n] more := by
  have reads : Reads integerText ⟨n < 0, Nat.toDigits 10 n.natAbs⟩ [toString n] more := by
    refine reads_token (starts_integer n) fun s laid => ?_
    obtain ⟨first, rest, shape, -⟩ := head_toDigits n.natAbs
    obtain ⟨digit, all⟩ := List.forall_mem_cons.mp (shape ▸ isDigit_toDigits n.natAbs)
    have run : takeRun Char.isDigit (rest ++ s) = some (rest, s) :=
      takeRun_append all fun c left same => by
        have word := ends_stops stops c left (same ▸ laid)
        simp only [isWordChar, Char.isAlphanum, Bool.or_eq_false_iff] at word
        exact word.1.2
    have one : takeOne Char.isDigit (first :: (rest ++ s)) = some (first, rest ++ s) := if_pos digit
    rw [toList_integer, shape]
    by_cases sign : n < 0
    · rw [if_pos sign]
      have minus : maybe (exactly "-") ('-' :: first :: (rest ++ s)) =
          some (some (), first :: (rest ++ s)) := rfl
      refine (bind_some minus).trans ((bind_some one).trans ((bind_some run).trans ?_))
      simp [sign]
      rfl
    · rw [if_neg sign]
      have minus : maybe (exactly "-") (first :: (rest ++ s)) = some (none, first :: (rest ++ s)) :=
        exactly_minus fun same => absurd (same ▸ digit) (by decide)
      refine (bind_some minus).trans ((bind_some one).trans ((bind_some run).trans ?_))
      simp [sign]
      rfl
  have read := reads.map (g := fun text => Literal.integer text.value)
  rwa [value_toDigits] at read

theorem isName_null : IsName "null" := isName_of_all rfl rfl rfl

theorem reads_literal (written : value.IsWritten) (stops : ends more = true) :
    Reads literal value [value.render] more := by
  match value with
  | .string s => exact (reads_string written).orElse
  | .labeledNull label =>
    have shown : ("_:" ++ label).toList = '_' :: ':' :: label.toList := String.toList_append
    have noString : Refuses stringLiteral (("_:" ++ label) :: more) :=
      refuses_stringLiteral ⟨_, _, shown, rfl, by decide⟩ (by simp [shown])
    exact noString.reads_orElse (reads_labeledNull written stops).orElse
  | .integer n =>
    obtain ⟨c, head, kind⟩ := head?_integer n
    have apart {d : Char} (minus : d ≠ '-') (digit : d.isDigit = false) :
        (toString n).toList.head? ≠ some d := by
      rw [head]
      rintro ⟨⟩
      rcases kind with same | same
      · exact minus same
      · rw [digit] at same; cases same
    have noString : Refuses stringLiteral (toString n :: more) :=
      refuses_stringLiteral (starts_integer n) (apart (by decide) rfl)
    have noLabel : Refuses labeledNull (toString n :: more) :=
      refuses_labeledNull (starts_integer n) fun s _ rest same =>
        apart (d := '_') (by decide) rfl (by
          obtain ⟨left, shape⟩ := List.head?_eq_some_iff.mp head
          rw [shape] at same ⊢
          exact congrArg some (List.cons.inj same).1)
    exact noString.reads_orElse (noLabel.reads_orElse (reads_integer n stops).orElse)
  | .null =>
    have starts := starts_name isName_null
    have noString : Refuses stringLiteral ("null" :: more) := refuses_stringLiteral starts (by decide)
    have noLabel : Refuses labeledNull ("null" :: more) :=
      refuses_labeledNull starts fun _ _ _ => nofun
    have noInteger : Refuses integerText ("null" :: more) :=
      refuses_integerText starts (by decide) (by rintro _ ⟨⟩; rfl)
    exact noString.reads_orElse (noLabel.reads_orElse (noInteger.map.reads_orElse
      (reads_word (ends_stops stops) isName_null).map))

theorem reads_term (written : t.IsWritten) (stops : ends more = true) :
    Reads term t [t.render] more := by
  cases written with
  | var word known =>
    exact (refuses_literal word known stops).map.reads_orElse
      (reads_identifier (ends_stops stops) word).map
  | lit written => exact (reads_literal written stops).map.orElse

theorem reads_term_name (word : IsName name) (stops : ends more = true) :
    ∃ t, Reads term t [name] more := by
  by_cases known : name = "null"
  · subst known
    have null : Term.IsWritten (.lit .null) := .lit trivial
    exact ⟨_, reads_term null stops⟩
  · exact ⟨_, reads_term (.var word known) stops⟩

theorem refuses_word_term (written : t.IsWritten) (known : IsName w)
    (alpha : ∀ c, w.toList.head? = some c → c.isAlpha = true) (differ : t.render ≠ w)
    (stops : ends more = true) : Refuses (word w) (t.render :: more) := by
  have byHead {piece : String} (starts : Starts piece)
      (dark : ∀ c, piece.toList.head? = some c → c.isAlpha = false) :
      Refuses (word w) (piece :: more) := by
    obtain ⟨first, rest, shape, -⟩ := known
    refine refuses_token starts fun s _ => bind_none ?_
    obtain ⟨c, left, same, -⟩ := starts
    rw [same, List.cons_append]
    refine exactly_ne shape ?_
    rintro rfl
    have letter := alpha c (by rw [shape]; rfl)
    rw [dark c (by rw [same]; rfl)] at letter
    cases letter
  cases written with
  | var word _ => exact refuses_word (ends_stops stops) word known differ
  | @lit value written =>
    match value with
    | .null => exact refuses_word (ends_stops stops) isName_null known differ
    | .string s =>
      have shown := toList_quoted written
      refine byHead ⟨_, _, shown, rfl, by decide⟩ ?_
      change ∀ c, (Text.quoted s).toList.head? = some c → _
      rw [shown]
      rintro _ ⟨⟩
      rfl
    | .labeledNull label =>
      have shown : ("_:" ++ label).toList = '_' :: ':' :: label.toList := String.toList_append
      refine byHead ⟨_, _, shown, rfl, by decide⟩ ?_
      change ∀ c, ("_:" ++ label).toList.head? = some c → _
      rw [shown]
      rintro _ ⟨⟩
      rfl
    | .integer n =>
      obtain ⟨c, head, kind⟩ := head?_integer n
      refine byHead (starts_integer n) ?_
      change ∀ c, (toString n).toList.head? = some c → _
      rw [head]
      rintro _ ⟨⟩
      rcases kind with rfl | digit
      · rfl
      · exact Bool.eq_false_iff.mpr fun letter => by
          have none := isDigit_of_isLetter (c := c) (by rw [isLetter, letter]; rfl)
          rw [digit] at none
          cases none

end Terms

end Grammar

end PeerExchange
