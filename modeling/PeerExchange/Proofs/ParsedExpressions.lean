import PeerExchange.Proofs.SpelledStatements

namespace PeerExchange.Sql

open Token (word sign)

-- The words a statement has besides its names.
def Token.keywords : List String :=
  ["ALL", "AND", "AS", "CASE", "CAST", "CREATE", "DELETE", "DISTINCT", "ELSE", "END", "EXCEPT", "EXISTS",
    "FROM", "IF", "INSERT", "INTO", "IS", "JOIN", "LEFT", "NOT", "NULL", "ON", "OUTER", "SELECT", "TABLE",
    "THEN", "UNION", "VALUES", "VIEW", "WHEN", "WHERE"]

namespace Syntax.Parser

variable {α β : Type} {p : Parser α} {f : α → Parser β} {a : α} {t : Token} {ts ts' : List Token}
  {depth fuel level : Nat}

theorem run_then (ran : p.run ts = .ok (a, ts')) : (p >>= f).run ts = (f a).run ts' := by
  rw [StateT.run_bind, ran]
  rfl

@[simp] theorem ok_bind {ε γ δ : Type} (a : γ) (g : γ → Except ε δ) : (Except.ok a >>= g) = g a := rfl

@[simp] theorem pure_ok {ε γ : Type} (a : γ) : (pure a : Except ε γ) = .ok a := rfl

@[simp] theorem map_ok {ε γ δ : Type} (a : γ) (g : γ → δ) :
    (g <$> (Except.ok a : Except ε γ)) = .ok (g a) := rfl

@[simp] theorem run_peek : peek.run (t :: ts) = .ok (t, t :: ts) := rfl

theorem run_next (shallow : depth < 99) : (next depth).run (t :: ts) = .ok (t, ts) := by
  unfold next
  rw [if_pos shallow]
  rfl

theorem run_discard (shallow : depth < 99) : (discard (next depth)).run (t :: ts) = .ok ((), ts) := by
  change (next depth >>= fun _ => pure ()).run (t :: ts) = _
  rw [run_then (run_next shallow)]
  rfl

theorem run_isNext (test : Token → Bool) : (isNext test).run (t :: ts) = .ok (test t, t :: ts) := rfl

theorem run_accept (shallow : depth < 99) (test : Token → Bool) :
    (accept test depth).run (t :: ts) = .ok (test t, if test t then ts else t :: ts) := by
  unfold accept
  rw [run_then (run_isNext test)]
  cases test t with
  | false => rfl
  | true =>
    rw [if_pos rfl, run_then (run_discard shallow)]
    rfl

theorem accept_miss {test : Token → Bool} (miss : test t = false) :
    (accept test depth).run (t :: ts) = .ok (false, t :: ts) := by
  unfold accept
  rw [run_then (run_isNext test), miss]
  rfl

theorem acceptKeyword_miss {w : String} (miss : t.isKeyword w = false) :
    (acceptKeyword w depth).run (t :: ts) = .ok (false, t :: ts) :=
  accept_miss miss

theorem acceptSign_miss {text : String} (miss : t.isSign text = false) :
    (acceptSign text depth).run (t :: ts) = .ok (false, t :: ts) :=
  accept_miss miss

theorem run_acceptKeyword (shallow : depth < 99) (w : String) : (acceptKeyword w depth).run (t :: ts) =
    .ok (t.isKeyword w, if t.isKeyword w then ts else t :: ts) :=
  run_accept shallow _

theorem isKeyword_word (v w : String) : (word v).isKeyword w = decide (v.toUpper = w) := by
  simp [Token.isKeyword, Token.upper?]

theorem upper_keyword : ∀ w ∈ Token.keywords, w.toUpper = w := by
  decide +kernel

theorem keyword_hit {w : String} (known : w ∈ Token.keywords) : (word w).isKeyword w = true := by
  rw [isKeyword_word, upper_keyword w known, decide_eq_true_eq]

theorem keyword_miss {v w : String} (known : v ∈ Token.keywords) (apart : v ≠ w) :
    (word v).isKeyword w = false := by
  rw [isKeyword_word, upper_keyword v known, decide_eq_false_iff_not]
  exact apart

theorem acceptKeyword_hit (shallow : depth < 99) {w : String} (known : w ∈ Token.keywords) :
    (acceptKeyword w depth).run (word w :: ts) = .ok (true, ts) := by
  rw [run_acceptKeyword shallow, keyword_hit known, if_pos rfl]

theorem run_keyword (shallow : depth < 99) {w : String} (known : w ∈ Token.keywords) :
    (keyword w depth).run (word w :: ts) = .ok ((), ts) := by
  unfold keyword expect
  rw [run_then (run_accept shallow _), keyword_hit known]
  rfl

theorem isSign_sign (text : String) : (Token.sign text).isSign text = true :=
  decide_eq_true rfl

theorem isSign_word (v text : String) : (word v).isSign text = false :=
  decide_eq_false Token.noConfusion

theorem acceptSign_hit (shallow : depth < 99) (text : String) :
    (acceptSign text depth).run (Token.sign text :: ts) = .ok (true, ts) := by
  unfold acceptSign
  rw [run_accept shallow, isSign_sign, if_pos rfl]

theorem run_sign (shallow : depth < 99) (text : String) :
    (Parser.sign text depth).run (Token.sign text :: ts) = .ok ((), ts) := by
  unfold Parser.sign expect
  rw [run_then (run_accept shallow _), isSign_sign]
  rfl

theorem discard_acceptKeyword (shallow : depth < 99) (w : String) :
    (discard (acceptKeyword w depth)).run (t :: ts) = .ok ((), if t.isKeyword w then ts else t :: ts) := by
  change (acceptKeyword w depth >>= fun _ => pure ()).run (t :: ts) = _
  rw [run_then (run_acceptKeyword shallow w)]
  rfl

theorem run_name {name : String} (shallow : depth < 99) (named : t.name? = some name) :
    (Parser.name depth).run (t :: ts) = .ok (name, ts) := by
  unfold Parser.name
  rw [run_then run_peek]
  simp only [named]
  rw [run_then (run_discard shallow)]
  rfl

theorem isKeyword_free {v w : String} (free : isFreeName v = true)
    (known : Token.special.contains w = true) :
    (word v).isKeyword w = false := by
  rw [isKeyword_word, decide_eq_false_iff_not]
  rintro rfl
  rw [isFreeName, known] at free
  simp at free

theorem function_known (f : Function) : isFreeName f.name = true ∧ function? f.name = some f := by
  cases f <;> decide +kernel

theorem type_known (type : ColumnType) : isFreeName type.sqlName = true ∧
    (word type.sqlName).isKeyword "GENERATED" = false ∧ typeOf [type.sqlName] = some type := by
  cases type <;> decide +kernel

theorem name_free {v : String} (free : isFreeName v = true) : (word v).name? = some v := by
  have apart : Token.reserved.contains v.toUpper = false := by
    simp only [isFreeName, Token.special, Bool.and_eq_true, Bool.not_eq_true', List.contains_append,
      Bool.or_eq_false_iff] at free
    exact free.2.1.1
  rw [Token.name?, apart, if_neg Bool.false_ne_true]

theorem label_free {v : String} (free : isFreeName v = true) : (word v).label? = some v := by
  have apart : Token.joinWords.contains v.toUpper = false := by
    simp only [isFreeName, Token.special, Bool.and_eq_true, Bool.not_eq_true', List.contains_append,
      Bool.or_eq_false_iff] at free
    exact free.2.1.2
  have indexed : v.toUpper ≠ "INDEXED" := by
    have known := isKeyword_free (w := "INDEXED") free (by decide)
    simpa [isKeyword_word] using known
  simp only [Token.label?, Token.upper?, apart, indexed, name_free free]
  simp

theorem run_unlabelled (as : t.isKeyword "AS" = false) (label : t.label? = none) :
    (Parser.label? depth).run (t :: ts) = .ok (none, t :: ts) := by
  unfold Parser.label?
  rw [run_then (acceptKeyword_miss as), if_neg Bool.false_ne_true, run_then run_peek, label]
  rfl

-- A token at which an expression ends that is held together at a level or more.
def stops (level : Nat) (t : Token) : Bool :=
  !t.isSign "." && !t.isKeyword "ESCAPE" && match joint? t with
    | some (binds, _) => binds < level
    | none => !t.isKeyword "COLLATE" &&
      (4 < level || !(["IS", "ISNULL", "NOTNULL", "BETWEEN", "IN", "NOT"].any t.isKeyword))

theorem stops_mono {higher : Nat} (stop : stops level t = true) (above : level ≤ higher) :
    stops higher t = true := by
  unfold stops at stop ⊢
  cases joined : joint? t with
  | some joint =>
    simp [joined] at stop ⊢
    exact ⟨stop.1, by omega⟩
  | none =>
    simp [joined] at stop ⊢
    refine ⟨stop.1, stop.2.1, stop.2.2.imp (fun low => by omega) id⟩

theorem stops_keywords : (∀ w ∈ Token.keywords, w ∉ ["AND", "IS", "NOT"] → stops 1 (word w) = true) ∧
    stops 3 (word "AND") = true ∧ stops 5 (word "IS") = true := by
  decide +kernel

theorem stops_keyword {w : String} (known : w ∈ Token.keywords) (other : w ∉ ["AND", "IS", "NOT"]) :
    stops 1 (word w) = true :=
  stops_keywords.1 w known other

theorem run_operators {left : Syntax.Expr} (stop : stops level t = true) :
    (operators (fuel + 1) depth level left).run (t :: ts) = .ok (left, t :: ts) := by
  simp only [stops, Bool.and_eq_true] at stop
  obtain ⟨-, stop⟩ := stop
  rw [operators, run_then run_peek]
  cases joined : joint? t with
  | some joint =>
    obtain ⟨binds, op⟩ := joint
    simp only [joined, decide_eq_true_eq] at stop
    simp [stop]
  | none =>
    simp only [joined, Bool.and_eq_true, Bool.not_eq_true'] at stop
    obtain ⟨collate, tests⟩ := stop
    simp at tests
    rcases tests with high | ⟨is, isnull, notnull, between, in_, not⟩
    · simp [collate, Nat.not_le.mpr high]
    · simp [collate, is, isnull, notnull, between, in_, not]

theorem run_expression {left : Syntax.Expr} (ran : (operand fuel depth).run ts = .ok (left, ts')) :
    (expression (fuel + 1) depth level).run ts = (operators fuel depth level left).run ts' := by
  rw [expression, run_then ran]

theorem operand_null (shallow : depth < 99) :
    (operand (fuel + 1) depth).run (word "NULL" :: ts) = .ok (.null, ts) := by
  rw [operand, run_then run_peek]
  simp only [↓reduceIte, keyword_miss (v := "NULL") (w := "NOT") (by decide) (by decide), isSign_word,
    keyword_hit (w := "NULL") (by decide), Bool.false_eq_true, Bool.or_false]
  rw [run_then (run_discard shallow)]
  rfl

theorem operand_integer (shallow : depth < 99) (text : String) :
    (operand (fuel + 1) depth).run (.integer text :: ts) = .ok (.integer (integerOf text), ts) := by
  rw [operand, run_then run_peek]
  simp [Token.isKeyword, Token.upper?, Token.isSign, run_discard shallow]

theorem operand_parameter (shallow : depth < 99) (text : String) :
    (operand (fuel + 1) depth).run (.parameter text :: ts) = .ok (.parameter, ts) := by
  rw [operand, run_then run_peek]
  simp [Token.isKeyword, Token.upper?, Token.isSign, run_discard shallow]

theorem operand_minus {n : Int} (shallow : depth < 99) (sign : 0 ≤ n)
    (ran : (expression fuel (depth + 1) 12).run ts = .ok (.integer n, ts')) :
    (operand (fuel + 1) depth).run (Token.sign "-" :: ts) = .ok (.integer (-n), ts') := by
  rw [operand, run_then run_peek]
  simp [Token.isKeyword, Token.upper?, Token.isSign, run_discard shallow, ran, sign]

theorem operand_text (shallow : depth < 99) (text s : String) (dot : t.isSign "." = false) :
    (operand (fuel + 2) depth).run (.string text s :: t :: ts) = .ok (.text s, t :: ts) := by
  rw [operand, run_then run_peek]
  simp [Token.isKeyword, Token.upper?, Token.isSign, Token.name?, run_discard shallow]
  unfold named
  rw [run_then (acceptSign_miss dot)]
  rfl

theorem operand_name {v : String} (shallow : depth < 99) (free : isFreeName v = true) :
    (operand (fuel + 1) depth).run (word v :: ts) = (named fuel depth (word v) v).run ts := by
  have apart {w : String} (known : Token.special.contains w = true) := isKeyword_free free known
  have now : (["CURRENT_DATE", "CURRENT_TIME", "CURRENT_TIMESTAMP"].any (word v).isKeyword) = false := by
    simp only [List.any_cons, List.any_nil, apart (w := "CURRENT_DATE") (by decide),
      apart (w := "CURRENT_TIME") (by decide), apart (w := "CURRENT_TIMESTAMP") (by decide), Bool.or_self]
  rw [operand, run_then run_peek]
  simp only [↓reduceIte, apart (w := "NOT") (by decide), apart (w := "NULL") (by decide), isSign_word, now,
    apart (w := "EXISTS") (by decide), apart (w := "CASE") (by decide), apart (w := "CAST") (by decide),
    apart (w := "RAISE") (by decide), Bool.false_eq_true, Bool.or_self, name_free free]
  rw [run_then (run_discard shallow)]

theorem operand_column {qualifier name : String} (shallow : depth + 3 < 99)
    (first : isFreeName qualifier = true)
    (second : isFreeName name = true) (dot : t.isSign "." = false) :
    (operand (fuel + 2) depth).run (word qualifier :: Token.sign "." :: word name :: t :: ts) =
      .ok (.column qualifier name, t :: ts) := by
  rw [operand_name (by omega) first]
  unfold named
  rw [run_then (acceptSign_hit (by omega) "."), if_pos rfl,
    run_then (run_name (by omega) (name_free second)), run_then (acceptSign_miss dot)]
  rfl

theorem operand_call {f : Function} {args : List Syntax.Expr} (shallow : depth + 4 < 99)
    (star : t.isSign "*" = false) (close : t.isSign ")" = false) (distinct : t.isKeyword "DISTINCT" = false)
    (all : t.isKeyword "ALL" = false)
    (ran : (arguments fuel (depth + 3)).run (t :: ts) = .ok (args, Token.sign ")" :: ts')) :
    (operand (fuel + 2) depth).run (word f.name :: Token.sign "(" :: t :: ts) = .ok (.call f args, ts') := by
  obtain ⟨free, known⟩ := function_known f
  have identifier : (word f.name).identifier?.isNone = false := by
    have own : (word f.name).identifier? = (word f.name).name? := rfl
    rw [own, name_free free]
    rfl
  rw [operand_name (by omega) free]
  unfold named
  rw [run_then (acceptSign_miss rfl)]
  simp only [↓reduceIte, identifier, label_free free, Bool.false_eq_true]
  rw [run_then (acceptSign_hit (by omega) "(")]
  simp only [↓reduceIte, Option.isSome_some, Bool.and_self]
  rw [run_then (acceptSign_miss star)]
  simp only [↓reduceIte, Bool.false_eq_true]
  rw [run_then (acceptSign_miss close)]
  simp only [↓reduceIte, Bool.false_eq_true]
  rw [run_then (acceptKeyword_miss distinct)]
  simp only [↓reduceIte, Bool.false_eq_true]
  rw [run_then (discard_acceptKeyword (by omega) "ALL"), all, if_neg Bool.false_ne_true, run_then ran,
    run_then (run_sign (by omega) ")"), callOf, known]
  rfl

theorem operand_cast {e : Syntax.Expr} {type : ColumnType} (shallow : depth + 5 < 99)
    (ran : (expression (fuel + 2) (depth + 2) 1).run ts =
      .ok (e, word "AS" :: word type.sqlName :: Token.sign ")" :: ts')) :
    (operand (fuel + 3) depth).run (word "CAST" :: Token.sign "(" :: ts) = .ok (.cast e type, ts') := by
  obtain ⟨free, plain, known⟩ := type_known type
  have typed : (typeWords (depth + 4) (fuel + 2)).run (word type.sqlName :: Token.sign ")" :: ts') =
      .ok ([type.sqlName], Token.sign ")" :: ts') := by
    have last : (Token.sign ")").label? = none := rfl
    simp (disch := omega) [typeWords, label_free free, plain, run_discard, last, Token.text]
  have sized : (typeSize (depth + 5)).run (Token.sign ")" :: ts') = .ok ((), Token.sign ")" :: ts') := by
    rw [typeSize, run_then (acceptSign_miss rfl)]
    rfl
  have apart {w : String} (other : "CAST" ≠ w) := keyword_miss (v := "CAST") (by decide) other
  rw [operand, run_then run_peek]
  simp only [↓reduceIte, apart (w := "NOT") (by decide), apart (w := "NULL") (by decide), isSign_word,
    apart (w := "EXISTS") (by decide), apart (w := "CASE") (by decide),
    keyword_hit (w := "CAST") (by decide), Bool.false_eq_true, Bool.or_self]
  rw [run_then (run_discard (by omega)), run_then (run_sign (by omega) _), run_then ran,
    run_then (run_keyword (by omega) (by decide)), run_then typed]
  simp only [↓reduceIte, List.isEmpty_cons, Bool.false_eq_true]
  rw [run_then sized, run_then (run_sign (by omega) _), known]
  rfl

theorem operand_exists {query : Syntax.Select} (shallow : depth + 3 < 99)
    (ran : (Parser.query fuel (depth + 2)).run ts = .ok (⟨query, []⟩, Token.sign ")" :: ts')) :
    (operand (fuel + 1) depth).run (word "EXISTS" :: Token.sign "(" :: ts) =
    .ok (.exists false query, ts') := by
  have apart {w : String} (other : "EXISTS" ≠ w) := keyword_miss (v := "EXISTS") (by decide) other
  rw [operand, run_then run_peek]
  simp only [↓reduceIte, apart (w := "NOT") (by decide), apart (w := "NULL") (by decide), isSign_word,
    keyword_hit (w := "EXISTS") (by decide), Bool.false_eq_true, Bool.or_self]
  rw [run_then (run_discard (by omega)), run_then (run_sign (by omega) _), run_then ran,
    run_then (run_sign (by omega) _)]
  rfl

theorem operand_not {e : Syntax.Expr} (shallow : depth < 99)
    (ran : (expression fuel (depth + 1) 3).run ts = .ok (e, ts')) :
    (operand (fuel + 1) depth).run (word "NOT" :: ts) = .ok (negated e, ts') := by
  rw [operand, run_then run_peek, keyword_hit (by decide), if_pos rfl, run_then (run_discard (by omega)),
    run_then ran]
  rfl

theorem operand_case {condition value otherwise : Syntax.Expr} {middle ending : List Token}
    (shallow : depth + 4 < 99)
    (first : (expression (fuel + 1) (depth + 3) 1).run ts = .ok (condition, word "THEN" :: middle))
    (second : (expression (fuel + 1) (depth + 5) 1).run middle = .ok (value, word "ELSE" :: ending))
    (third : (expression fuel (depth + 4) 1).run ending = .ok (otherwise, word "END" :: ts')) :
    (operand (fuel + 3) depth).run (word "CASE" :: word "WHEN" :: ts) =
      .ok (caseOf condition value [otherwise], ts') := by
  have rest : (alternatives (fuel + 1) depth).run (word "ELSE" :: ending) = .ok ([otherwise], ts') := by
    rw [alternatives, run_then (acceptKeyword_miss (keyword_miss (by decide) (by decide))),
      if_neg Bool.false_ne_true, run_then (acceptKeyword_hit (by omega) (by decide)), if_pos rfl,
      run_then third, run_then (run_keyword (by omega) (by decide))]
    rfl
  have apart {w : String} (other : "CASE" ≠ w) := keyword_miss (v := "CASE") (by decide) other
  rw [operand, run_then run_peek]
  simp only [↓reduceIte, apart (w := "NOT") (by decide), apart (w := "NULL") (by decide), isSign_word,
    apart (w := "EXISTS") (by decide), keyword_hit (w := "CASE") (by decide), Bool.false_eq_true,
    Bool.or_self]
  rw [run_then (run_discard (by omega)), caseExpression, run_then (run_isNext _), keyword_hit (by decide),
    if_pos rfl, pure_bind, run_then (run_keyword (by omega) (by decide)), run_then first,
    run_then (run_keyword (by omega) (by decide)), run_then second, run_then rest]
  rfl

end Syntax.Parser

open Syntax.Parser hiding sign

namespace Expr

theorem level_le_tight (e : Expr) : e.level ≤ e.tight := by
  unfold level tight
  split <;> omega

-- After the tokens of an expression the parser looks for operators behind it, wherever there was
-- enough fuel for all of them and no operator takes the end of the expression away.
def IsParsed (e : Expr) : Prop :=
  ∀ (fuel depth level : Nat) (t : Token) (rest : List Token), level ≤ e.level → depth + e.reach ≤ 99 →
    4 * e.tokens.length < fuel → stops e.tight t = true →
    ∃ left, fuel ≤ left + 4 * e.tokens.length ∧
      (expression fuel depth level).run (e.tokens ++ t :: rest) =
        (operators left depth level e.written).run (t :: rest)

variable {e : Expr} {fuel depth level : Nat} {t : Token} {rest : List Token}

theorem IsParsed.whole (read : e.IsParsed) (fits : level ≤ e.level) (deep : depth + e.reach ≤ 99)
    (enough : 4 * e.tokens.length < fuel) (stop : stops level t = true) :
    (expression fuel depth level).run (e.tokens ++ t :: rest) = .ok (e.written, t :: rest) := by
  have end_ := stops_mono stop (fits.trans e.level_le_tight)
  obtain ⟨left, more, ran⟩ := read fuel depth level t rest fits deep enough end_
  obtain ⟨left, rfl⟩ : ∃ n, left = n + 1 := ⟨left - 1, by omega⟩
  rw [ran, run_operators stop]

theorem no_dot (stop : stops level t = true) : t.isSign "." = false := by
  simp only [stops, Bool.and_eq_true, Bool.not_eq_true'] at stop
  exact stop.1.1

theorem no_escape (stop : stops level t = true) : t.isKeyword "ESCAPE" = false := by
  simp only [stops, Bool.and_eq_true, Bool.not_eq_true'] at stop
  exact stop.1.2

theorem isParsed_column {qualifier name : String} (first : isFreeName qualifier = true)
    (second : isFreeName name = true) : (Expr.column qualifier name).IsParsed := by
  intro fuel depth level t rest _ deep enough stop
  simp only [reach] at deep
  simp only [tokens, List.length_cons, List.length_nil] at enough ⊢
  obtain ⟨fuel, rfl⟩ : ∃ n, fuel = n + 3 := ⟨fuel - 3, by omega⟩
  refine ⟨fuel + 2, by omega, run_expression (operand_column ?_ first second (no_dot stop))⟩
  omega

theorem isParsed_text {s : String} : (Expr.text s).IsParsed := by
  intro fuel depth level t rest _ deep enough stop
  simp only [reach] at deep
  simp only [tokens, List.length_cons, List.length_nil] at enough ⊢
  obtain ⟨fuel, rfl⟩ : ∃ n, fuel = n + 3 := ⟨fuel - 3, by omega⟩
  refine ⟨fuel + 2, by omega, run_expression (operand_text ?_ _ s (no_dot stop))⟩
  omega

theorem isParsed_null : Expr.null.IsParsed := by
  intro fuel depth level t rest _ deep enough stop
  simp only [reach] at deep
  simp only [tokens, List.length_cons, List.length_nil] at enough ⊢
  obtain ⟨fuel, rfl⟩ : ∃ n, fuel = n + 2 := ⟨fuel - 2, by omega⟩
  exact ⟨fuel + 1, by omega, run_expression (operand_null (by omega))⟩

theorem isParsed_param {n : Nat} : (Expr.param n).IsParsed := by
  intro fuel depth level t rest _ deep enough stop
  simp only [reach] at deep
  simp only [tokens, List.length_cons, List.length_nil] at enough ⊢
  obtain ⟨fuel, rfl⟩ : ∃ n, fuel = n + 2 := ⟨fuel - 2, by omega⟩
  exact ⟨fuel + 1, by omega, run_expression (operand_parameter (by omega) _)⟩

theorem integerOf_toString (n : Nat) : integerOf (toString n) = n := by
  rw [integerOf, Nat.toString_eq_repr, Nat.toNat?_repr]
  rfl

theorem isParsed_integer {n : Int} : (Expr.integer n).IsParsed := by
  intro fuel depth level t rest _ deep enough stop
  have digits {depth fuel : Nat} (shallow : depth < 99) :=
    @operand_integer (t :: rest) depth fuel shallow (toString n.natAbs)
  simp only [integerOf_toString] at digits
  by_cases negative : n < 0
  · simp only [reach, if_pos negative] at deep
    simp only [tokens, if_pos negative, List.length_append, List.length_cons, List.length_nil] at enough ⊢
    obtain ⟨fuel, rfl⟩ : ∃ n, fuel = n + 4 := ⟨fuel - 4, by omega⟩
    have inner : (expression (fuel + 2) (depth + 1) 12).run (.integer (toString n.natAbs) :: t :: rest) =
        .ok (.integer n.natAbs, t :: rest) := by
      rw [run_expression (digits (by omega)), run_operators (stops_mono stop (by simp [tight]))]
    have minus := operand_minus (by omega) (by omega) inner
    rw [show -(n.natAbs : Int) = n by omega] at minus
    exact ⟨fuel + 3, by omega, run_expression minus⟩
  · simp only [reach, if_neg negative] at deep
    simp only [tokens, if_neg negative, List.nil_append, List.length_cons, List.length_nil] at enough ⊢
    obtain ⟨fuel, rfl⟩ : ∃ n, fuel = n + 2 := ⟨fuel - 2, by omega⟩
    have plain := @digits depth fuel (by omega)
    rw [show (n.natAbs : Int) = n by omega] at plain
    exact ⟨fuel + 1, by omega, run_expression plain⟩

theorem isParsed_cast {e : Expr} {type : ColumnType} (inner : e.IsParsed) (fits : 1 ≤ e.level) :
    (Expr.cast e type).IsParsed := by
  intro fuel depth level t rest _ deep enough stop
  simp only [reach] at deep
  simp only [tokens, List.length_cons, List.length_append, List.length_nil] at enough ⊢
  obtain ⟨fuel, rfl⟩ : ∃ n, fuel = n + 4 := ⟨fuel - 4, by omega⟩
  have ran := @inner.whole e (fuel + 2) (depth + 2) 1 (word "AS")
    (word type.sqlName :: sign ")" :: t :: rest)
    fits (by omega) (by omega) (stops_keyword (by decide) (by decide))
  refine ⟨fuel + 3, by omega, ?_⟩
  have shape : word "CAST" :: sign "(" :: (e.tokens ++ [word "AS", word type.sqlName, sign ")"]) ++ t :: rest =
      word "CAST" :: sign "(" :: (e.tokens ++ word "AS" :: word type.sqlName :: sign ")" :: t :: rest) := by
    simp
  rw [shape]
  exact run_expression (operand_cast (by omega) ran)

theorem joint?_token (op : BinaryOp) (written : op ≠ .is) :
    joint? op.token = some (op.level, .binary op) := by
  cases op <;> first | rfl | exact absurd rfl written

theorem stops_token {op : BinaryOp} (above : op.level < level) : stops level op.token = true := by
  by_cases same : op = .is
  · subst same
    exact stops_mono stops_keywords.2.2 above
  · have plain : op.token.isSign "." = false ∧ op.token.isKeyword "ESCAPE" = false := by
      cases op <;> first | exact ⟨rfl, rfl⟩ | exact absurd rfl same
    simp [stops, plain, joint?_token op same, above]

theorem four_le_level (op : BinaryOp) : 4 ≤ op.level := by
  cases op <;> decide

theorem level_lt_tight (high : 4 ≤ e.level) : e.level < e.tight := by
  unfold level tight at *
  split at high <;> omega

theorem run_operators_token {op : BinaryOp} {left right : Syntax.Expr} {ts ts' : List Token}
    (fits : level ≤ op.level) (escape : t.isKeyword "ESCAPE" = false) (shallow : depth + 2 < 99)
    (opening : op = .is → ∃ a more, ts = a :: more ∧ a.isKeyword "NOT" = false)
    (ran : (expression fuel (depth + 2) (op.level + 1)).run ts = .ok (right, t :: ts')) :
    (operators (fuel + 1) depth level left).run (op.token :: ts) =
      (operators fuel depth level (.binary op left right)).run (t :: ts') := by
  by_cases same : op = .is
  · obtain ⟨a, more, rfl, plain⟩ := opening same
    subst same
    have none : joint? (BinaryOp.token .is) = none := by
      rw [BinaryOp.token, joint?, upper_keyword "IS" (by decide)]
      rfl
    have plain_ : (BinaryOp.token .is).isKeyword "COLLATE" = false := keyword_miss (by decide) (by decide)
    have hit : (BinaryOp.token .is).isKeyword "IS" = true := keyword_hit (by decide)
    have low : level ≤ 4 := fits
    have ran : (expression fuel (depth + 2 + 0) 5).run (a :: more) = .ok (right, t :: ts') := ran
    rw [operators, run_then run_peek]
    simp only [none, plain_, hit, low, Bool.false_eq_true, if_false, if_true]
    rw [run_then (run_discard (by omega)), run_then (run_acceptKeyword (by omega) "NOT"), plain]
    simp only [Bool.false_eq_true, if_false]
    rw [run_then ran]
  · have joint := joint?_token op same
    have sign : op.token.upper?.isSome = false := by cases op <;> first | rfl | exact absurd rfl same
    rw [operators, run_then run_peek]
    simp only [joint, Nat.not_lt.mpr fits, if_false]
    rw [run_then (run_discard (by omega)), run_then ran, run_then (acceptKeyword_miss escape)]
    simp only [sign, Bool.and_false, Bool.false_eq_true, if_false]
    rfl

theorem isParsed_binary {op : BinaryOp} {left right : Expr} (first : left.IsParsed)
    (second : right.IsParsed)
    (opening : op = .is → ∃ a more, right.tokens = a :: more ∧ a.isKeyword "NOT" = false)
    (before : op.level ≤ left.level) (behind : op.level < right.level) :
    (Expr.binary op left right).IsParsed := by
  intro fuel depth level t rest fits deep enough stop
  simp only [reach] at deep
  simp only [Expr.level] at fits
  simp only [tight] at stop
  simp only [tokens, List.length_append, List.length_cons] at enough ⊢
  have bound := (before.trans_lt (level_lt_tight ((four_le_level op).trans before)))
  obtain ⟨ahead, more, ran⟩ :=
    first fuel depth level op.token (right.tokens ++ t :: rest) (fits.trans before)
    (by omega) (by omega) (stops_token bound)
  obtain ⟨ahead, rfl⟩ : ∃ n, ahead = n + 1 := ⟨ahead - 1, by omega⟩
  have ran' := @second.whole right ahead (depth + 2) (op.level + 1) t rest behind (by omega) (by omega) stop
  refine ⟨ahead, by omega, ?_⟩
  rw [List.append_assoc, List.cons_append, ran]
  refine run_operators_token fits (no_escape stop) (by omega) (fun same => ?_) ran'
  obtain ⟨a, others, shape, plain⟩ := opening same
  exact ⟨a, others ++ t :: rest, by rw [shape]; rfl, plain⟩

theorem three_le_level (e : Expr) : 3 ≤ e.level := by
  unfold level
  split
  · exact (four_le_level _).trans' (by decide)
  all_goals decide

end Expr

-- How an expression may begin that is held together at a level.
def Token.opens (level : Nat) (a : Token) : Bool :=
  !(a.isSign "*" || a.isSign ")" || a.isKeyword "DISTINCT" || a.isKeyword "ALL" ||
    4 ≤ level && a.isKeyword "NOT")

-- The first of some tokens may begin an expression, and the ones behind it do not ask for all columns
-- of a table.
def Opens (level : Nat) (ts : List Token) : Prop :=
  ∃ a more, ts = a :: more ∧ a.opens level = true ∧
    ∀ t rest tail, t ≠ sign "." → more ++ t :: rest ≠ sign "." :: sign "*" :: tail

namespace Opens

variable {level higher : Nat} {a b t : Token} {ts us : List Token}

theorem of_single (opens : a.opens level = true) : Opens level [a] :=
  ⟨a, [], rfl, opens, fun _ _ _ apart same => apart (List.cons.inj same).1⟩

theorem of_second (opens : a.opens level = true) (behind : b ≠ sign ".") : Opens level (a :: b :: ts) :=
  ⟨a, b :: ts, rfl, opens, fun _ _ _ _ same => behind (List.cons.inj same).1⟩

theorem append (opens : Opens level ts) (apart : t ≠ sign ".") : Opens level (ts ++ t :: us) := by
  obtain ⟨a, more, rfl, first, behind⟩ := opens
  refine ⟨a, more ++ t :: us, rfl, first, fun t' rest tail _ => ?_⟩
  rw [List.append_assoc]
  exact behind t _ tail apart

theorem mono (opens : Opens higher ts) (high : 4 ≤ higher) : Opens level ts := by
  obtain ⟨a, more, rfl, first, behind⟩ := opens
  refine ⟨a, more, rfl, ?_, behind⟩
  simp [Token.opens, high] at first ⊢
  simp [first]

end Opens

namespace Expr

variable {fuel depth level : Nat} {t : Token} {rest : List Token}

theorem opens_word {name : String} (level : Nat)
    (apart : ∀ w ∈ ["DISTINCT", "ALL", "NOT"], name.toUpper ≠ w) :
    (word name).opens level = true := by
  simp only [List.forall_mem_cons] at apart
  simp [Token.opens, isKeyword_word, Token.isSign, apart]

theorem opens_keyword {w : String} (level : Nat) (known : w ∈ Token.keywords)
    (other : ∀ v ∈ ["DISTINCT", "ALL", "NOT"], w ≠ v) : (word w).opens level = true :=
  opens_word level fun v asked same => other v asked ((upper_keyword w known).symm.trans same)

theorem opens_not (low : level < 4) : (word "NOT").opens level = true := by
  have apart {w : String} (other : "NOT" ≠ w) := keyword_miss (v := "NOT") (by decide) other
  simp only [Token.opens, isSign_word, apart (w := "DISTINCT") (by decide), apart (w := "ALL") (by decide),
    Nat.not_le.mpr low, decide_false, Bool.false_and, Bool.or_self, Bool.not_false]

theorem opens_free {name : String} (level : Nat) (free : isFreeName name = true) :
    (word name).opens level = true := by
  refine opens_word level fun w known same => ?_
  have reserved : ∀ w ∈ ["DISTINCT", "ALL", "NOT"], Token.special.contains w = true := by decide
  have apart := isKeyword_free free (reserved w known)
  rw [isKeyword_word, decide_eq_false_iff_not] at apart
  exact apart same

theorem opens_chain {m : Token} {ts : List Token} {parts : List (List Token)} {level : Nat}
    (first : Opens level ts) (apart : m ≠ sign ".") : Opens level (Token.chain [m] (ts :: parts)) := by
  cases parts with
  | nil => simpa [Token.chain] using first
  | cons part parts =>
    rw [Token.chain, List.flatMap_cons, List.append_assoc, List.singleton_append]
    exact first.append apart

mutual

theorem opens_tokens : (e : Expr) → e.isLegible = true → Opens e.level e.tokens
  | .column qualifier name, legible => by
    obtain ⟨first, second⟩ := Bool.and_eq_true_iff.mp legible
    refine ⟨word qualifier, [sign ".", word name], rfl, opens_free _ first, fun t rest tail _ same => ?_⟩
    simp at same
  | .integer n, _ => by
    rw [tokens]
    split
    · exact .of_second rfl (by simp)
    · exact .of_single rfl
  | .text s, _ => .of_single rfl
  | .null, _ => .of_single (opens_keyword _ (by decide) (by decide))
  | .typedNull type, _ => .of_second (opens_keyword _ (by decide) (by decide)) (by decide)
  | .param n, _ => .of_single rfl
  | .binary op left right, legible => by
    simp only [isLegible, Bool.and_eq_true, decide_eq_true_eq] at legible
    obtain ⟨⟨⟨before, -⟩, first⟩, -⟩ := legible
    have apart : op.token ≠ sign "." := by cases op <;> decide
    exact ((opens_tokens left first).mono ((four_le_level op).trans before)).append apart
  | .call f args, _ => .of_second (opens_free _ (function_known f).1) (by decide)
  | .cast e type, _ => .of_second (opens_keyword _ (by decide) (by decide)) (by decide)
  | .concat parts, legible => by
    simp only [isLegible, Bool.and_eq_true, Bool.not_eq_true'] at legible
    exact opens_concat parts legible.1 legible.2
  | .nullCase e onNull otherwise, _ => .of_second (opens_keyword _ (by decide) (by decide)) (by decide)
  | .exists negated query, _ => by
    cases negated with
    | true => exact .of_second (opens_not (show 3 < 4 by decide)) (by decide)
    | false => exact .of_second (opens_keyword _ (by decide) (by decide)) (by decide)

theorem opens_concat : (parts : List Expr) → parts.isEmpty = false → allLegible 11 parts = true →
    Opens 10 (Token.chain [sign "||"] (tokensAll parts))
  | [], impossible, _ => by cases impossible
  | e :: rest, _, legible => by
    simp only [allLegible, Bool.and_eq_true, decide_eq_true_eq] at legible
    exact opens_chain ((opens_tokens e legible.1.2).mono (legible.1.1.trans' (by decide))) (by decide)

end

-- What stands behind one of several parts: the mark between two of them, or what is behind them all.
theorem follows_part {P : Token → Prop} {m t : Token} (own : P m) (last : P t) (parts : List (List Token))
    (rest : List Token) : ∃ t' rest', parts.flatMap ([m] ++ ·) ++ t :: rest = t' :: rest' ∧ P t' := by
  cases parts with
  | nil => exact ⟨t, rest, rfl, last⟩
  | cons part parts => exact ⟨m, _, rfl, own⟩

theorem run_moreArguments {es : List Expr} (parsed : ∀ e ∈ es, e.IsParsed) {reversed : List Syntax.Expr}
    (deep : depth + reachAll es + 2 ≤ 99)
    (enough : 4 * ((tokensAll es).flatMap ([sign ","] ++ ·)).length < fuel) (stop : stops 1 t = true)
    (comma : t.isSign "," = false) :
    (moreArguments fuel depth reversed).run ((tokensAll es).flatMap ([sign ","] ++ ·) ++ t :: rest) =
      .ok (reversed.reverse ++ writtenAll es, t :: rest) := by
  induction es generalizing fuel reversed with
  | nil =>
    obtain ⟨fuel, rfl⟩ : ∃ n, fuel = n + 1 := ⟨fuel - 1, by omega⟩
    change (moreArguments (fuel + 1) depth reversed).run (t :: rest) = _
    rw [moreArguments, run_then (acceptSign_miss comma), writtenAll, List.append_nil]
    rfl
  | cons e es ih =>
    obtain ⟨own, others⟩ := List.forall_mem_cons.mp parsed
    simp only [tokensAll, List.flatMap_cons, List.length_append, List.length_cons, List.length_nil,
      reachAll] at enough deep ⊢
    obtain ⟨fuel, rfl⟩ : ∃ n, fuel = n + 1 := ⟨fuel - 1, by omega⟩
    have next := @ih fuel others (e.written :: reversed) (by omega) (by omega)
    obtain ⟨t', rest', shape, stop'⟩ := follows_part (P := fun t => stops 1 t = true)
      (m := sign ",") rfl stop (tokensAll es) rest
    rw [List.append_assoc, List.append_assoc, shape]
    have ran := @own.whole e fuel (depth + 2) 1 t' rest' ((three_le_level e).trans' (by decide)) (by omega)
      (by omega) stop'
    rw [List.singleton_append, moreArguments, run_then (acceptSign_hit (by omega) ","), if_pos rfl,
      run_then ran, ← shape, next, List.reverse_cons, List.append_assoc]
    rfl

theorem run_arguments {e : Expr} {es : List Expr} (parsed : ∀ x ∈ e :: es, x.IsParsed)
    (deep : depth + reachAll (e :: es) + 2 ≤ 99)
    (enough : 4 * (Token.chain [sign ","] (tokensAll (e :: es))).length + 1 < fuel)
    (stop : stops 1 t = true) (comma : t.isSign "," = false) :
    (arguments fuel depth).run (Token.chain [sign ","] (tokensAll (e :: es)) ++ t :: rest) =
      .ok (writtenAll (e :: es), t :: rest) := by
  obtain ⟨own, others⟩ := List.forall_mem_cons.mp parsed
  simp only [tokensAll, Token.chain, List.length_append, reachAll] at enough deep ⊢
  obtain ⟨fuel, rfl⟩ : ∃ n, fuel = n + 1 := ⟨fuel - 1, by omega⟩
  have next := @run_moreArguments fuel depth t rest es others [e.written] (by omega) (by omega) stop comma
  obtain ⟨t', rest', shape, stop'⟩ := follows_part (P := fun t => stops 1 t = true)
    (m := sign ",") rfl stop (tokensAll es) rest
  have ran := @own.whole e fuel depth 1 t' rest' ((three_le_level e).trans' (by decide)) (by omega)
    (by omega) stop'
  rw [List.append_assoc, shape, arguments, run_then ran, ← shape, next]
  rfl

theorem isParsed_call {f : Function} {e : Expr} {es : List Expr} (parsed : ∀ x ∈ e :: es, x.IsParsed)
    (opens : Opens e.level e.tokens) : (Expr.call f (e :: es)).IsParsed := by
  intro fuel depth level t rest _ deep enough stop
  simp only [reach] at deep
  simp only [tokens, List.length_cons, List.length_append, List.length_nil] at enough ⊢
  obtain ⟨fuel, rfl⟩ : ∃ n, fuel = n + 3 := ⟨fuel - 3, by omega⟩
  have opened : Opens e.level (Token.chain [sign ","] (tokensAll (e :: es))) :=
    opens_chain opens (by decide)
  obtain ⟨a, more, shape, first, -⟩ := opened
  have ran := @run_arguments fuel (depth + 3) (sign ")") (t :: rest) e es parsed (by omega) (by omega)
    rfl rfl
  simp only [Token.opens, Bool.not_eq_true', Bool.or_eq_false_iff] at first
  obtain ⟨⟨⟨⟨star, paren⟩, distinct⟩, all⟩, -⟩ := first
  change Token.chain [sign ","] (tokensAll (e :: es)) = a :: more at shape
  refine ⟨fuel + 2, by omega, run_expression ?_⟩
  rw [shape] at ran ⊢
  have called := operand_call (f := f) (by omega) star paren distinct all ran
  simpa [written] using called

theorem run_bars {es : List Expr} (parsed : ∀ e ∈ es, e.IsParsed) (tied : ∀ e ∈ es, 11 ≤ e.level)
    {left : Syntax.Expr} (fits : level ≤ 10) (deep : depth + reachAll es + 2 ≤ 99)
    (enough : 4 * ((tokensAll es).flatMap ([sign "||"] ++ ·)).length < fuel) (stop : stops 11 t = true) :
    ∃ ahead, fuel ≤ ahead + 4 * ((tokensAll es).flatMap ([sign "||"] ++ ·)).length ∧
      (operators fuel depth level left).run ((tokensAll es).flatMap ([sign "||"] ++ ·) ++ t :: rest) =
        (operators ahead depth level ((writtenAll es).foldl .concat left)).run (t :: rest) := by
  induction es generalizing fuel left with
  | nil => exact ⟨fuel, by simp, rfl⟩
  | cons e es ih =>
    obtain ⟨own, others⟩ := List.forall_mem_cons.mp parsed
    obtain ⟨tie, ties⟩ := List.forall_mem_cons.mp tied
    simp only [tokensAll, List.flatMap_cons, List.length_append, List.length_cons, List.length_nil,
      reachAll] at enough deep ⊢
    obtain ⟨fuel, rfl⟩ : ∃ n, fuel = n + 1 := ⟨fuel - 1, by omega⟩
    obtain ⟨ahead, more, next⟩ := @ih fuel others ties (.concat left e.written) (by omega) (by omega)
    refine ⟨ahead, by omega, ?_⟩
    obtain ⟨t', rest', shape, stop'⟩ := follows_part (P := fun t => stops 11 t = true)
      (m := sign "||") rfl stop (tokensAll es) rest
    have ran := @own.whole e fuel (depth + 2) 11 t' rest' tie (by omega) (by omega) stop'
    have joint : joint? (sign "||") = some (10, .concat) := rfl
    rw [List.append_assoc, List.append_assoc, List.singleton_append, shape, operators, run_then run_peek]
    simp only [joint, Nat.not_lt.mpr fits, if_false]
    rw [run_then (run_discard (by omega)), run_then ran, run_then (acceptKeyword_miss (no_escape stop')),
      ← shape]
    exact next

theorem isParsed_concat {e : Expr} {es : List Expr} (parsed : ∀ x ∈ e :: es, x.IsParsed)
    (tied : ∀ x ∈ e :: es, 11 ≤ x.level) : (Expr.concat (e :: es)).IsParsed := by
  intro fuel depth level t rest fits deep enough stop
  obtain ⟨own, others⟩ := List.forall_mem_cons.mp parsed
  obtain ⟨tie, ties⟩ := List.forall_mem_cons.mp tied
  have fits : level ≤ 10 := fits
  have stop : stops 11 t = true := stop
  simp only [reach, reachAll] at deep
  simp only [tokens, tokensAll, Token.chain, List.length_append] at enough ⊢
  obtain ⟨t', rest', shape, stop'⟩ := follows_part (P := fun t => stops 11 t = true)
    (m := sign "||") rfl stop (tokensAll es) rest
  obtain ⟨ahead, more, ran⟩ := own fuel depth level t' rest' (by omega) (by omega) (by omega)
    (stops_mono stop' (tie.trans e.level_le_tight))
  obtain ⟨ahead', more', ran'⟩ :=
    @run_bars ahead depth level t rest es others ties e.written fits (by omega)
    (by omega) stop
  refine ⟨ahead', by omega, ?_⟩
  rw [List.append_assoc, shape, ran, ← shape, ran']
  rfl

theorem isParsed_nullCase {e onNull otherwise : Expr} (condition : e.IsParsed) (first : onNull.IsParsed)
    (second : otherwise.IsParsed) (tied : 4 ≤ e.level) : (Expr.nullCase e onNull otherwise).IsParsed := by
  intro fuel depth level t rest _ deep enough stop
  simp only [reach] at deep
  simp only [tokens, List.length_cons, List.length_append, List.length_nil] at enough ⊢
  obtain ⟨fuel, rfl⟩ : ∃ n, fuel = n + 4 := ⟨fuel - 4, by omega⟩
  have test : (Expr.binary .is e .null).IsParsed :=
    isParsed_binary condition isParsed_null
    (fun _ => ⟨word "NULL", [], rfl, keyword_miss (by decide) (by decide)⟩)
      (show BinaryOp.level .is ≤ e.level from tied) (by decide)
  have whole := @test.whole _ (fuel + 1) (depth + 3) 1 (word "THEN")
    (onNull.tokens ++ word "ELSE" :: (otherwise.tokens ++ word "END" :: t :: rest))
    ((three_le_level _).trans' (by decide))
    (by simp only [reach]; omega)
    (by simp only [tokens, List.length_append, List.length_cons, List.length_nil]; omega)
    (stops_keyword (by decide) (by decide))
  have ran := operand_case (by omega) whole
    (@first.whole onNull (fuel + 1) (depth + 5) 1 (word "ELSE")
    (otherwise.tokens ++ word "END" :: t :: rest)
      ((three_le_level _).trans' (by decide)) (by omega) (by omega) (stops_keyword (by decide) (by decide)))
    (@second.whole otherwise fuel (depth + 4) 1 (word "END") (t :: rest)
    ((three_le_level _).trans' (by decide))
      (by omega) (by omega) (stops_keyword (by decide) (by decide)))
  refine ⟨fuel + 3, by omega, run_expression ?_⟩
  simpa [tokens, BinaryOp.token, written, caseOf] using ran

theorem run_moreConditions {es : List Expr} (parsed : ∀ e ∈ es, e.IsParsed) {reversed : List Syntax.Expr}
    (deep : depth + reachAll es + 2 ≤ 99)
    (enough : 4 * ((tokensAll es).flatMap ([word "AND"] ++ ·)).length < fuel) (stop : stops 3 t = true)
    (and : t.isKeyword "AND" = false) (or : t.isKeyword "OR" = false) :
    (moreConditions fuel depth reversed).run ((tokensAll es).flatMap ([word "AND"] ++ ·) ++ t :: rest) =
      .ok (reversed.reverse ++ writtenAll es, t :: rest) := by
  induction es generalizing fuel reversed with
  | nil =>
    obtain ⟨fuel, rfl⟩ : ∃ n, fuel = n + 1 := ⟨fuel - 1, by omega⟩
    change (moreConditions (fuel + 1) depth reversed).run (t :: rest) = _
    rw [moreConditions, run_then (acceptKeyword_miss and)]
    simp only [Bool.false_eq_true, if_false]
    rw [run_then (acceptKeyword_miss or), writtenAll, List.append_nil]
    rfl
  | cons e es ih =>
    obtain ⟨own, others⟩ := List.forall_mem_cons.mp parsed
    simp only [tokensAll, List.flatMap_cons, List.length_append, List.length_cons, List.length_nil,
      reachAll] at enough deep ⊢
    obtain ⟨fuel, rfl⟩ : ∃ n, fuel = n + 1 := ⟨fuel - 1, by omega⟩
    have next := @ih fuel others (e.written :: reversed) (by omega) (by omega)
    obtain ⟨t', rest', shape, stop'⟩ := follows_part (P := fun t => stops 3 t = true)
      (m := word "AND") stops_keywords.2.1 stop (tokensAll es) rest
    have ran := @own.whole e fuel (depth + 2) 3 t' rest' (three_le_level e) (by omega) (by omega) stop'
    rw [List.append_assoc, List.append_assoc, shape, List.singleton_append, moreConditions,
      run_then (acceptKeyword_hit (by omega) (by decide)), if_pos rfl, run_then ran, ← shape, next,
      List.reverse_cons, List.append_assoc]
    rfl

-- What stands where nothing is written.
def orOne : List Expr → List Expr
  | [] => [.integer 1]
  | es => es

theorem orOne_cons (es : List Expr) : ∃ e more, orOne es = e :: more := by
  cases es with
  | nil => exact ⟨.integer 1, [], rfl⟩
  | cons e more => exact ⟨e, more, rfl⟩

theorem conditionTokens_eq (es : List Expr) :
    conditionTokens es = Token.chain [word "AND"] (tokensAll (orOne es)) := by
  cases es <;> rfl

theorem chain_orOne (es : List Expr) (between : List Token) :
    (if es.isEmpty then [.integer "1"] else Token.chain between (tokensAll es)) =
      Token.chain between (tokensAll (orOne es)) := by
  cases es <;> rfl

theorem writtenAll_orOne (es : List Expr) :
    (if es.isEmpty then [.integer 1] else writtenAll es) = writtenAll (orOne es) := by
  cases es <;> rfl

theorem forall_orOne {es : List Expr} {P : Expr → Prop} (one : P (.integer 1)) (all : ∀ e ∈ es, P e) :
    ∀ e ∈ orOne es, P e := by
  cases es with
  | nil => exact List.forall_mem_singleton.mpr one
  | cons _ _ => exact all

theorem reachAll_orOne (es : List Expr) : reachAll (orOne es) ≤ reachAll es + 1 := by
  cases es with
  | nil => exact Nat.le_refl 1
  | cons _ _ => exact Nat.le_succ _

theorem run_conditions {es : List Expr} (parsed : ∀ e ∈ es, e.IsParsed)
    (deep : depth + reachAll es + 3 ≤ 99) (enough : 4 * (conditionTokens es).length + 1 < fuel)
    (stop : stops 3 t = true) (and : t.isKeyword "AND" = false) (or : t.isKeyword "OR" = false) :
    (conditions fuel depth).run (conditionTokens es ++ t :: rest) =
    .ok (writtenAll (orOne es), t :: rest) := by
  have parsed := forall_orOne isParsed_integer parsed
  have deep : depth + reachAll (orOne es) + 2 ≤ 99 := by
    have one := reachAll_orOne es
    omega
  rw [conditionTokens_eq] at enough ⊢
  obtain ⟨e, more, shape⟩ := orOne_cons es
  rw [shape] at parsed deep enough ⊢
  obtain ⟨own, others⟩ := List.forall_mem_cons.mp parsed
  simp only [tokensAll, Token.chain, List.length_append, reachAll] at enough deep ⊢
  obtain ⟨fuel, rfl⟩ : ∃ n, fuel = n + 1 := ⟨fuel - 1, by omega⟩
  have next := @run_moreConditions fuel depth t rest more others [e.written] (by omega)
    (by omega) stop and or
  obtain ⟨t', rest', shape', stop'⟩ := follows_part (P := fun t => stops 3 t = true)
    (m := word "AND") stops_keywords.2.1 stop (tokensAll more) rest
  have ran := @own.whole e fuel depth 3 t' rest' (three_le_level e) (by omega) (by omega) stop'
  rw [List.append_assoc, shape', conditions, run_then ran, ← shape', next]
  rfl

-- A token behind the results of a query.
def endsResults (t : Token) : Bool := stops 1 t && t.label?.isNone && !t.isKeyword "AS"

theorem run_result {e : Syntax.Expr} {ts : List Token} {least : Nat}
    (ran : (expression fuel (depth + 4) 1).run (ts ++ t :: rest) = .ok (e, t :: rest))
    (opens : Opens least ts)
    (ends : endsResults t = true) : (results (fuel + 1) depth).run (ts ++ t :: rest) =
      (acceptSign "," (depth + 3) >>= fun again =>
        if again then results fuel depth >>= fun others => pure (e :: others) else pure [e]).run
        (t :: rest) := by
  simp only [endsResults, Bool.and_eq_true, Bool.not_eq_true', Option.isNone_iff_eq_none] at ends
  obtain ⟨⟨stop, label⟩, as⟩ := ends
  have unlabelled : (discard (Syntax.Parser.label? (depth + 6))).run (t :: rest) = .ok ((), t :: rest) := by
    change (Syntax.Parser.label? (depth + 6) >>= fun _ => pure ()).run (t :: rest) = _
    rw [run_then (run_unlabelled as label)]
    rfl
  obtain ⟨a, more, shape, first, behind⟩ := opens
  simp only [Token.opens, Bool.not_eq_true', Bool.or_eq_false_iff, Token.isSign, decide_eq_false_iff_not] at first
  rw [shape] at ran ⊢
  rw [results]
  have got : (get : Syntax.Parser (List Token)).run (a :: more ++ t :: rest) =
    .ok (a :: more ++ t :: rest, a :: more ++ t :: rest) := rfl
  rw [run_then got]
  split
  · rename_i asked
    rw [List.cons_append] at asked
    exact absurd (List.cons.inj asked).2 (behind t rest _ (decide_eq_false_iff_not.mp (no_dot stop)))
  · rename_i asked
    exact absurd (List.cons.inj asked).1 first.1.1.1.1
  · simp only [Nat.lt_irrefl, if_false]
    rw [run_then ran, run_then unlabelled]
    rfl

theorem endsResults_stops (ends : endsResults t = true) : stops 1 t = true := by
  rw [endsResults, Bool.and_eq_true, Bool.and_eq_true] at ends
  exact ends.1.1

theorem run_results {e : Expr} {es : List Expr} (parsed : ∀ x ∈ e :: es, x.IsParsed)
    (opens : ∀ x ∈ e :: es, Opens x.level x.tokens) (deep : depth + reachAll (e :: es) + 4 ≤ 99)
    (enough : 4 * (Token.chain [sign ","] (tokensAll (e :: es))).length + 1 < fuel)
    (ends : endsResults t = true) (comma : t.isSign "," = false) :
    (results fuel depth).run (Token.chain [sign ","] (tokensAll (e :: es)) ++ t :: rest) =
      .ok (writtenAll (e :: es), t :: rest) := by
  induction es generalizing fuel e with
  | nil =>
    obtain ⟨own, -⟩ := List.forall_mem_cons.mp parsed
    obtain ⟨open_, -⟩ := List.forall_mem_cons.mp opens
    simp only [tokensAll, Token.chain, List.flatMap_nil, List.append_nil, reachAll] at enough deep ⊢
    obtain ⟨fuel, rfl⟩ : ∃ n, fuel = n + 1 := ⟨fuel - 1, by omega⟩
    have ran := @own.whole e fuel (depth + 4) 1 t rest ((three_le_level e).trans' (by decide)) (by omega)
      (by omega)
      (endsResults_stops ends)
    rw [run_result ran open_ ends, run_then (acceptSign_miss comma)]
    rfl
  | cons e' es ih =>
    obtain ⟨own, others⟩ := List.forall_mem_cons.mp parsed
    obtain ⟨open_, opens⟩ := List.forall_mem_cons.mp opens
    have split : Token.chain [sign ","] (tokensAll (e :: e' :: es)) =
        e.tokens ++ sign "," :: Token.chain [sign ","] (tokensAll (e' :: es)) := by
      simp [tokensAll, Token.chain]
    rw [reachAll] at deep
    rw [split, List.length_append, List.length_cons] at enough
    rw [split, List.append_assoc, List.cons_append]
    obtain ⟨fuel, rfl⟩ : ∃ n, fuel = n + 1 := ⟨fuel - 1, by omega⟩
    have more : endsResults (sign ",") = true := rfl
    have ran := @own.whole e fuel (depth + 4) 1 (sign ",")
      (Token.chain [sign ","] (tokensAll (e' :: es)) ++ t :: rest)
      ((three_le_level e).trans' (by decide)) (by omega) (by omega) (endsResults_stops more)
    rw [run_result ran open_ more, run_then (acceptSign_hit (by omega) ","), if_pos rfl,
      run_then (ih others opens (by omega) (by omega))]
    rfl

end Expr

end PeerExchange.Sql
