import PeerExchange.Proofs.ParsedExpressions

namespace PeerExchange.Sql

open Syntax.Parser hiding sign
open Token (word sign)

-- The tokens behind a source, behind all sources, behind a query, and behind one with all of its arms.
def Source.ends (t : Token) : Bool :=
  stops 3 t && !(["INDEXED", "NOT", "ON", "AND", "OR"].any t.isKeyword)

def Source.endsAll (t : Token) : Bool :=
  ends t && !t.isSign "," && !t.isKeyword "JOIN" && !t.upper?.any Token.joinWords.contains

def Select.ends (t : Token) : Bool :=
  Source.endsAll t && Expr.endsResults t &&
    !(["FROM", "WHERE", "GROUP", "ORDER", "HAVING", "LIMIT"].any t.isKeyword)

def Query.ends (t : Token) : Bool :=
  Select.ends t && !t.isKeyword "UNION" && !t.isKeyword "EXCEPT"

theorem ends_keywords : Source.ends (word "LEFT") = true ∧ Source.endsAll (word "WHERE") = true ∧
    Expr.endsResults (word "WHERE") = true ∧ Expr.endsResults (word "FROM") = true ∧
    Select.ends (word "UNION") = true ∧ Select.ends (word "EXCEPT") = true := by
  decide +kernel

namespace Source

variable {fuel depth : Nat} {t : Token} {rest : List Token}

theorem run_tableName {name : String} (free : isFreeName name = true) (shallow : depth < 99)
    (dot : t ≠ sign ".") :
    (tableName depth).run (word name :: t :: rest) = .ok (name, t :: rest) := by
  unfold tableName
  have miss : t.isSign "." = false := decide_eq_false_iff_not.mpr dot
  rw [run_then (run_name shallow (name_free free)), run_then (acceptSign_miss miss)]
  rfl

theorem run_label {name : String} (free : isFreeName name = true) (shallow : depth < 99) :
    (Syntax.Parser.label? depth).run (word name :: rest) = .ok (some name, rest) := by
  unfold Syntax.Parser.label?
  rw [run_then (acceptKeyword_miss (isKeyword_free free (by decide))), if_neg Bool.false_ne_true,
    run_then run_peek]
  simp only [label_free free]
  rw [run_then (run_discard shallow)]
  rfl

-- A source up to where its conditions would stand.
theorem run_source {table qualifier : String} {outer first : Bool} (named : isFreeName table = true)
    (called : isFreeName qualifier = true) (shallow : depth + 9 < 99)
    (indexed : t.isKeyword "INDEXED" = false)
    (not : t.isKeyword "NOT" = false) :
    (sources (fuel + 1) depth outer first).run (word table :: word qualifier :: t :: rest) =
      ((do
        let on ← if ← acceptKeyword "ON" (depth + 9) then
            let on ← conditions fuel (depth + 10)
            if first then throw .joinRequired
            pure on
          else pure []
        let rest ← joins fuel depth
        return .mk table false (some qualifier) outer on :: rest) : Syntax.Parser (List Syntax.Source)).run
        (t :: rest) := by
  have paren : (word qualifier).isSign "(" = false := by simp [Token.isSign]
  rw [sources, run_then (run_tableName named (by omega) (by simp)), run_then (acceptSign_miss paren),
    if_neg Bool.false_ne_true, run_then (run_label called (by omega)),
    run_then (acceptKeyword_miss indexed), if_neg Bool.false_ne_true, run_then (acceptKeyword_miss not)]
  rfl

-- A source that is joined to the ones before it, whether rows without a match are kept or not.
theorem run_plain {table qualifier : String} (named : isFreeName table = true)
    (called : isFreeName qualifier = true) (shallow : depth + 9 < 99) (more : ends t = true) :
    (joins (fuel + 2) depth).run (sign "," :: word table :: word qualifier :: t :: rest) =
      (joins fuel depth >>= fun others =>
        pure (Syntax.Source.mk table false (some qualifier) false [] :: others)).run (t :: rest) := by
  simp only [ends, Bool.and_eq_true, Bool.not_eq_true', List.any_cons, List.any_nil, Bool.or_eq_false_iff] at more
  obtain ⟨-, indexed, not, on, -⟩ := more
  rw [joins, run_then (acceptSign_hit (by omega) ","), if_pos rfl,
    run_source named called shallow indexed not, run_then (acceptKeyword_miss on)]
  rfl

theorem run_outer {table qualifier : String} {on : List Expr} (parsed : ∀ e ∈ on, e.IsParsed)
    (named : isFreeName table = true) (called : isFreeName qualifier = true)
    (deep : depth + Expr.reachAll on + 13 ≤ 99) (enough : 4 * (Expr.conditionTokens on).length + 1 < fuel)
    (more : ends t = true) :
    (joins (fuel + 2) depth).run
    (word "LEFT" :: word "OUTER" :: word "JOIN" :: word table :: word qualifier ::
        word "ON" :: (Expr.conditionTokens on ++ t :: rest)) =
      (joins fuel depth >>= fun others =>
        pure (Syntax.Source.mk table false (some qualifier) true (Expr.writtenAll (Expr.orOne on)) :: others)).run
        (t :: rest) := by
  simp only [ends, Bool.and_eq_true, Bool.not_eq_true', List.any_cons, List.any_nil, Bool.or_eq_false_iff] at more
  obtain ⟨stop, -, -, -, and, or, -⟩ := more
  have apart {w : String} (other : "ON" ≠ w) := keyword_miss (v := "ON") (by decide) other
  have side : (word "LEFT").upper?.any Token.joinWords.contains = true := by
    rw [Token.upper?, upper_keyword "LEFT" (by decide)]
    rfl
  have second : (word "OUTER").name? = some "OUTER" := by
    rw [Token.name?, upper_keyword "OUTER" (by decide)]
    rfl
  have kept : [(word "LEFT").text, "OUTER"].any (fun w => decide (w.toUpper = "LEFT")) = true := by
    rw [List.any_cons, Token.text, upper_keyword "LEFT" (by decide)]
    rfl
  rw [joins, run_then (acceptSign_miss rfl), if_neg Bool.false_ne_true,
    run_then (acceptKeyword_miss (keyword_miss (by decide) (by decide))), if_neg Bool.false_ne_true,
    run_then run_peek, if_pos side, run_then (run_next (by omega)), run_then run_peek,
    keyword_miss (by decide) (by decide), if_neg Bool.false_ne_true, run_then (run_name (by omega) second),
    run_then run_peek, keyword_hit (by decide), if_pos rfl]
  simp only [pure_bind, kept]
  rw [run_then (run_keyword (by omega) (by decide)), run_source named called (by omega) (apart (by decide))
    (apart (by decide)), run_then (acceptKeyword_hit (by omega) (by decide)), if_pos rfl,
    run_then (Expr.run_conditions parsed (by omega) enough stop and or)]
  rfl

theorem follows_source {P : Token → Prop} (comma : P (sign ",")) (left : P (word "LEFT")) (last : P t)
    (sources : List Source) (rest : List Token) :
    ∃ t' rest', tokensRest sources ++ t :: rest = t' :: rest' ∧ P t' := by
  cases sources with
  | nil => exact ⟨t, rest, rfl, last⟩
  | cons s sources =>
    obtain ⟨table, qualifier, outer, on⟩ := s
    cases outer with
    | false => exact ⟨sign ",", _, rfl, comma⟩
    | true => exact ⟨word "LEFT", _, rfl, left⟩

theorem run_joins {sources : List Source} (parsed : ∀ s ∈ sources, ∀ e ∈ s.on, e.IsParsed)
    (legible : allLegible sources = true) (shallow : depth + 9 < 99) (deep : depth + reachAll sources ≤ 99)
    (enough : 4 * (tokensRest sources).length < fuel) (more : endsAll t = true) :
    (joins fuel depth).run (tokensRest sources ++ t :: rest) = .ok (writtenAll sources, t :: rest) := by
  induction sources generalizing fuel with
  | nil =>
    obtain ⟨fuel, rfl⟩ : ∃ n, fuel = n + 1 := ⟨fuel - 1, by omega⟩
    simp only [endsAll, Bool.and_eq_true, Bool.not_eq_true'] at more
    obtain ⟨⟨⟨-, comma⟩, join⟩, words⟩ := more
    change (joins (fuel + 1) depth).run (t :: rest) = _
    rw [joins, run_then (acceptSign_miss comma), if_neg Bool.false_ne_true,
      run_then (acceptKeyword_miss join), if_neg Bool.false_ne_true,
      run_then run_peek]
    simp only [words, Bool.false_eq_true, if_false]
    rfl
  | cons s sources ih =>
    obtain ⟨own, others⟩ := List.forall_mem_cons.mp parsed
    obtain ⟨table, qualifier, outer, on⟩ := s
    simp only [allLegible, Bool.and_eq_true] at legible
    obtain ⟨⟨⟨named, called⟩, -⟩, later⟩ := legible
    simp only [endsAll, Bool.and_eq_true] at more
    obtain ⟨t', rest', shape, end_⟩ := follows_source (P := fun t => ends t = true) rfl ends_keywords.1
      more.1.1.1 sources rest
    simp only [reachAll] at deep
    obtain ⟨fuel, rfl⟩ : ∃ n, fuel = n + 2 :=
      ⟨fuel - 2, by cases outer <;> simp [tokensRest] at enough <;> omega⟩
    have next := @ih fuel others later (by omega)
    cases outer with
    | false =>
      simp only [tokensRest, Bool.false_eq_true, if_false, List.length_append, List.length_cons,
        List.length_nil] at enough
      have split : tokensRest (.mk table qualifier false on :: sources) ++ t :: rest =
          sign "," :: word table :: word qualifier :: t' :: rest' := by
        rw [← shape]
        rfl
      rw [split, run_plain named called shallow end_, ← shape, run_then (next (by omega))]
      rfl
    | true =>
      simp only [tokensRest, if_true, List.length_append, List.length_cons, List.length_nil] at enough
      have split : tokensRest (.mk table qualifier true on :: sources) ++ t :: rest =
          word "LEFT" :: word "OUTER" :: word "JOIN" :: word table :: word qualifier ::
            word "ON" :: (Expr.conditionTokens on ++ t' :: rest') := by
        rw [← shape]
        simp [tokensRest]
      have own : ∀ e ∈ on, e.IsParsed := own
      rw [split, run_outer own named called (by omega) (by omega) end_, ← shape, run_then (next (by omega)),
        writtenAll]
      simp only [Bool.not_true, Bool.false_eq_true, if_false, Expr.writtenAll_orOne]
      rfl

end Source

namespace Select

def IsParsed (s : Select) : Prop :=
  ∀ (fuel depth : Nat) (t : Token) (rest : List Token), depth + s.reach ≤ 99 →
    4 * s.tokens.length + 1 < fuel → ends t = true →
    (select fuel depth).run (s.tokens ++ t :: rest) = .ok (s.written, t :: rest)

variable {fuel depth : Nat} {t : Token} {rest : List Token}

theorem run_clauses (more : ends t = true) : (clauses (fuel + 1) depth).run (t :: rest) =
    .ok ((), t :: rest) := by
  simp only [ends, Bool.and_eq_true, Bool.not_eq_true', List.any_cons, Bool.or_eq_false_iff] at more
  obtain ⟨-, -, -, group, order, having_, limit, -⟩ := more
  rw [clauses, run_then (acceptKeyword_miss group), run_then (acceptKeyword_miss order)]
  simp only [Bool.or_self, Bool.false_eq_true, if_false]
  rw [run_then (acceptKeyword_miss having_), run_then (acceptKeyword_miss limit)]
  rfl

variable {α : Type} {conditions : List Expr} {sources : List Source}

theorem run_whether {k : List Syntax.Expr → Syntax.Parser α} (held : ∀ e ∈ conditions, e.IsParsed)
    (deep : depth + Expr.reachAll conditions + 8 ≤ 99)
    (enough : 4 * (Expr.conditionTokens conditions).length + 1 < fuel)
    (more : ends t = true) :
    (acceptKeyword "WHERE" (depth + 4) >>= fun given =>
      if given = true then Syntax.Parser.conditions fuel (depth + 5) >>= k else pure [] >>= k).run
        ((if conditions.isEmpty then [] else word "WHERE" :: Expr.conditionTokens conditions) ++
        t :: rest) =
      (k (Expr.writtenAll conditions)).run (t :: rest) := by
  simp only [ends, Source.endsAll, Source.ends, Bool.and_eq_true, Bool.not_eq_true', List.any_cons,
    Bool.or_eq_false_iff] at more
  obtain ⟨⟨⟨⟨⟨⟨stop, -, -, -, and, or, -⟩, -⟩, -⟩, -⟩, -⟩, -, whether, -⟩ := more
  cases conditions with
  | nil =>
    change (_ : Syntax.Parser α).run (t :: rest) = _
    rw [run_then (acceptKeyword_miss whether)]
    rfl
  | cons e es =>
    change (_ : Syntax.Parser α).run (word "WHERE" :: (Expr.conditionTokens (e :: es) ++ t :: rest)) = _
    rw [run_then (acceptKeyword_hit (by omega) (by decide)), if_pos rfl,
      run_then (Expr.run_conditions held (by omega) enough stop and or)]
    rfl

theorem run_from {k : List Syntax.Source → Syntax.Parser α} (tested : ∀ s ∈ sources, ∀ e ∈ s.on, e.IsParsed)
    (legible : Source.allLegible sources = true) (joined : sources.head?.all (!·.outer) = true)
    (shallow : depth + 9 < 99) (deep : depth + Source.reachAll sources ≤ 99)
    (enough : 4 * (Source.tokensAll sources).length < fuel) (more : Source.endsAll t = true)
    (apart : t.isKeyword "FROM" = false) :
    (acceptKeyword "FROM" (depth + 3) >>= fun given =>
      if given = true then Syntax.Parser.sources fuel depth false true >>= k else pure [] >>= k).run
        (Source.tokensAll sources ++ t :: rest) = (k (Source.writtenAll sources)).run (t :: rest) := by
  cases sources with
  | nil =>
    change (_ : Syntax.Parser α).run (t :: rest) = _
    rw [run_then (acceptKeyword_miss apart)]
    rfl
  | cons s sources =>
    obtain ⟨table, qualifier, outer, on⟩ := s
    obtain rfl : outer = false := by simpa [Source.outer] using joined
    simp only [Source.allLegible, Bool.and_eq_true] at legible
    obtain ⟨⟨⟨named, called⟩, -⟩, later⟩ := legible
    have end_ := more
    simp only [Source.endsAll, Bool.and_eq_true] at end_
    obtain ⟨t', rest', shape, next⟩ := Source.follows_source (P := fun t => Source.ends t = true)
      rfl ends_keywords.1 end_.1.1.1 sources rest
    simp only [Source.ends, Bool.and_eq_true, Bool.not_eq_true', List.any_cons, Bool.or_eq_false_iff] at next
    obtain ⟨-, indexed, not, on_, -⟩ := next
    simp only [Source.tokensAll, List.length_cons] at enough
    simp only [Source.reachAll] at deep
    obtain ⟨fuel, rfl⟩ : ∃ n, fuel = n + 1 := ⟨fuel - 1, by omega⟩
    have rests := @Source.run_joins fuel depth t rest sources
      (List.forall_mem_cons.mp tested).2 later shallow (by omega)
      (by omega) more
    change (_ : Syntax.Parser α).run
      (word "FROM" :: word table :: word qualifier :: (Source.tokensRest sources ++ t :: rest)) = _
    have ran : (Syntax.Parser.sources (fuel + 1) depth false true).run
        (word table :: word qualifier :: (Source.tokensRest sources ++ t :: rest)) =
        .ok (Source.writtenAll (.mk table qualifier false on :: sources), t :: rest) := by
      rw [shape, Source.run_source named called (by omega) indexed not, run_then (acceptKeyword_miss on_)]
      simp only [Bool.false_eq_true, if_false, pure_bind]
      rw [← shape, run_then rests]
      rfl
    rw [run_then (acceptKeyword_hit (by omega) (by decide)), if_pos rfl, run_then ran]

theorem run_distinct {k : Bool → Syntax.Parser α} {a : Token} (distinct : Bool) (shallow : depth + 1 < 99)
    (one : a.isKeyword "DISTINCT" = false) (all : a.isKeyword "ALL" = false) :
    (acceptKeyword "DISTINCT" (depth + 1) >>= fun distinct =>
      if distinct = true then k distinct
      else discard (acceptKeyword "ALL" (depth + 1)) >>= fun _ => k distinct).run
        ((if distinct then [word "DISTINCT"] else []) ++ a :: rest) = (k distinct).run (a :: rest) := by
  cases distinct with
  | false =>
    change (_ : Syntax.Parser α).run (a :: rest) = _
    rw [run_then (acceptKeyword_miss one), if_neg Bool.false_ne_true,
      run_then (discard_acceptKeyword shallow "ALL"), all]
    rfl
  | true =>
    change (_ : Syntax.Parser α).run (word "DISTINCT" :: a :: rest) = _
    rw [run_then (acceptKeyword_hit shallow (by decide)), if_pos rfl]

theorem isParsed_mk {distinct : Bool} {projection : List Expr}
    (shown : ∀ e ∈ projection, e.IsParsed) (opens : ∀ e ∈ projection, Opens e.level e.tokens)
    (held : ∀ e ∈ conditions, e.IsParsed) (tested : ∀ s ∈ sources, ∀ e ∈ s.on, e.IsParsed)
    (legible : Source.allLegible sources = true) (joined : sources.head?.all (!·.outer) = true) :
    (Select.mk distinct projection sources conditions).IsParsed := by
  intro fuel depth t rest deep enough more
  simp only [reach] at deep
  rw [tokens] at enough ⊢
  rw [written]
  obtain ⟨fuel, rfl⟩ : ∃ n, fuel = n + 1 := ⟨fuel - 1, by omega⟩
  have behind : ∃ w others,
      (if conditions.isEmpty then [] else word "WHERE" :: Expr.conditionTokens conditions) ++
        t :: rest = w :: others ∧ Source.endsAll w = true ∧ Expr.endsResults w = true ∧
        w.isKeyword "FROM" = false := by
    simp only [ends, Bool.and_eq_true, Bool.not_eq_true', List.any_cons, Bool.or_eq_false_iff] at more
    cases conditions with
    | nil => exact ⟨t, rest, rfl, more.1.1, more.1.2, more.2.1⟩
    | cons e es => exact ⟨word "WHERE", _, rfl, ends_keywords.2.1, ends_keywords.2.2.1,
      keyword_miss (by decide) (by decide)⟩
  obtain ⟨w, others, shape, all, results_, apart⟩ := behind
  have front : ∃ f others', Source.tokensAll sources ++ w :: others = f :: others' ∧ Expr.endsResults f = true ∧
      f.isSign "," = false := by
    simp only [Source.endsAll, Bool.and_eq_true, Bool.not_eq_true'] at all
    cases sources with
    | nil => exact ⟨w, others, rfl, results_, all.1.1.2⟩
    | cons s sources =>
      obtain ⟨table, qualifier, outer, on⟩ := s
      exact ⟨word "FROM", _, rfl, ends_keywords.2.2.2.1, isSign_word "FROM" ","⟩
  obtain ⟨f, others', shape', first, comma⟩ := front
  rw [Expr.chain_orOne] at enough ⊢
  rw [Expr.writtenAll_orOne]
  have parsed := Expr.forall_orOne Expr.isParsed_integer shown
  have opening := Expr.forall_orOne (P := fun e => Opens e.level e.tokens) (Expr.opens_tokens _ rfl) opens
  have reached := Expr.reachAll_orOne projection
  obtain ⟨e, es, one⟩ := Expr.orOne_cons projection
  rw [one] at enough parsed opening reached ⊢
  have start : Opens e.level (Token.chain [sign ","] (Expr.tokensAll (e :: es))) :=
    Expr.opens_chain (opening e List.mem_cons_self) (by decide)
  obtain ⟨a, ts, opened, plain, -⟩ := start
  simp only [Token.opens, Bool.not_eq_true', Bool.or_eq_false_iff] at plain
  simp only [List.length_cons, List.length_append] at enough
  have listed := @Expr.run_results fuel depth f others' e es parsed opening (by omega)
    (by omega) first comma
  change Token.chain [sign ","] (Expr.tokensAll (e :: es)) = a :: ts at opened
  have filtered : 4 * (Expr.conditionTokens conditions).length + 1 < fuel := by
    rw [opened, List.length_cons] at enough
    cases conditions with
    | nil => exact (show 4 * 1 + 1 < fuel by omega)
    | cons c cs =>
      simp only [List.isEmpty_cons, Bool.false_eq_true, if_false, List.length_cons] at enough
      omega
  rw [List.cons_append, select, run_then (run_keyword (by omega) (by decide))]
  simp only [List.append_assoc, shape, shape']
  rw [opened] at listed ⊢
  rw [List.cons_append, run_distinct distinct (by omega) plain.1.1.2 plain.1.2]
  rw [← List.cons_append, run_then listed, ← shape',
    run_from tested legible joined (by omega) (by omega) (by omega) all apart, ← shape,
    run_whether held (by omega) filtered more]
  obtain ⟨fuel, rfl⟩ : ∃ n, fuel = n + 1 := ⟨fuel - 1, by omega⟩
  rw [run_then (run_clauses more)]
  rfl

end Select

namespace Query

variable {fuel depth : Nat} {t : Token} {rest : List Token}

theorem follows_arm {P : Token → Prop} (union : P (word "UNION")) (except : P (word "EXCEPT")) (last : P t)
    (parts : List (Syntax.Combination × Select)) (rest : List Token) :
    ∃ t' rest', (parts.flatMap fun part => part.1.tokens ++ part.2.tokens) ++ t :: rest = t' :: rest' ∧
    P t' := by
  cases parts with
  | nil => exact ⟨t, rest, rfl, last⟩
  | cons part parts =>
    obtain ⟨how, s⟩ := part
    cases how with
    | union => exact ⟨word "UNION", _, rfl, union⟩
    | unionAll => exact ⟨word "UNION", _, rfl, union⟩
    | except => exact ⟨word "EXCEPT", _, rfl, except⟩

theorem run_arm {how : Syntax.Combination} {s : Select} (read : s.IsParsed)
    (deep : depth + s.reach + 2 ≤ 99)
    (shallow : depth + 2 < 99) (enough : 4 * s.tokens.length + 1 < fuel) (end_ : Select.ends t = true) :
    (moreSelects (fuel + 1) depth).run (how.tokens ++ (s.tokens ++ t :: rest)) =
      (moreSelects fuel depth >>= fun others => pure ((how, s.written) :: others)).run (t :: rest) := by
  have ran := read fuel (depth + 2) t rest (by omega) enough end_
  rw [moreSelects]
  cases how with
  | union =>
    obtain ⟨distinct, projection, sources, conditions⟩ := s
    change (_ : Syntax.Parser (List (Syntax.Combination × Syntax.Select))).run
      (word "UNION" :: ((Select.mk distinct projection sources conditions).tokens ++ t :: rest)) = _
    rw [run_then (acceptKeyword_hit (by omega) (by decide)), if_pos rfl]
    rw [Select.tokens, List.cons_append] at ran ⊢
    rw [run_then (acceptKeyword_miss (keyword_miss (by decide) (by decide))), run_then ran]
    rfl
  | unionAll =>
    change (_ : Syntax.Parser (List (Syntax.Combination × Syntax.Select))).run
      (word "UNION" :: word "ALL" :: (s.tokens ++ t :: rest)) = _
    rw [run_then (acceptKeyword_hit (by omega) (by decide)), if_pos rfl,
      run_then (acceptKeyword_hit (by omega) (by decide)), run_then ran, if_pos rfl]
  | except =>
    change (_ : Syntax.Parser (List (Syntax.Combination × Syntax.Select))).run
      (word "EXCEPT" :: (s.tokens ++ t :: rest)) = _
    rw [run_then (acceptKeyword_miss (keyword_miss (by decide) (by decide))), if_neg Bool.false_ne_true,
      run_then (acceptKeyword_hit (by omega) (by decide)), if_pos rfl, run_then ran]

theorem run_moreSelects {parts : List (Syntax.Combination × Select)}
    (parsed : ∀ part ∈ parts, part.2.IsParsed)
    (shallow : depth + 2 < 99) (deep : ∀ part ∈ parts, depth + part.2.reach + 2 ≤ 99)
    (enough : 4 * (parts.flatMap fun part => part.1.tokens ++ part.2.tokens).length < fuel)
    (more : ends t = true) :
    (moreSelects fuel depth).run ((parts.flatMap fun part => part.1.tokens ++ part.2.tokens) ++ t :: rest) =
      .ok (parts.map fun part => (part.1, part.2.written), t :: rest) := by
  induction parts generalizing fuel with
  | nil =>
    obtain ⟨fuel, rfl⟩ : ∃ n, fuel = n + 1 := ⟨fuel - 1, by omega⟩
    simp only [ends, Bool.and_eq_true, Bool.not_eq_true'] at more
    change (moreSelects (fuel + 1) depth).run (t :: rest) = _
    rw [moreSelects, run_then (acceptKeyword_miss more.1.2), if_neg Bool.false_ne_true,
      run_then (acceptKeyword_miss more.2)]
    rfl
  | cons part parts ih =>
    obtain ⟨how, s⟩ := part
    obtain ⟨own, others⟩ := List.forall_mem_cons.mp parsed
    obtain ⟨low, lower⟩ := List.forall_mem_cons.mp deep
    have end_ := more
    simp only [ends, Bool.and_eq_true] at end_
    obtain ⟨t', rest', shape, next⟩ := follows_arm (P := fun t => Select.ends t = true)
      ends_keywords.2.2.2.2.1 ends_keywords.2.2.2.2.2
      end_.1.1 parts rest
    have some : 0 < how.tokens.length := by cases how <;> decide
    simp only [List.flatMap_cons, List.length_append] at enough
    obtain ⟨fuel, rfl⟩ : ∃ n, fuel = n + 1 := ⟨fuel - 1, by omega⟩
    rw [List.flatMap_cons, List.append_assoc, List.append_assoc, shape,
      @run_arm fuel depth t' rest' how s own low shallow (by omega) next, ← shape,
      run_then (ih others lower (by omega))]
    rfl

end Query

theorem Expr.isParsed_exists {query : Select} (inner : query.IsParsed) :
    (Expr.exists false query).IsParsed := by
  intro fuel depth level t rest _ deep enough stop
  have deep : depth + (query.reach + 2) ≤ 99 := deep
  have least : 10 ≤ query.reach := by
    obtain ⟨distinct, projection, sources, conditions⟩ := query
    exact Nat.le_max_left _ _
  have length : (Expr.exists false query).tokens.length = query.tokens.length + 3 := by
    simp [Expr.tokens]
  rw [length] at enough ⊢
  obtain ⟨fuel, rfl⟩ : ∃ n, fuel = n + 4 := ⟨fuel - 4, by omega⟩
  have alone : (moreSelects (fuel + 1) (depth + 2)).run (sign ")" :: t :: rest) =
      .ok ([], sign ")" :: t :: rest) :=
    @Query.run_moreSelects (fuel + 1) (depth + 2) (sign ")") (t :: rest) [] (List.forall_mem_nil _) (by omega)
      (List.forall_mem_nil _) (Nat.succ_pos _) rfl
  have whole : (Syntax.Parser.query (fuel + 2) (depth + 2)).run (query.tokens ++ sign ")" :: t :: rest) =
      .ok (⟨query.written, []⟩, sign ")" :: t :: rest) := by
    rw [Syntax.Parser.query, run_then (inner (fuel + 1) (depth + 2) _ _ (by omega) (by omega) rfl),
      run_then alone]
    rfl
  refine ⟨fuel + 3, by omega, run_expression ?_⟩
  have shape : (Expr.exists false query).tokens ++ t :: rest =
      word "EXISTS" :: sign "(" :: (query.tokens ++ sign ")" :: t :: rest) := by
    simp [Expr.tokens]
  rw [shape]
  exact operand_exists (by omega) whole

theorem Expr.isParsed_not {query : Select} (inner : (Expr.exists false query).IsParsed) :
    (Expr.exists true query).IsParsed := by
  intro fuel depth level t rest _ deep enough stop
  have stop : stops 3 t = true := stop
  have deep : depth + ((Expr.exists false query).reach + 1) ≤ 99 := deep
  have length : (Expr.exists true query).tokens.length = (Expr.exists false query).tokens.length + 1 := by
    simp [Expr.tokens]
  rw [length] at enough ⊢
  obtain ⟨fuel, rfl⟩ : ∃ n, fuel = n + 4 := ⟨fuel - 4, by omega⟩
  have ran := @inner.whole _ (fuel + 2) (depth + 1) 3 t rest (Expr.three_le_level _) (by omega)
    (by omega) stop
  exact ⟨fuel + 3, by omega, run_expression (operand_not (by omega) ran)⟩

theorem Expr.allLegible_iff {least : Nat} {es : List Expr} :
    Expr.allLegible least es = true ↔ ∀ e ∈ es, least ≤ e.level ∧ e.isLegible = true := by
  induction es with
  | nil => simp [Expr.allLegible]
  | cons e es ih => simp [Expr.allLegible, ih, and_assoc]

theorem Expr.opens_all {least : Nat} {es : List Expr} (legible : Expr.allLegible least es = true) :
    ∀ e ∈ es, Opens e.level e.tokens :=
  fun e inside => Expr.opens_tokens e (Expr.allLegible_iff.mp legible e inside).2

mutual

theorem Expr.isParsed : (e : Expr) → e.isLegible = true → e.IsParsed
  | .column _ _, legible => by
    obtain ⟨first, second⟩ := Bool.and_eq_true_iff.mp legible
    exact Expr.isParsed_column first second
  | .integer _, _ => Expr.isParsed_integer
  | .text _, _ => Expr.isParsed_text
  | .null, _ => Expr.isParsed_null
  | .typedNull type, _ => Expr.isParsed_cast Expr.isParsed_null (by decide)
  | .param _, _ => Expr.isParsed_param
  | .binary op left right, legible => by
    simp only [Expr.isLegible, Bool.and_eq_true, decide_eq_true_eq] at legible
    obtain ⟨⟨⟨before, behind⟩, first⟩, second⟩ := legible
    refine Expr.isParsed_binary (Expr.isParsed left first) (Expr.isParsed right second)
      (fun _ => ?_) before behind
    obtain ⟨a, more, shape, opens, -⟩ := Expr.opens_tokens right second
    simp only [Token.opens, Bool.not_eq_true', Bool.or_eq_false_iff, Bool.and_eq_false_iff,
      decide_eq_false_iff_not] at opens
    exact ⟨a, more, shape, opens.2.resolve_left fun low => low ((Expr.four_le_level op).trans behind.le)⟩
  | .call f [], legible => by simp [Expr.isLegible] at legible
  | .call f (e :: es), legible => by
    simp only [Expr.isLegible, Bool.and_eq_true] at legible
    exact Expr.isParsed_call (Expr.allParsed _ legible.2) (Expr.opens_all legible.2 e List.mem_cons_self)
  | .cast e _, legible => by
    simp only [Expr.isLegible, Bool.and_eq_true, decide_eq_true_eq] at legible
    exact Expr.isParsed_cast (Expr.isParsed e legible.2) legible.1
  | .concat [], legible => by simp [Expr.isLegible] at legible
  | .concat (e :: es), legible => by
    simp only [Expr.isLegible, Bool.and_eq_true] at legible
    exact Expr.isParsed_concat (Expr.allParsed _ legible.2) fun x inside =>
      (Expr.allLegible_iff.mp legible.2 x inside).1
  | .nullCase e onNull otherwise, legible => by
    simp only [Expr.isLegible, Bool.and_eq_true, decide_eq_true_eq] at legible
    obtain ⟨⟨⟨tied, condition⟩, first⟩, second⟩ := legible
    exact Expr.isParsed_nullCase (Expr.isParsed e condition) (Expr.isParsed onNull first)
      (Expr.isParsed otherwise second) tied
  | .exists false query, legible => Expr.isParsed_exists (Select.isParsed query legible)
  | .exists true query, legible => Expr.isParsed_not (Expr.isParsed_exists (Select.isParsed query legible))

theorem Expr.allParsed {least : Nat} : (es : List Expr) → Expr.allLegible least es = true →
    ∀ e ∈ es, e.IsParsed
  | [], _ => List.forall_mem_nil _
  | e :: rest, legible => by
    simp only [Expr.allLegible, Bool.and_eq_true] at legible
    exact List.forall_mem_cons.mpr ⟨Expr.isParsed e legible.1.2, Expr.allParsed rest legible.2⟩

theorem Source.allParsed : (sources : List Source) → Source.allLegible sources = true →
    ∀ s ∈ sources, ∀ e ∈ s.on, e.IsParsed
  | [], _ => List.forall_mem_nil _
  | .mk table qualifier outer on :: rest, legible => by
    simp only [Source.allLegible, Bool.and_eq_true] at legible
    exact List.forall_mem_cons.mpr ⟨Expr.allParsed on legible.1.2, Source.allParsed rest legible.2⟩

theorem Select.isParsed : (s : Select) → s.isLegible = true → s.IsParsed
  | .mk distinct projection sources conditions, legible => by
    simp only [Select.isLegible, Bool.and_eq_true] at legible
    obtain ⟨⟨⟨shown, held⟩, read⟩, joined⟩ := legible
    exact Select.isParsed_mk (Expr.allParsed projection shown) (Expr.opens_all shown)
      (Expr.allParsed conditions held)
      (Source.allParsed sources read) read joined

end

namespace Query

variable {q : Query} {fuel depth : Nat} {t : Token} {rest : List Token}

theorem opens_tokens (legible : q.isLegible = true) : ∃ more, q.tokens = word "SELECT" :: more := by
  rw [isLegible, Bool.and_eq_true, Bool.not_eq_true'] at legible
  cases shape : q.selects with
  | nil =>
    rw [shape] at legible
    cases legible.1
  | cons first others =>
    obtain ⟨distinct, projection, sources, conditions⟩ := first
    rw [tokens, shape]
    exact ⟨_, rfl⟩

theorem run_query (legible : q.isLegible = true) (shallow : depth ≤ 8)
    (enough : 4 * q.tokens.length + 2 < fuel)
    (more : ends t = true) : (query fuel depth).run (q.tokens ++ t :: rest) = .ok (q.written, t :: rest) := by
  rw [isLegible, Bool.and_eq_true, Bool.not_eq_true', List.all_eq_true] at legible
  obtain ⟨some, each⟩ := legible
  have parsed (s : Select) (inside : s ∈ q.checked) : s.IsParsed ∧ depth + s.reach + 2 ≤ 99 := by
    have own := each s inside
    rw [Bool.and_eq_true, decide_eq_true_eq] at own
    exact ⟨s.isParsed own.1, by omega⟩
  have arms (part : Syntax.Combination × Select) (inside : part ∈ q.parts) :=
    parsed part.2 (mem_checked inside)
  cases shape : q.selects with
  | nil => rw [shape] at some; cases some
  | cons first others =>
    obtain ⟨own, low⟩ := parsed first (by simp [checked, shape])
    have front : q.tokens = first.tokens ++ q.parts.flatMap fun part => part.1.tokens ++ part.2.tokens := by
      simp [tokens, shape]
    rw [front, List.length_append] at enough
    obtain ⟨fuel, rfl⟩ : ∃ n, fuel = n + 1 := ⟨fuel - 1, by omega⟩
    have end_ := more
    simp only [ends, Bool.and_eq_true] at end_
    obtain ⟨t', rest', behind, next⟩ := follows_arm (P := fun t => Select.ends t = true)
      ends_keywords.2.2.2.2.1 ends_keywords.2.2.2.2.2
      end_.1.1 q.parts rest
    rw [front, List.append_assoc, behind, query,
      run_then (own fuel depth t' rest' (by omega) (by omega) next), ← behind,
      run_then (run_moreSelects (fun part inside => (arms part inside).1) (by omega)
        (fun part inside => (arms part inside).2) (by omega) more)]
    simp only [written, shape]
    rfl

end Query

end PeerExchange.Sql
