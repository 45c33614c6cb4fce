import PeerExchange.Proofs.ArchivedDatabases
import PeerExchange.Proofs.ParsedQueries
import PeerExchange.Session.Textual

namespace PeerExchange.Sql

open Syntax.Parser hiding sign
open Token (Written sign word)

namespace Statement

variable {fuel depth : Nat} {t : Token} {rest : List Token}

theorem run_separated {item : Syntax.Parser String} {first : String} {names : List String}
    (reads : ∀ name ∈ first :: names, ∀ t rest, t ∈ [sign ",", sign ")"] →
      item.run (word name :: t :: rest) = .ok (name, t :: rest))
    (shallow : depth < 99) (enough : names.length < fuel) :
    (separated item depth fuel).run (nameTokens (first :: names) ++ sign ")" :: rest) =
      .ok (first :: names, sign ")" :: rest) := by
  induction names generalizing fuel first with
  | nil =>
    obtain ⟨fuel, rfl⟩ : ∃ n, fuel = n + 1 := ⟨fuel - 1, by omega⟩
    have own := reads first List.mem_cons_self (sign ")") rest (by decide)
    change (separated item depth (fuel + 1)).run (word first :: sign ")" :: rest) = _
    rw [separated, run_then own, run_then (acceptSign_miss rfl)]
    rfl
  | cons name names ih =>
    obtain ⟨own, others⟩ := List.forall_mem_cons.mp reads
    obtain ⟨fuel, rfl⟩ : ∃ n, fuel = n + 1 := ⟨fuel - 1, by omega⟩
    have later := ih others (Nat.lt_of_succ_lt_succ enough)
    have split : nameTokens (first :: name :: names) ++ sign ")" :: rest =
        word first :: sign "," :: (nameTokens (name :: names) ++ sign ")" :: rest) := by
      simp [nameTokens, Token.chain]
    rw [split, separated, run_then (own _ _ (by decide)), run_then (acceptSign_hit shallow ","), if_pos rfl,
      run_then later]
    rfl

theorem run_checkNew {name : String} (free : isFreeName name = true) (new : isReserved name = false) :
    (checkNew name).run rest = .ok (name, rest) := by
  obtain ⟨c, more, shape, -, bare⟩ := Token.isBare_cases (isFreeName_bare free)
  have whole : schemaAndName? name = none := by
    have none : name.toList.dropWhile (· ≠ '.') = [] := by
      rw [List.dropWhile_eq_nil_iff, shape]
      exact fun d inside => decide_eq_true (Token.ne_of_bare (bare d inside) (by decide))
    rw [schemaAndName?, none]
  rw [checkNew, whole, new]
  rfl

theorem run_viewColumn {name : String} (free : isFreeName name = true) (shallow : depth < 99)
    (last : t ∈ [sign ",", sign ")"]) : (viewColumn depth).run (word name :: t :: rest) =
    .ok (name, t :: rest) := by
  have plain : ∀ t ∈ [sign ",", sign ")"], t.isKeyword "ASC" = false ∧ t.isKeyword "DESC" = false := by
    decide
  obtain ⟨asc, desc⟩ := plain t last
  rw [viewColumn, run_then run_peek, run_then (run_name shallow (name_free free)),
    run_then (acceptKeyword_miss asc), run_then (acceptKeyword_miss desc)]
  rfl

theorem run_column {name : String} {type : ColumnType} {before : List String}
    (free : isFreeName name = true)
    (fresh : before.contains name.toLower = false) (shallow : depth + 1 < 99)
    (last : t ∈ [sign ",", sign ")"]) :
    (column before (fuel + 2) depth).run (word name :: word type.sqlName :: t :: rest) =
      .ok ((name, some type), t :: rest) := by
  have plain : ∀ t ∈ [sign ",", sign ")"], t.isSign "(" = false ∧ t.label? = none ∧
      (["DEFAULT", "NULL", "UNIQUE", "NOT", "PRIMARY", "REFERENCES", "COLLATE", "GENERATED", "AS",
        "CONSTRAINT", "CHECK"].any t.isKeyword) = false := by
    decide
  obtain ⟨paren, label, words⟩ := plain t last
  simp only [List.any_cons, List.any_nil, Bool.or_eq_false_iff] at words
  obtain ⟨default, null, unique, not, primary, references, collate, generated, as, constraint_, check,
    -⟩ := words
  obtain ⟨known, fixed, typeOf_⟩ := type_known type
  have typed : (typeWords (depth + 1) (fuel + 2)).run (word type.sqlName :: t :: rest) =
      .ok ([type.sqlName], t :: rest) := by
    simp (disch := omega) [typeWords, label_free known, fixed, run_discard, label, Token.text]
  have ended : (columnConstraints (depth + 2) (fuel + 2)).run (t :: rest) = .ok ((), t :: rest) := by
    rw [columnConstraints, run_then run_peek]
    simp only [default, null, unique, not, primary, references, collate, generated, as, Bool.or_self,
      Bool.false_eq_true, if_false]
    have none : (constraint (fuel + 1) (depth + 2)).run (t :: rest) = .ok (false, t :: rest) := by
      unfold constraint
      rw [run_then run_peek]
      simp only [constraint_, check, Bool.false_eq_true, if_false]
      rfl
    rw [run_then none]
    rfl
  rw [column, run_then (run_name (by omega) (name_free free)), run_then typed]
  simp only [List.isEmpty_cons, Bool.false_eq_true, if_false]
  unfold typeSize
  rw [run_then (run_then (acceptSign_miss paren)), run_then run_peek]
  simp only [fresh, Bool.false_and, Bool.false_eq_true, if_false]
  rw [run_then ended, typeOf_]
  rfl

theorem run_columns {fresh : Bool} {before : List String} {first : String × ColumnType}
    {columns : List (String × ColumnType)} (free : ∀ column ∈ first :: columns, isFreeName column.1 = true)
    (apart : ((first :: columns).map fun column => column.1.toLower).Nodup)
    (new : ∀ column ∈ first :: columns, before.contains column.1.toLower = false) (shallow : depth + 1 < 99)
    (enough : columns.length + 2 < fuel) :
    (Syntax.Parser.columns fresh before depth fuel).run
        (Token.chain [sign ","] ((first :: columns).map fun column =>
        [word column.1, word column.2.sqlName]) ++
          sign ")" :: rest) =
      .ok ((first :: columns).map fun (c, type) => (c, some type), rest) := by
  induction columns generalizing fuel before first with
  | nil =>
    obtain ⟨fuel, rfl⟩ : ∃ n, fuel = n + 3 := ⟨fuel - 3, by omega⟩
    obtain ⟨name, type⟩ := first
    have own := @run_column fuel depth (sign ")") rest name type before (free _ List.mem_cons_self)
      (new _ List.mem_cons_self) shallow (by decide)
    change (Syntax.Parser.columns fresh before depth (fuel + 3)).run
      (word name :: word type.sqlName :: sign ")" :: rest) = _
    rw [Syntax.Parser.columns, run_then own, run_then (acceptSign_miss rfl), if_neg Bool.false_ne_true,
      run_then (run_sign (by omega) ")")]
    rfl
  | cons second columns ih =>
    obtain ⟨fuel, rfl⟩ : ∃ n, fuel = n + 3 := ⟨fuel - 3, by omega⟩
    obtain ⟨name, type⟩ := first
    obtain ⟨own, others⟩ := List.forall_mem_cons.mp free
    obtain ⟨here, later⟩ := List.forall_mem_cons.mp new
    rw [List.map_cons, List.nodup_cons] at apart
    have next := @ih (fuel + 2) (if fresh then name.toLower :: before else before) second others apart.2
      (fun column inside => ?_) (by rw [List.length_cons] at enough; omega)
    · have split : Token.chain [sign ","] (((name, type) :: second :: columns).map fun column =>
          [word column.1, word column.2.sqlName]) ++ sign ")" :: rest = word name :: word type.sqlName ::
          sign "," ::
            (Token.chain [sign ","] ((second :: columns).map fun column =>
            [word column.1, word column.2.sqlName]) ++
              sign ")" :: rest) := by
        simp [Token.chain]
      rw [split, Syntax.Parser.columns,
        run_then (@run_column fuel depth (sign ",") _ name type before own here shallow
        (by decide)), run_then (acceptSign_hit (by omega) ","), if_pos rfl]
      obtain ⟨second, type'⟩ := second
      have plain (w : String) (known : w ∈ ["CONSTRAINT", "PRIMARY", "UNIQUE", "CHECK", "FOREIGN"]) :
          (word second).isKeyword w = false :=
        isKeyword_free (free _ (List.mem_cons_of_mem _ List.mem_cons_self))
          ((by decide : ∀ w ∈ ["CONSTRAINT", "PRIMARY", "UNIQUE", "CHECK", "FOREIGN"],
            Token.special.contains w = true) w known)
      have none : (["CONSTRAINT", "PRIMARY", "UNIQUE", "CHECK", "FOREIGN"].any (word second).isKeyword) =
        false := by
        rw [List.any_eq_false]
        exact fun w known => by rw [plain w known]; exact Bool.false_ne_true
      generalize behind : Token.chain [sign ","] (((second, type') :: columns).map fun column =>
        [word column.1, word column.2.sqlName]) ++ sign ")" :: rest = tokens at next ⊢
      have seen : peek.run tokens = .ok (word second, tokens) := by
        rw [← behind]
        rfl
      rw [run_then seen]
      simp only [none, Bool.false_eq_true, if_false]
      rw [run_then next]
      rfl
    · have other : name.toLower ≠ column.1.toLower := fun same =>
        apart.1 (same ▸ List.mem_map_of_mem (f := fun column => column.1.toLower) inside)
      have old := later column inside
      cases fresh with
      | false => exact old
      | true =>
        rw [if_pos rfl, List.contains_cons, old, Bool.or_false]
        exact beq_false_of_ne other.symm

theorem freeNames_cases {names : List String} (free : freeNames names = true) :
    ∃ first others, names = first :: others ∧ ∀ name ∈ first :: others, isFreeName name = true := by
  rw [freeNames, Bool.and_eq_true, Bool.not_eq_true', List.all_eq_true] at free
  cases names with
  | nil => cases free.1
  | cons first others => exact ⟨first, others, rfl, free.2⟩

theorem run_names {item : Syntax.Parser String} {names : List String} (free : freeNames names = true)
    (reads : ∀ name, isFreeName name = true → ∀ t rest, t ∈ [sign ",", sign ")"] →
      item.run (word name :: t :: rest) = .ok (name, t :: rest))
    (shallow : depth < 99) (enough : (nameTokens names).length < fuel) :
    (separated item depth fuel).run (nameTokens names ++ sign ")" :: rest) =
    .ok (names, sign ")" :: rest) := by
  obtain ⟨first, others, rfl, each⟩ := freeNames_cases free
  refine run_separated (fun name inside => reads name (each name inside)) shallow
    (Nat.lt_of_le_of_lt ?_ enough)
  simp only [nameTokens, Token.chain, List.map_cons, List.length_append, List.length_flatMap, List.map_map]
  simp [Function.comp_def]
  omega

theorem run_not_exists : (keywords ["NOT", "EXISTS"] 4).run (word "NOT" :: word "EXISTS" :: rest) =
    .ok ((), rest) := by
  change ((keyword "NOT" 4 >>= fun _ => keyword "EXISTS" 4 >>= fun _ =>
    pure ()) : Syntax.Parser Unit).run _ = _
  rw [run_then (run_keyword (by omega) (by decide)), run_then (run_keyword (by omega) (by decide))]
  rfl

theorem run_createTable {name : String} {columns : List (String × ColumnType)} (taken : String → Bool)
    (legible : (createTable name columns).isLegible = true)
    (enough : (createTable name columns).tokens.length < fuel) (ended : t ∈ [Token.finish, sign ";"]) :
    (statement taken fuel).run ((createTable name columns).tokens ++ t :: rest) =
      .ok ((createTable name columns).written, t :: rest) := by
  simp only [isLegible, Bool.and_eq_true, Bool.not_eq_true', decide_eq_true_eq] at legible
  obtain ⟨⟨⟨free, new⟩, named⟩, apart⟩ := legible
  have last : ∀ t ∈ [Token.finish, sign ";"], t.isKeyword "WITHOUT" = false ∧ t.name? = none := by decide
  obtain ⟨without, unnamed⟩ := last t ended
  have shape : (createTable name columns).tokens ++ t :: rest = word "CREATE" :: word "TABLE" :: word "IF" ::
      word "NOT" :: word "EXISTS" :: word name :: sign "(" :: (Token.chain [sign ","]
        (columns.map fun column => [word column.1, word column.2.sqlName]) ++ sign ")" :: t :: rest) := by
    simp [tokens]
  have created : (Syntax.Parser.columns (!taken name) [] 2 fuel).run (Token.chain [sign ","]
      (columns.map fun column => [word column.1, word column.2.sqlName]) ++ sign ")" :: t :: rest) =
      .ok (columns.map fun (c, type) => (c, some type), t :: rest) := by
    cases columns with
    | nil => cases named
    | cons first columns =>
      simp only [freeNames, List.map_cons, List.all_cons, Bool.and_eq_true, List.all_eq_true] at named
      refine run_columns (fun column inside => ?_) apart (fun _ _ => rfl) (by omega) ?_
      · rcases List.mem_cons.mp inside with rfl | inside
        · exact named.2.1
        · exact named.2.2 _ (List.mem_map_of_mem inside)
      · simp only [tokens, Token.chain, List.map_cons, List.length_cons, List.length_append,
          List.length_flatMap, List.map_map] at enough
        simp [Function.comp_def] at enough
        omega
  rw [shape, statement, run_then (acceptKeyword_hit (by omega) (by decide)), if_pos rfl,
    run_then (acceptKeyword_miss (keyword_miss (by decide) (by decide))), if_neg Bool.false_ne_true,
    run_then (run_keyword (by omega) (by decide)), run_then (acceptKeyword_hit (by omega) (by decide)),
    if_pos rfl, run_then run_not_exists]
  have seen (more : List Token) : lastOfName.run (word name :: sign "(" :: more) =
    .ok (word name, word name :: sign "(" :: more) := rfl
  have readable : (word name).isKeyword "IF" = false := isKeyword_free free (by decide)
  have options : (tableOptions 2).run (t :: rest) = .ok ((), t :: rest) := by
    unfold tableOptions
    rw [run_then (discard_acceptKeyword (by omega) "WITHOUT"), without, if_neg Bool.false_ne_true,
      run_then run_peek]
    simp only [unnamed]
    rfl
  rw [run_then (seen _), run_then (Source.run_tableName free (by omega) (by decide)),
    if_neg Bool.false_ne_true, run_then (run_sign (by omega) "("), run_then (run_checkNew free new),
    run_then created, run_then options, readable]
  rfl

theorem run_createView {name : String} {columns : List String} {query : Query} (taken : String → Bool)
    (legible : (createView name columns query).isLegible = true)
    (enough : 4 * (createView name columns query).tokens.length < fuel)
    (ended : t ∈ [Token.finish, sign ";"]) :
    (statement taken fuel).run ((createView name columns query).tokens ++ t :: rest) =
      .ok ((createView name columns query).written, t :: rest) := by
  simp only [isLegible, Bool.and_eq_true] at legible
  obtain ⟨⟨free, named⟩, legible⟩ := legible
  have last : ∀ t ∈ [Token.finish, sign ";"], Query.ends t = true := by decide
  have shape : (createView name columns query).tokens ++ t :: rest = word "CREATE" :: word "VIEW" :: word "IF" ::
      word "NOT" :: word "EXISTS" :: word name :: sign "(" ::
        (nameTokens columns ++ sign ")" :: word "AS" :: (query.tokens ++ t :: rest)) := by
    simp [tokens]
  simp only [tokens, List.length_cons, List.length_append] at enough
  rw [shape, statement, run_then (acceptKeyword_hit (by omega) (by decide)), if_pos rfl,
    run_then (acceptKeyword_hit (by omega) (by decide)), if_pos rfl,
    run_then (acceptKeyword_hit (by omega) (by decide)), if_pos rfl, run_then run_not_exists]
  have seen (more : List Token) : lastOfName.run (word name :: sign "(" :: more) =
    .ok (word name, word name :: sign "(" :: more) := rfl
  rw [run_then (seen _), run_then (Source.run_tableName free (by omega) (by decide)), if_pos rfl,
    run_then (run_sign (by omega) "("),
    run_then (run_names named (fun name free t rest last => run_viewColumn free (by omega) last) (by omega)
      (by omega)),
    run_then (run_sign (by omega) ")"), run_then (run_keyword (by omega) (by decide)),
    run_then (Query.run_query legible (by omega) (by omega) (last t ended))]
  rfl

theorem run_insert {table : String} {columns : List String} {source : InsertSource} (taken : String → Bool)
    (legible : (insert table columns source).isLegible = true)
    (enough : 4 * (insert table columns source).tokens.length < fuel)
    (ended : t ∈ [Token.finish, sign ";"]) :
    (statement taken fuel).run ((insert table columns source).tokens ++ t :: rest) =
      .ok ((insert table columns source).written, t :: rest) := by
  simp only [isLegible, Bool.and_eq_true] at legible
  obtain ⟨⟨free, named⟩, legible⟩ := legible
  have last : ∀ t ∈ [Token.finish, sign ";"], Query.ends t = true := by decide
  have shape : (insert table columns source).tokens ++ t :: rest = word "INSERT" :: word "INTO" :: word table ::
      sign "(" :: (nameTokens columns ++ sign ")" :: (source.tokens ++ t :: rest)) := by
    simp [tokens]
  simp only [tokens, List.length_cons, List.length_append] at enough
  have target_ (more : List Token) : (target 3).run (word table :: sign "(" :: more) =
    .ok (table, sign "(" :: more) := by
    unfold target
    rw [run_then (Source.run_tableName free (by omega) (by decide)), run_then (acceptKeyword_miss rfl)]
    rfl
  rw [shape, statement, run_then (acceptKeyword_miss (keyword_miss (by decide) (by decide))),
    if_neg Bool.false_ne_true, run_then (acceptKeyword_hit (by omega) (by decide)), if_pos rfl,
    run_then (run_keyword (by omega) (by decide)), run_then (target_ _), run_then (acceptKeyword_miss rfl),
    if_neg Bool.false_ne_true, run_then (run_sign (by omega) "("),
    run_then (run_names named (fun name free t rest _ => run_name (by omega) (name_free free)) (by omega)
      (by omega)),
    run_then (run_sign (by omega) ")")]
  cases source with
  | values es =>
    simp only [InsertSource.isLegible, Bool.and_eq_true, Bool.not_eq_true', decide_eq_true_eq] at legible
    obtain ⟨⟨some, all⟩, low⟩ := legible
    cases es with
    | nil => cases some
    | cons e es =>
      simp only [InsertSource.tokens, List.length_cons, List.length_append] at enough
      have values_ : (InsertSource.values (e :: es)).tokens ++ t :: rest = word "VALUES" :: sign "(" ::
          (Token.chain [sign ","] (Expr.tokensAll (e :: es)) ++ sign ")" :: t :: rest) := by
        simp [InsertSource.tokens]
      rw [values_, run_then (acceptKeyword_hit (by omega) (by decide)), if_pos rfl,
        run_then (run_sign (by omega) "("), run_then (Expr.run_arguments (Expr.allParsed _ all) (by omega)
        (by omega) rfl rfl), run_then (run_sign (by omega) ")")]
      rfl
  | query q =>
    simp only [InsertSource.tokens] at enough
    have ran := @Query.run_query q fuel 5 t rest legible (by omega) (by omega) (last t ended)
    obtain ⟨more, opens⟩ := Query.opens_tokens legible
    change (_ : Syntax.Parser Syntax.Statement).run (q.tokens ++ t :: rest) = _
    rw [opens] at ran ⊢
    rw [List.cons_append] at ran ⊢
    rw [run_then (acceptKeyword_miss (keyword_miss (by decide) (by decide))), if_neg Bool.false_ne_true,
      run_then ran]
    rfl

theorem run_delete {table : String} {conditions : List Expr} (taken : String → Bool)
    (legible : (delete table conditions).isLegible = true)
    (enough : 4 * (delete table conditions).tokens.length < fuel) (ended : t ∈ [Token.finish, sign ";"]) :
    (statement taken fuel).run ((delete table conditions).tokens ++ t :: rest) =
      .ok ((delete table conditions).written, t :: rest) := by
  simp only [isLegible, Bool.and_eq_true, decide_eq_true_eq] at legible
  obtain ⟨⟨free, all⟩, low⟩ := legible
  have last : ∀ t ∈ [Token.finish, sign ";"], Select.ends t = true ∧
      t.isKeyword "AS" = false ∧ t.isKeyword "INDEXED" = false ∧ t.isKeyword "NOT" = false ∧
      t ≠ sign "." := by
    decide
  obtain ⟨end_, plain⟩ := last t ended
  have behind : ∃ w others,
    (if conditions.isEmpty then [] else word "WHERE" :: Expr.conditionTokens conditions) ++
      t :: rest = w :: others ∧ w.isKeyword "AS" = false ∧ w.isKeyword "INDEXED" = false ∧
      w.isKeyword "NOT" = false ∧ w ≠ sign "." := by
    cases conditions with
    | nil => exact ⟨t, rest, rfl, plain⟩
    | cons e es =>
      have apart {w : String} (other : "WHERE" ≠ w) := keyword_miss (v := "WHERE") (by decide) other
      exact ⟨word "WHERE", _, rfl, apart (by decide), apart (by decide), apart (by decide), by decide⟩
  obtain ⟨w, others, behind, as, indexed, not, dot⟩ := behind
  have shape : (delete table conditions).tokens ++ t :: rest = word "DELETE" :: word "FROM" :: word table ::
      ((if conditions.isEmpty then [] else word "WHERE" :: Expr.conditionTokens conditions) ++
      t :: rest) := by
    simp [tokens]
  have target_ : (target 3).run (word table :: w :: others) = .ok (table, w :: others) := by
    unfold target
    rw [run_then (Source.run_tableName free (by omega) dot), run_then (acceptKeyword_miss as)]
    rfl
  have filtered : 4 * (Expr.conditionTokens conditions).length + 1 < fuel := by
    simp only [tokens, List.length_cons] at enough
    cases conditions with
    | nil => exact (show 4 * 1 + 1 < fuel by omega)
    | cons c cs =>
      simp only [List.isEmpty_cons, Bool.false_eq_true, if_false, List.length_cons] at enough
      omega
  rw [shape, behind, statement, run_then (acceptKeyword_miss (keyword_miss (by decide) (by decide))),
    if_neg Bool.false_ne_true, run_then (acceptKeyword_miss (keyword_miss (by decide) (by decide))),
    if_neg Bool.false_ne_true, run_then (acceptKeyword_hit (by omega) (by decide)), if_pos rfl,
    run_then (run_keyword (by omega) (by decide)), run_then target_, run_then (acceptKeyword_miss indexed),
    if_neg Bool.false_ne_true, run_then (acceptKeyword_miss not), if_neg Bool.false_ne_true, ← behind]
  have whole := @Select.run_whether fuel 1 t rest Syntax.Statement conditions
    (fun conditions => pure (Syntax.Statement.delete table conditions)) (Expr.allParsed conditions all)
    (by omega) filtered end_
  exact whole

theorem run_tokens {s : Statement} (taken : String → Bool) (legible : s.isLegible = true)
    (enough : 4 * s.tokens.length < fuel) (ended : t ∈ [Token.finish, sign ";"]) :
    (statement taken fuel).run (s.tokens ++ t :: rest) = .ok (s.written, t :: rest) := by
  cases s with
  | createTable name columns => exact run_createTable taken legible (by omega) ended
  | createView name columns query => exact run_createView taken legible enough ended
  | insert table columns source => exact run_insert taken legible enough ended
  | delete table conditions => exact run_delete taken legible enough ended

theorem opens_tokens (s : Statement) : ∃ start more, s.tokens = word start :: more := by
  cases s with
  | createTable name columns => exact ⟨_, _, rfl⟩
  | createView name columns query => exact ⟨_, _, rfl⟩
  | insert table columns source => exact ⟨_, _, rfl⟩
  | delete table conditions => exact ⟨_, _, rfl⟩

theorem first?_of_run {taken : String → Bool} {start : String} {ts left : List Token} {s : Syntax.Statement}
    (ran : (statement taken (8 * (word start :: ts).length + 64)).run (word start :: ts) = .ok (s, t :: rest))
    (finished : finish.run (t :: rest) = .ok ((), left)) :
    Syntax.first? taken (word start :: ts) = .ok (some (s, left)) := by
  have kept : Syntax.skipEmpty (word start :: ts) = word start :: ts := rfl
  unfold Syntax.first?
  rw [kept]
  dsimp only
  rw [run_then ran, run_then finished]
  rfl

-- The first statement of some tokens, which ends where they end or at a semicolon.
theorem first?_tokens {s : Statement} (taken : String → Bool) (legible : s.isLegible = true)
    (ended : t ∈ [Token.finish, sign ";"]) : Syntax.first? taken (s.tokens ++ t :: rest) =
      .ok (some (s.written, if t = .finish then t :: rest else rest)) := by
  have ran := @run_tokens (8 * (s.tokens ++ t :: rest).length + 64) t rest s taken legible
    (by rw [List.length_append]; omega) ended
  have finished : finish.run (t :: rest) = .ok ((), if t = .finish then t :: rest else rest) := by
    unfold finish
    rw [run_then run_peek]
    simp only [List.mem_cons, List.not_mem_nil, or_false] at ended
    rcases ended with rfl | rfl
    · rfl
    · exact run_sign (by omega) ";"
  obtain ⟨start, more, shape⟩ := s.opens_tokens
  rw [shape] at ran ⊢
  exact first?_of_run ran finished

theorem run_resultName {name : String} (free : isFreeName name = true) (shallow : depth + 6 < 99)
    (last : t ∈ [sign ",", word "FROM"]) :
    (expression (fuel + 3) (depth + 4) 1).run ([word name] ++ t :: rest) =
    .ok (.name false name, t :: rest) := by
  have plain : t.isSign "." = false ∧ t.isSign "(" = false ∧ stops 1 t = true := by
    simp only [List.mem_cons, List.not_mem_nil, or_false] at last
    rcases last with rfl | rfl
    · exact ⟨rfl, rfl, rfl⟩
    · exact ⟨rfl, rfl, stops_keyword (by decide) (by decide)⟩
  obtain ⟨dot, paren, stop⟩ := plain
  have identifier : (word name).identifier?.isNone = false := by
    simp [Token.identifier?, name_free free]
  have called : (named (fuel + 1) (depth + 4) (word name) name).run (t :: rest) =
    .ok (.name false name, t :: rest) := by
    unfold named
    rw [run_then (acceptSign_miss dot)]
    simp only [Bool.false_eq_true, if_false, identifier]
    rw [run_then (acceptSign_miss paren), Bool.and_false, if_neg Bool.false_ne_true]
    rfl
  have ran : (operand (fuel + 2) (depth + 4)).run (word name :: t :: rest) =
    .ok (.name false name, t :: rest) := by
    rw [operand_name (by omega) free, called]
  rw [List.singleton_append, run_expression ran, run_operators stop]

theorem run_resultNames {first : String} {names : List String}
    (free : ∀ name ∈ first :: names, isFreeName name = true) (shallow : depth + 6 < 99)
    (enough : names.length + 4 ≤ fuel) :
    (results fuel depth).run (nameTokens (first :: names) ++ word "FROM" :: rest) =
      .ok ((first :: names).map (.name false), word "FROM" :: rest) := by
  induction names generalizing fuel first with
  | nil =>
    obtain ⟨fuel, rfl⟩ : ∃ n, fuel = n + 4 := ⟨fuel - 4, by simp at enough; omega⟩
    have own := List.forall_mem_singleton.mp free
    have ran := @run_resultName fuel depth (word "FROM") rest first own shallow (by decide)
    change (results (fuel + 4) depth).run ([word first] ++ word "FROM" :: rest) = _
    rw [Expr.run_result ran (.of_single (Expr.opens_free 0 own)) ends_keywords.2.2.2.1,
      run_then (acceptSign_miss rfl)]
    rfl
  | cons name names ih =>
    obtain ⟨own, others⟩ := List.forall_mem_cons.mp free
    rw [List.length_cons] at enough
    obtain ⟨fuel, rfl⟩ : ∃ n, fuel = n + 4 := ⟨fuel - 4, by omega⟩
    have split : nameTokens (first :: name :: names) ++ word "FROM" :: rest =
        [word first] ++ sign "," :: (nameTokens (name :: names) ++ word "FROM" :: rest) := by
      simp [nameTokens, Token.chain]
    have ran := @run_resultName fuel depth (sign ",") (nameTokens (name :: names) ++
      word "FROM" :: rest) first own
      shallow (by decide)
    rw [split, Expr.run_result ran (.of_single (Expr.opens_free 0 own)) rfl,
      run_then (acceptSign_hit (by omega) ","), if_pos rfl, run_then (ih others (by omega))]
    rfl

-- A table without a name of its own behind it.
theorem run_bareSource {name : String} (free : isFreeName name = true) :
    (sources (fuel + 2) 0 false true).run [word name, .finish] =
      .ok ([.mk name false none false []], [.finish]) := by
  have ended : (joins (fuel + 1) 0).run [.finish] = .ok ([], [.finish]) :=
    @Source.run_joins (fuel + 1) 0 .finish [] [] (List.forall_mem_nil _) rfl (by omega) (by decide)
      (Nat.succ_pos _) rfl
  rw [sources, run_then (Source.run_tableName free (by omega) (by decide)), run_then (acceptSign_miss rfl),
    if_neg Bool.false_ne_true, run_then (run_unlabelled rfl rfl), run_then (acceptKeyword_miss rfl),
    if_neg Bool.false_ne_true, run_then (acceptKeyword_miss rfl), if_neg Bool.false_ne_true,
    run_then (acceptKeyword_miss rfl), if_neg Bool.false_ne_true, pure_bind, run_then ended]
  rfl

theorem run_reader {columns : List String} {name : String} (named : freeNames columns = true)
    (free : isFreeName name = true) (enough : columns.length + 8 ≤ fuel) :
    (query fuel 0).run (readerTokens columns name ++ [.finish]) =
      .ok (Archive.reader columns name, [.finish]) := by
  obtain ⟨first, others, rfl, each⟩ := freeNames_cases named
  rw [List.length_cons] at enough
  obtain ⟨fuel, rfl⟩ : ∃ n, fuel = n + 4 := ⟨fuel - 4, by omega⟩
  have listed := @run_resultNames (fuel + 2) 0 [word name, .finish] first others each (by omega) (by omega)
  have alone : (moreSelects (fuel + 3) 0).run [.finish] = .ok ([], [.finish]) :=
    @Query.run_moreSelects (fuel + 3) 0 .finish [] [] (List.forall_mem_nil _) (by omega)
      (List.forall_mem_nil _) (Nat.succ_pos _) rfl
  have distinct := isKeyword_free (w := "DISTINCT") (each first List.mem_cons_self) (by decide)
  have whole := isKeyword_free (w := "ALL") (each first List.mem_cons_self) (by decide)
  have shape : readerTokens (first :: others) name ++ [.finish] = word "SELECT" ::
      (nameTokens (first :: others) ++ word "FROM" :: [word name, .finish]) := by
    simp [readerTokens]
  have opened : nameTokens (first :: others) = word first :: (others.map fun name => [word name]).flatMap
      ([sign ","] ++ ·) := rfl
  have selected : (select (fuel + 3) 0).run (readerTokens (first :: others) name ++ [.finish]) =
      .ok (.mk false ((first :: others).map (.name false)) [.mk name false none false []] [], [.finish]) := by
    rw [shape, select, run_then (run_keyword (by omega) (by decide))]
    rw [opened, List.cons_append] at listed ⊢
    rw [run_then (acceptKeyword_miss distinct), if_neg Bool.false_ne_true,
      run_then (discard_acceptKeyword (by omega) "ALL"), whole, if_neg Bool.false_ne_true, run_then listed,
      run_then (acceptKeyword_hit (by omega) (by decide)), if_pos rfl, run_then (run_bareSource free),
      run_then (acceptKeyword_miss rfl), if_neg Bool.false_ne_true, pure_bind, run_then (Select.run_clauses rfl)]
    rfl
  rw [query, run_then selected, run_then alone]
  rfl

theorem first?_reader {columns : List String} {name : String} (taken : String → Bool)
    (named : freeNames columns = true) (free : isFreeName name = true) :
    Syntax.first? taken (readerTokens columns name ++ [.finish]) =
      .ok (some (.select (Archive.reader columns name), [.finish])) := by
  have apart {w : String} (other : "SELECT" ≠ w) := keyword_miss (v := "SELECT") (by decide) other
  have enough : columns.length + 8 ≤ 8 * (readerTokens columns name ++ [Token.finish]).length + 64 := by
    obtain ⟨first, others, rfl, each⟩ := freeNames_cases named
    simp [readerTokens, nameTokens, Token.chain, List.length_flatMap, Function.comp_def]
    omega
  have ran := run_reader named free enough
  rw [readerTokens, List.cons_append] at ran ⊢
  refine first?_of_run ?_ (show finish.run [.finish] = .ok ((), [.finish]) from rfl)
  rw [statement, run_then (acceptKeyword_miss (apart (by decide))), if_neg Bool.false_ne_true,
    run_then (acceptKeyword_miss (apart (by decide))), if_neg Bool.false_ne_true,
    run_then (acceptKeyword_miss (apart (by decide))), if_neg Bool.false_ne_true,
    run_then (acceptKeyword_miss (apart (by decide))), if_neg Bool.false_ne_true, run_then (run_isNext _),
    keyword_hit (by decide), if_pos rfl, run_then ran]
  rfl

end Statement

-- Every archive reads a text as a statement.
def Reads (text : String) (s : Syntax.Statement) : Prop := ∀ a : Archive, a.read? text = .ok (some s)

-- Statements that are read off tokens one after the other.
inductive ReadsAll : List Token → List Syntax.Statement → Prop
  | none {tokens : List Token} (ended : ∀ taken, Syntax.first? taken tokens = .ok none) : ReadsAll tokens []
  | next {tokens rest : List Token} {s : Syntax.Statement} {statements : List Syntax.Statement}
    (first : ∀ taken, Syntax.first? taken tokens = .ok (some (s, rest)))
    (others : ReadsAll rest statements) :
    ReadsAll tokens (s :: statements)

theorem closed_nil : Token.Closed [] := by
  intro c none
  cases none

theorem Token.Written.ofText {text : String} {ts : List Token} (written : Written text ts) :
    Token.ofText text = ts ++ [.finish] := by
  obtain ⟨-, -, plain, reads⟩ := written [] closed_nil
  have whole : text.toList.takeWhile (· ≠ '\x00') = text.toList :=
    List.takeWhile_eq_self_iff.mpr fun c inside => decide_eq_true fun same => plain (same ▸ inside)
  obtain ⟨left, -, read⟩ := reads text.toList.length (by simp)
  have ended : readAll left [] = [.finish] := by cases left <;> rfl
  rw [List.append_nil, ended] at read
  rw [Token.ofText, whole, read]

-- Trimming takes nothing away where the first character is no blank.
theorem Token.Written.trimmed {text : String} {ts : List Token} (written : Written text ts) {c : Char}
    {more : List Char} (opens : text.toList = c :: more) (dark : Text.isBlank c = false) :
    Textual.trimmed text = text := by
  obtain ⟨-, ⟨front, last, shape, closes⟩, -, -⟩ := written [] closed_nil
  have front_ : text.toList.dropWhile Text.isBlank = text.toList := by
    rw [opens, List.dropWhile_cons_of_neg (by rw [dark]; exact Bool.false_ne_true)]
  have kept : Text.trim text.toList = text.toList := by
    rw [Text.trim, front_, shape, List.reverse_append, List.reverse_singleton, List.singleton_append,
      List.dropWhile_cons_of_neg (by rw [closes]; exact Bool.false_ne_true), List.reverse_cons,
      List.reverse_reverse]
  rw [Textual.trimmed, kept, String.ofList_toList]

namespace Statement

theorem render_opens (s : Statement) : ∃ c more, s.render.toList = c :: more ∧ Text.isBlank c = false := by
  cases s with
  | createTable name columns =>
    exact ⟨'C', _, by simp only [render_createTable, String.toList_append]; rfl, by decide⟩
  | createView name columns query =>
    exact ⟨'C', _, by simp only [render_createView, String.toList_append]; rfl, by decide⟩
  | insert table columns source =>
    cases source with
    | values es => exact ⟨'I', _, by simp only [render_insertValues, String.toList_append]; rfl, by decide⟩
    | query q => exact ⟨'I', _, by simp only [render_insertQuery, String.toList_append]; rfl, by decide⟩
  | delete table conditions =>
    exact ⟨'D', _, by simp only [render_delete, String.toList_append]; rfl, by decide⟩

-- The text of a legible statement is read as the statement, whatever archive reads it.
theorem reads_render {s : Statement} (legible : s.isLegible = true) :
    Reads (Textual.trimmed s.render) s.written := by
  intro a
  have written := written_render legible
  obtain ⟨c, more, opens, dark⟩ := s.render_opens
  have first := @first?_tokens .finish [] s a.hasName legible List.mem_cons_self
  rw [written.trimmed opens dark, Archive.read?, written.ofText, first]
  rfl

theorem length_le_chain (m : Token) (parts : List (List Token)) :
    parts.length ≤ (Token.chain [m] parts).length + 1 := by
  cases parts with
  | nil => exact Nat.zero_le _
  | cons part parts =>
    have later : parts.length ≤ (parts.flatMap ([m] ++ ·)).length := by
      induction parts with
      | nil => exact Nat.le_refl 0
      | cons part parts ih =>
        simp only [List.flatMap_cons, List.length_append, List.length_cons, List.length_nil]
        omega
    rw [Token.chain, List.length_append, List.length_cons]
    omega

theorem written_statements {statements : List Statement} (legible : ∀ s ∈ statements, s.isLegible = true)
    (some : statements ≠ []) : Written (";\n".intercalate (statements.map render))
      (Token.chain [sign ";"] (statements.map tokens)) := by
  intro rest closed
  refine Token.Spells.intercalate (fun rest => closed_sign (by decide) _) (fun later => ?_)
    (forall₂_map fun s inside => written_render (legible s inside)) (by simpa using some) closed
  exact (Token.spells_tight ';' ";" (by decide)).append (later.space (by decide))

theorem readsAll_tokens {s : Statement} {statements : List Statement}
    (legible : ∀ x ∈ s :: statements, x.isLegible = true) :
    ReadsAll (Token.chain [sign ";"] ((s :: statements).map tokens) ++ [.finish])
      ((s :: statements).map Statement.written) := by
  induction statements generalizing s with
  | nil =>
    have own := legible s List.mem_cons_self
    have alone : Token.chain [sign ";"] ([s].map tokens) = s.tokens := List.append_nil _
    rw [alone]
    exact .next (fun taken => @first?_tokens .finish [] s taken own List.mem_cons_self) (.none fun _ => rfl)
  | cons next statements ih =>
    obtain ⟨own, others⟩ := List.forall_mem_cons.mp legible
    have split : Token.chain [sign ";"] ((s :: next :: statements).map tokens) ++ [.finish] =
        s.tokens ++ sign ";" :: (Token.chain [sign ";"] ((next :: statements).map tokens) ++ [.finish]) := by
      simp [Token.chain]
    rw [split]
    refine .next (fun taken => ?_) (ih others)
    exact first?_tokens taken own (List.mem_cons_of_mem _ List.mem_cons_self)

-- The text of legible statements is read as the statements, one after the other.
theorem readsAll_render {statements : List Statement} (legible : ∀ s ∈ statements, s.isLegible = true) :
    statements.length ≤ (Token.ofText (";\n".intercalate (statements.map render))).length ∧
      ReadsAll (Token.ofText (";\n".intercalate (statements.map render)))
      (statements.map Statement.written) := by
  cases statements with
  | nil => exact ⟨Nat.zero_le _, .none fun _ => rfl⟩
  | cons s statements =>
    rw [(written_statements legible (List.cons_ne_nil _ _)).ofText]
    have long := length_le_chain (sign ";") ((s :: statements).map tokens)
    rw [List.length_map] at long
    exact ⟨by rw [List.length_append]; exact long, readsAll_tokens legible⟩

end Statement

section Calls

variable {table name : String} {columns : List String}

-- The parameters a row is loaded through.
def parameters (columns : List String) : List Expr := (List.range columns.length).map fun i => .param (i + 1)

theorem renderAll_eq (es : List Expr) : Expr.renderAll es = es.map Expr.render := by
  induction es with
  | nil => rfl
  | cons e es ih => rw [Expr.renderAll, ih, List.map_cons]

theorem loadText_eq : loadText table columns =
    (Statement.insert table columns (.values (parameters columns))).render := by
  have params : Expr.renderAll (parameters columns) =
      (List.range columns.length).map fun i => "?" ++ toString (i + 1) := by
    rw [renderAll_eq, parameters, List.map_map]
    rfl
  have joint : ") VALUES (" = ") " ++ "VALUES (" := rfl
  unfold loadText
  rw [Statement.render_insertValues, params, joint]
  simp only [String.append_assoc]

theorem parameters_read (ns : List Nat) :
    Expr.allLegible 1 (ns.map fun i => .param (i + 1)) = true ∧
      Expr.reachAll (ns.map fun i => .param (i + 1)) ≤ 1 ∧
      Expr.writtenAll (ns.map fun i => .param (i + 1)) = ns.map fun _ => .parameter := by
  induction ns with
  | nil => exact ⟨rfl, Nat.zero_le _, rfl⟩
  | cons n ns ih =>
    obtain ⟨legible, low, written⟩ := ih
    rw [List.map_cons, Expr.allLegible, legible, Expr.reachAll, Expr.writtenAll, written]
    exact ⟨rfl, Nat.max_le.mpr ⟨Nat.le_refl 1, low⟩, rfl⟩

theorem legible_load (free : isFreeName table = true) (named : Statement.freeNames columns = true) :
    (Statement.insert table columns (.values (parameters columns))).isLegible = true := by
  obtain ⟨legible, low, -⟩ := parameters_read (List.range columns.length)
  have some : (parameters columns).isEmpty = false := by
    have filled := (Bool.and_eq_true_iff.mp named).1
    cases columns with
    | nil => cases filled
    | cons column columns => simp [parameters]
  rw [Statement.isLegible, InsertSource.isLegible, free, named, some, parameters, legible,
    decide_eq_true (low.trans (by decide))]
  rfl

theorem written_load : (Statement.insert table columns (.values (parameters columns))).written =
    .insert table columns (.values (columns.map fun _ => .parameter)) := by
  have same : (List.range columns.length).map (fun _ => Syntax.Expr.parameter) =
      columns.map fun _ => .parameter := by
    rw [List.map_const', List.map_const', List.length_range]
  rw [Statement.written, InsertSource.written, parameters, (parameters_read _).2.2, same]

theorem reads_loadText (free : isFreeName table = true) (named : Statement.freeNames columns = true) :
    Reads (Textual.trimmed (loadText table columns))
      (.insert table columns (.values (columns.map fun _ => .parameter))) := by
  rw [loadText_eq, ← written_load]
  exact Statement.reads_render (legible_load free named)

theorem written_readText (free : isFreeName name = true) (named : Statement.freeNames columns = true) :
    Written (readText columns name) (Statement.readerTokens columns name) := by
  intro rest closed
  have shape : (readText columns name).toList = "SELECT".toList ++ ' ' ::
    ((", ".intercalate columns).toList ++
      ' ' :: ("FROM".toList ++ ' ' :: name.toList)) := by
    simp only [readText, String.toList_append, List.append_assoc]
    rfl
  rw [shape]
  have source := Token.Spells.word "FROM" (by decide)
    (written_word name (isFreeName_bare free) rest closed)
  exact Token.Spells.word "SELECT" (by decide)
    ((Statement.written_names named _ (closed_blank _)).append source.blank)

theorem reads_readText (free : isFreeName name = true) (named : Statement.freeNames columns = true) :
    Reads (readText columns name) (.select (Archive.reader columns name)) := by
  intro a
  rw [Archive.read?, (written_readText free named).ofText, Statement.first?_reader a.hasName named free]
  rfl

end Calls

end PeerExchange.Sql
