import PeerExchange.Proofs.SpelledTokens
import PeerExchange.Proofs.StatementTexts

namespace PeerExchange.Sql

open Token (word sign Spells Closed Continues)

-- Tokens of several parts, with the same ones between two of them.
def Token.chain (between : List Token) : List (List Token) → List Token
  | [] => []
  | ts :: rest => ts ++ rest.flatMap (between ++ ·)

def BinaryOp.token : BinaryOp → Token
  | is => word "IS"
  | op => sign op.symbol

mutual

@[simp] def Expr.tokens : Expr → List Token
  | .column qualifier name => [word qualifier, sign ".", word name]
  | .integer n => (if n < 0 then [sign "-"] else []) ++ [.integer (toString n.natAbs)]
  | .text s => [.string (quoteText s) s]
  | .null => [word "NULL"]
  | .typedNull type => [word "CAST", sign "(", word "NULL", word "AS", word type.sqlName, sign ")"]
  | .param n => [.parameter ("?" ++ toString n)]
  | .binary op left right => left.tokens ++ op.token :: right.tokens
  | .call f args =>
    word f.name :: sign "(" :: (Token.chain [sign ","] (Expr.tokensAll args) ++ [sign ")"])
  | .cast e type => word "CAST" :: sign "(" :: (e.tokens ++ [word "AS", word type.sqlName, sign ")"])
  | .concat parts => Token.chain [sign "||"] (Expr.tokensAll parts)
  | .nullCase e onNull otherwise =>
    word "CASE" :: word "WHEN" :: (e.tokens ++ word "IS" :: word "NULL" :: word "THEN" ::
      (onNull.tokens ++ word "ELSE" :: (otherwise.tokens ++ [word "END"])))
  | .exists negated query =>
    (if negated then [word "NOT"] else []) ++ word "EXISTS" :: sign "(" :: (query.tokens ++ [sign ")"])

@[simp] def Expr.tokensAll : List Expr → List (List Token)
  | [] => []
  | e :: rest => e.tokens :: Expr.tokensAll rest

@[simp] def Expr.conditionTokens : List Expr → List Token
  | [] => [.integer "1"]
  | e :: rest => Token.chain [word "AND"] (e.tokens :: Expr.tokensAll rest)

@[simp] def Source.tokensRest : List Source → List Token
  | [] => []
  | .mk table qualifier outer on :: rest =>
    (if outer then [word "LEFT", word "OUTER", word "JOIN"] else [sign ","]) ++
      word table :: word qualifier ::
        ((if outer then word "ON" :: Expr.conditionTokens on else []) ++ Source.tokensRest rest)

@[simp] def Source.tokensAll : List Source → List Token
  | [] => []
  | .mk table qualifier _ _ :: rest =>
    word "FROM" :: word table :: word qualifier :: Source.tokensRest rest

@[simp] def Select.tokens : Select → List Token
  | .mk distinct projection sources conditions =>
    word "SELECT" :: ((if distinct then [word "DISTINCT"] else []) ++
      ((if projection.isEmpty then [.integer "1"] else Token.chain [sign ","]
      (Expr.tokensAll projection)) ++
        (Source.tokensAll sources ++
          if conditions.isEmpty then [] else word "WHERE" :: Expr.conditionTokens conditions)))

end

namespace BinaryOp

def level : BinaryOp → Nat
  | eq | ne | is => 4
  | lt | le | gt | ge => 5
  | plus | minus => 8

end BinaryOp

namespace Expr

-- How strongly an expression is held together without parentheses.
def level : Expr → Nat
  | .binary op _ _ => op.level
  | .concat _ => 10
  | .exists true _ => 3
  | _ => 11

-- How strongly an expression holds its end.
def tight : Expr → Nat
  | .binary op _ _ => op.level + 1
  | .concat _ => 11
  | .exists true _ => 3
  | _ => 12

end Expr

def Token.special : List String :=
  reserved ++ joinWords ++
  ["INDEXED", "CAST", "IF", "RAISE", "CURRENT_DATE", "CURRENT_TIME", "CURRENT_TIMESTAMP"]

def isFreeName (name : String) : Bool := Token.isBare name && !Token.special.contains name.toUpper

mutual

-- Names that are no keywords, texts without a null character, and no operation inside of one that
-- would take it apart where no parentheses are written.
@[simp] def Expr.isLegible : Expr → Bool
  | .column qualifier name => isFreeName qualifier && isFreeName name
  | .text s => !s.toList.contains '\x00'
  | .binary op left right =>
    op.level ≤ left.level && op.level < right.level && left.isLegible && right.isLegible
  | .call _ args => !args.isEmpty && Expr.allLegible 1 args
  | .cast e _ => 1 ≤ e.level && e.isLegible
  | .concat parts => !parts.isEmpty && Expr.allLegible 11 parts
  | .nullCase e onNull otherwise =>
    4 ≤ e.level && e.isLegible && onNull.isLegible && otherwise.isLegible
  | .exists _ query => query.isLegible
  | .integer _ | .null | .typedNull _ | .param _ => true

@[simp] def Expr.allLegible (least : Nat) : List Expr → Bool
  | [] => true
  | e :: rest => least ≤ e.level && e.isLegible && Expr.allLegible least rest

@[simp] def Source.allLegible : List Source → Bool
  | [] => true
  | .mk table qualifier _ on :: rest =>
    isFreeName table && isFreeName qualifier && Expr.allLegible 3 on && Source.allLegible rest

@[simp] def Select.isLegible : Select → Bool
  | .mk _ projection sources conditions =>
    Expr.allLegible 1 projection && Expr.allLegible 3 conditions && Source.allLegible sources &&
      sources.head?.all (!·.outer)

end

mutual

-- How many steps deeper than where it starts the parser goes for an expression, at most.
@[simp] def Expr.reach : Expr → Nat
  | .column _ _ => 4
  | .integer n => if n < 0 then 2 else 1
  | .text _ => 2
  | .null | .param _ => 1
  | .typedNull _ => 6
  | .binary _ left right => max left.reach (right.reach + 3)
  | .call _ args => Expr.reachAll args + 5
  | .cast e _ => max 6 (e.reach + 2)
  | .concat parts => Expr.reachAll parts + 2
  | .nullCase e onNull otherwise => max 7 (max (e.reach + 3) (max (onNull.reach + 5) (otherwise.reach + 4)))
  | .exists negated query => query.reach + if negated then 3 else 2

@[simp] def Expr.reachAll : List Expr → Nat
  | [] => 0
  | e :: rest => max e.reach (Expr.reachAll rest)

@[simp] def Source.reachAll : List Source → Nat
  | [] => 0
  | .mk _ _ _ on :: rest => max (Expr.reachAll on + 13) (Source.reachAll rest)

@[simp] def Select.reach : Select → Nat
  | .mk _ projection sources conditions =>
    max 10 (max (Expr.reachAll projection + 5)
    (max (Source.reachAll sources) (Expr.reachAll conditions + 8)))

end

-- What is written before an arm of a query.
def Syntax.Combination.tokens : Syntax.Combination → List Token
  | .union => [word "UNION"]
  | .unionAll => [word "UNION", word "ALL"]
  | .except => [word "EXCEPT"]

namespace Query

def tokens (q : Query) : List Token :=
  (q.selects.head?.map Select.tokens).getD [] ++ q.parts.flatMap fun part => part.1.tokens ++ part.2.tokens

-- Arms that can be read, none of which goes too deep for what may stand around a query.
def isLegible (q : Query) : Bool :=
  !q.selects.isEmpty && q.checked.all fun s => s.isLegible && s.reach ≤ 89

end Query

namespace InsertSource

def tokens : InsertSource → List Token
  | .values es => word "VALUES" :: sign "(" :: (Token.chain [sign ","] (Expr.tokensAll es) ++ [sign ")"])
  | .query q => q.tokens

def isLegible : InsertSource → Bool
  | .values es => !es.isEmpty && Expr.allLegible 1 es && Expr.reachAll es ≤ 89
  | .query q => q.isLegible

end InsertSource

namespace Statement

def nameTokens (names : List String) : List Token :=
  Token.chain [sign ","] (names.map fun name => [word name])

def tokens : Statement → List Token
  | createTable name columns =>
    word "CREATE" :: word "TABLE" :: word "IF" :: word "NOT" :: word "EXISTS" :: word name :: sign "(" ::
      (Token.chain [sign ","] (columns.map fun column => [word column.1, word column.2.sqlName]) ++
      [sign ")"])
  | createView name columns query =>
    word "CREATE" :: word "VIEW" :: word "IF" :: word "NOT" :: word "EXISTS" :: word name :: sign "(" ::
      (nameTokens columns ++ sign ")" :: word "AS" :: query.tokens)
  | insert table columns source =>
    word "INSERT" :: word "INTO" :: word table :: sign "(" ::
    (nameTokens columns ++ sign ")" :: source.tokens)
  | delete table conditions =>
    word "DELETE" :: word "FROM" :: word table ::
      if conditions.isEmpty then [] else word "WHERE" :: Expr.conditionTokens conditions

def freeNames (names : List String) : Bool := !names.isEmpty && names.all isFreeName

-- A statement whose text can be read back.
def isLegible : Statement → Bool
  | createTable name columns =>
    isFreeName name && !Syntax.Parser.isReserved name && freeNames (columns.map Prod.fst) &&
      (columns.map fun column => column.1.toLower).Nodup
  | createView name columns query => isFreeName name && freeNames columns && query.isLegible
  | insert table columns source => isFreeName table && freeNames columns && source.isLegible
  | delete table conditions =>
    isFreeName table && Expr.allLegible 3 conditions && Expr.reachAll conditions ≤ 89

-- The tokens of a query for all rows of a table.
def readerTokens (columns : List String) (name : String) : List Token :=
  word "SELECT" :: (nameTokens columns ++ [word "FROM", word name])

end Statement

theorem closed_sign {c : Char} (known : c ∈ [' ', ')', ',', ';']) (rest : List Char) : Closed (c :: rest) :=
  fun _ inside => Option.some.inj inside ▸ known

theorem closed_blank (rest : List Char) : Closed (' ' :: rest) := closed_sign (by decide) rest

namespace Token

variable {rest : List Char}

-- Texts and the tokens that they are read as wherever they are complete.
def Written (text : String) (ts : List Token) : Prop :=
  ∀ rest, Closed rest → Spells text.toList ts rest

theorem Spells.intercalate {between : String} {ts : List Token} {texts : List String}
    {parts : List (List Token)} (closed : ∀ rest, Closed (between.toList ++ rest))
    (joins : ∀ {cs us rest}, Spells cs us rest → Spells (between.toList ++ cs) (ts ++ us) rest)
    (each : List.Forall₂ Written texts parts) (some : texts ≠ []) (stop : Closed rest) :
    Spells (between.intercalate texts).toList (chain ts parts) rest := by
  induction each with
  | nil => exact absurd rfl some
  | @cons text part texts parts first later ih =>
    cases later with
    | nil =>
      rw [String.intercalate_singleton, chain, List.flatMap_nil, List.append_nil]
      exact first rest stop
    | @cons text' part' texts parts second later =>
      have behind := joins (ih (List.cons_ne_nil _ _))
      have split : chain ts (part :: part' :: parts) = part ++ (ts ++ chain ts (part' :: parts)) := by
        simp [chain]
      rw [String.intercalate_cons_cons, String.toList_append, String.toList_append, split,
        List.append_assoc]
      refine (first _ ?_).append behind
      rw [List.append_assoc]
      exact closed _

theorem spells_keyword (name : String) (bare : isBare name = true) :
    Spells name.toList [word name] (' ' :: rest) :=
  spells_word name bare (stops_of_closed (closed_blank rest))

theorem Spells.word {cs : List Char} {ts : List Token} (name : String) (bare : isBare name = true)
    (later : Spells cs ts rest) : Spells (name.toList ++ ' ' :: cs) (Token.word name :: ts) rest :=
  (spells_keyword name bare).append later.blank

theorem Spells.optional {cs : List Char} {ts : List Token} (text name : String) (given : Bool)
    (shape : text.toList = name.toList ++ [' ']) (bare : isBare name = true) (later : Spells cs ts rest) :
    Spells ((if given then text else "").toList ++ cs) ((if given then [Token.word name] else []) ++ ts)
      rest := by
  cases given with
  | false => exact later
  | true =>
    rw [if_pos rfl, if_pos rfl, shape, List.append_assoc]
    exact later.word name bare

theorem Spells.commas {texts : List String} {parts : List (List Token)}
    (each : List.Forall₂ Written texts parts) (some : texts ≠ []) (stop : Closed rest) :
    Spells (", ".intercalate texts).toList (chain [sign ","] parts) rest := by
  refine Spells.intercalate (fun rest => closed_sign (by decide) _) (fun later => ?_) each some stop
  exact (spells_tight ',' "," (by decide)).append later.blank

end Token

open Token (Written spells_word spells_tight spells_keyword stops_of_closed)

theorem spells_op {rest : List Char} (op : BinaryOp) : Spells op.symbol.toList [op.token] (' ' :: rest) := by
  by_cases known : op = .is
  · rw [known]
    exact spells_keyword "IS" (by decide)
  · have token : op.token = sign op.symbol := by cases op <;> first | rfl | exact absurd rfl known
    rw [token]
    exact Token.spells_symbol op known

theorem isFreeName_bare {name : String} (free : isFreeName name = true) : Token.isBare name = true :=
  (Bool.and_eq_true_iff.mp free).1

theorem written_word (name : String) (bare : Token.isBare name = true) : Written name [word name] :=
  fun _ closed => spells_word name bare (stops_of_closed closed)

theorem written_type (type : ColumnType) : Written type.sqlName [word type.sqlName] :=
  written_word _ (by cases type <;> decide)

theorem written_conditions {es : List Expr}
    (each : List.Forall₂ Written (Expr.renderAll es) (Expr.tokensAll es)) :
    Written (Expr.renderConditions es) (Expr.conditionTokens es) := by
  intro rest closed
  cases es with
  | nil => exact Token.spells_nat 1 closed
  | cons e es =>
    change Spells (" AND ".intercalate (Expr.renderAll (e :: es))).toList
      (Token.chain [word "AND"] (Expr.tokensAll (e :: es))) rest
    refine Spells.intercalate (fun rest => closed_blank _) (fun later => ?_) each
      (List.cons_ne_nil _ _) closed
    exact (Spells.word "AND" (by decide) later).blank

theorem continues_whether {conditions : List Expr} {rest : List Char}
    (each : List.Forall₂ Written (Expr.renderAll conditions) (Expr.tokensAll conditions))
    (closed : Closed rest) :
    Continues (if conditions.isEmpty then "" else " WHERE " ++ Expr.renderConditions conditions).toList
      (if conditions.isEmpty then [] else word "WHERE" :: Expr.conditionTokens conditions) rest := by
  split
  · exact .none closed
  · have shape : (" WHERE " ++ Expr.renderConditions conditions).toList =
        ' ' :: ("WHERE".toList ++ ' ' :: (Expr.renderConditions conditions).toList) := by
      rw [String.toList_append]
      rfl
    rw [shape]
    exact .of_spells (closed_blank _) ((written_conditions each _ closed).word "WHERE" (by decide)).blank

theorem written_column {qualifier name : String} (first : Token.isBare qualifier = true)
    (second : Token.isBare name = true) :
    Written (qualifier ++ "." ++ name) [word qualifier, sign ".", word name] := by
  intro rest closed
  have shape : (qualifier ++ "." ++ name).toList = qualifier.toList ++ (['.'] ++ name.toList) := by
    rw [String.toList_append, String.toList_append, List.append_assoc]
    rfl
  rw [shape]
  refine (spells_word _ first fun d inside => ?_).append
    ((Token.spells_dot fun d inside => ?_).append (spells_word _ second (stops_of_closed closed)))
  · exact Option.some.inj inside ▸ ⟨by decide, by decide⟩
  · obtain ⟨c, more, letters, digit, -⟩ := Token.isBare_cases second
    rw [letters] at inside
    exact Option.some.inj inside ▸ digit

theorem written_integer (n : Int) :
    Written (toString n) ((if n < 0 then [sign "-"] else []) ++ [.integer (toString n.natAbs)]) := by
  intro rest closed
  have digits := Token.spells_nat n.natAbs closed
  rw [toList_integer]
  by_cases negative : n < 0
  · rw [if_pos negative, if_pos negative]
    obtain ⟨first, more, shape, -⟩ := head_toDigits n.natAbs
    rw [Token.toList_nat, shape] at digits
    rw [shape]
    refine Spells.append (Token.spells_minus ?_ _) digits
    exact isDigit_toDigits n.natAbs first (by rw [shape]; exact List.mem_cons_self)
  · rw [if_neg negative, if_neg negative, List.nil_append, List.nil_append, ← Token.toList_nat]
    exact digits

theorem written_typedNull (type : ColumnType) : Written ("CAST(NULL AS " ++ type.sqlName ++ ")")
    [word "CAST", sign "(", word "NULL", word "AS", word type.sqlName, sign ")"] := by
  intro rest closed
  have shape : ("CAST(NULL AS " ++ type.sqlName ++ ")").toList =
      "CAST".toList ++
      (['('] ++ ("NULL".toList ++ ' ' :: ("AS".toList ++ ' ' :: (type.sqlName.toList ++ [')'])))) := by
    simp only [String.toList_append, List.append_assoc]
    rfl
  rw [shape]
  refine (spells_word "CAST" (by decide) ?_).append ((spells_tight '(' "(" (by decide)).append
    (.word "NULL" (by decide) (.word "AS" (by decide)
      ((written_type type _ (closed_sign (by decide) _)).append (spells_tight ')' ")" (by decide))))))
  exact fun d inside => Option.some.inj inside ▸ ⟨by decide, by decide⟩

mutual

theorem Expr.written_render : (e : Expr) → e.isLegible = true → Written e.render e.tokens
  | .column qualifier name, legible => by
    obtain ⟨first, second⟩ := Bool.and_eq_true_iff.mp legible
    exact written_column (isFreeName_bare first) (isFreeName_bare second)
  | .integer n, _ => written_integer n
  | .text s, legible => fun rest closed => by
    refine Token.spells_text ?_ closed
    simpa [Expr.isLegible] using legible
  | .null, _ => written_word "NULL" (by decide)
  | .typedNull type, _ => written_typedNull type
  | .param n, _ => fun rest closed => Token.spells_parameter n closed
  | .binary op left right, legible => fun rest closed => by
    simp only [Expr.isLegible, Bool.and_eq_true] at legible
    obtain ⟨⟨-, first⟩, second⟩ := legible
    have shape : (Expr.binary op left right).render.toList =
        left.render.toList ++ ' ' :: (op.symbol.toList ++ ' ' :: right.render.toList) := by
      simp only [Expr.render, String.toList_append, List.append_assoc]
      rfl
    rw [shape]
    exact (Expr.written_render left first _ (closed_blank _)).append
      (((spells_op op).append (Expr.written_render right second _ closed).blank).blank)
  | .call f args, legible => fun rest closed => by
    simp only [Expr.isLegible, Bool.and_eq_true, Bool.not_eq_true'] at legible
    obtain ⟨some, all⟩ := legible
    have shape : (Expr.call f args).render.toList =
        f.name.toList ++ (['('] ++ ((", ".intercalate (Expr.renderAll args)).toList ++ [')'])) := by
      simp only [Expr.render, String.toList_append, List.append_assoc]
      rfl
    rw [shape]
    have items : Expr.renderAll args ≠ [] := by
      cases args with
      | nil => cases some
      | cons e rest => exact List.cons_ne_nil _ _
    refine (spells_word f.name (by cases f <;> decide) ?_).append ((spells_tight '(' "(" (by decide)).append
      ((Spells.commas (Expr.written_renderAll args all) items (closed_sign (by decide) _)).append
        (spells_tight ')' ")" (by decide))))
    exact fun d inside => Option.some.inj inside ▸ ⟨by decide, by decide⟩
  | .cast e type, legible => fun rest closed => by
    simp only [Expr.isLegible, Bool.and_eq_true] at legible
    have shape : (Expr.cast e type).render.toList = "CAST".toList ++ (['('] ++ (e.render.toList ++
        ' ' :: ("AS".toList ++ ' ' :: (type.sqlName.toList ++ [')'])))) := by
      simp only [Expr.render, String.toList_append, List.append_assoc]
      rfl
    rw [shape]
    have behind : Spells ("AS".toList ++ ' ' :: (type.sqlName.toList ++ [')'])) _ rest :=
      .word "AS" (by decide)
        ((written_type type _ (closed_sign (by decide) _)).append (spells_tight ')' ")" (by decide)))
    refine (spells_word "CAST" (by decide) ?_).append ((spells_tight '(' "(" (by decide)).append
      ((Expr.written_render e legible.2 _ (closed_blank _)).append behind.blank))
    exact fun d inside => Option.some.inj inside ▸ ⟨by decide, by decide⟩
  | .concat parts, legible => fun rest closed => by
    simp only [Expr.isLegible, Bool.and_eq_true, Bool.not_eq_true'] at legible
    obtain ⟨some, all⟩ := legible
    have items : Expr.renderAll parts ≠ [] := by
      cases parts with
      | nil => cases some
      | cons e rest => exact List.cons_ne_nil _ _
    change Spells (" || ".intercalate (Expr.renderAll parts)).toList _ rest
    refine Spells.intercalate (fun rest => closed_blank _) (fun later => ?_)
      (Expr.written_renderAll parts all) items closed
    exact (Token.spells_bars.append later.blank).blank
  | .nullCase e onNull otherwise, legible => fun rest closed => by
    simp only [Expr.isLegible, Bool.and_eq_true] at legible
    obtain ⟨⟨⟨-, condition⟩, first⟩, second⟩ := legible
    have shape : (Expr.nullCase e onNull otherwise).render.toList =
        "CASE".toList ++ ' ' :: ("WHEN".toList ++ ' ' :: (e.render.toList ++
          ' ' :: ("IS".toList ++ ' ' :: ("NULL".toList ++ ' ' :: ("THEN".toList ++
            ' ' :: (onNull.render.toList ++ ' ' :: ("ELSE".toList ++
              ' ' :: (otherwise.render.toList ++ ' ' :: "END".toList)))))))) := by
      simp only [Expr.render, String.toList_append, List.append_assoc]
      rfl
    rw [shape]
    have last := (Expr.written_render otherwise second _ (closed_blank _)).append
      (written_word "END" (by decide) rest closed).blank
    have middle := (Expr.written_render onNull first _ (closed_blank _)).append
      (Spells.word "ELSE" (by decide) last).blank
    have test := Spells.word "IS" (by decide) (Spells.word "NULL" (by decide)
      (Spells.word "THEN" (by decide) middle))
    exact .word "CASE" (by decide)
      (.word "WHEN" (by decide) ((Expr.written_render e condition _ (closed_blank _)).append test.blank))
  | .exists negated query, legible => fun rest closed => by
    have inside : Spells ("EXISTS".toList ++ ' ' :: (['('] ++ (query.render.toList ++ [')']))) _ rest :=
      .word "EXISTS" (by decide) ((spells_tight '(' "(" (by decide)).append
        ((Select.written_render query legible _ (closed_sign (by decide) _)).append
          (spells_tight ')' ")" (by decide))))
    cases negated with
    | false =>
      have shape : (Expr.exists false query).render.toList =
          "EXISTS".toList ++ ' ' :: (['('] ++ (query.render.toList ++ [')'])) := by
        simp only [Expr.render, String.toList_append, List.append_assoc]
        rfl
      rw [shape]
      exact inside
    | true =>
      have shape : (Expr.exists true query).render.toList =
          "NOT".toList ++ ' ' :: ("EXISTS".toList ++ ' ' :: (['('] ++ (query.render.toList ++ [')']))) := by
        simp only [Expr.render, String.toList_append, List.append_assoc]
        rfl
      rw [shape]
      exact .word "NOT" (by decide) inside

theorem Expr.written_renderAll {least : Nat} : (es : List Expr) → Expr.allLegible least es = true →
    List.Forall₂ Written (Expr.renderAll es) (Expr.tokensAll es)
  | [], _ => .nil
  | e :: rest, legible => by
    simp only [Expr.allLegible, Bool.and_eq_true] at legible
    obtain ⟨⟨-, own⟩, others⟩ := legible
    exact .cons (Expr.written_render e own) (Expr.written_renderAll rest others)

theorem Source.continues_rest : (sources : List Source) → Source.allLegible sources = true →
    ∀ rest, Closed rest → Continues (Source.renderRest sources).toList (Source.tokensRest sources) rest
  | [], _, _, closed => .none closed
  | .mk table qualifier outer on :: more, legible, rest, closed => by
    simp only [Source.allLegible, Bool.and_eq_true] at legible
    obtain ⟨⟨⟨first, second⟩, conditions⟩, others⟩ := legible
    have tail := Source.continues_rest more others rest closed
    cases outer with
    | false =>
      have shape : (Source.renderRest (.mk table qualifier false on :: more)).toList =
          ([','] ++ ' ' :: (table.toList ++ ' ' :: qualifier.toList)) ++ (Source.renderRest more).toList := by
        simp only [Source.renderRest, Bool.false_eq_true, if_false, String.toList_append, List.append_assoc,
          List.cons_append]
        rfl
      rw [shape]
      have named : Spells (table.toList ++ ' ' :: qualifier.toList) _
          ((Source.renderRest more).toList ++ rest) :=
        .word _ (isFreeName_bare first) (written_word _ (isFreeName_bare second) _ tail.closed)
      exact (Continues.of_spells (closed_sign (by decide) _)
        ((spells_tight ',' "," (by decide)).append named.blank)).append tail
    | true =>
      have shape : (Source.renderRest (.mk table qualifier true on :: more)).toList =
          (' ' :: ("LEFT".toList ++ ' ' :: ("OUTER".toList ++ ' ' :: ("JOIN".toList ++
            ' ' :: (table.toList ++ ' ' :: (qualifier.toList ++ ' ' :: ("ON".toList ++ ' ' :: (Expr.renderConditions on).toList))))))) ++
            (Source.renderRest more).toList := by
        simp only [Source.renderRest, if_true, String.toList_append, List.append_assoc, List.cons_append]
        rfl
      rw [shape]
      have joined : Spells ("ON".toList ++ ' ' :: (Expr.renderConditions on).toList) _
          ((Source.renderRest more).toList ++ rest) :=
        .word "ON" (by decide) (written_conditions (Expr.written_renderAll on conditions) _ tail.closed)
      have named := Spells.word "JOIN" (by decide)
        (.word _ (isFreeName_bare first) (.word _ (isFreeName_bare second) joined))
      have whole := Continues.of_spells (closed_blank _)
        ((Spells.word "LEFT" (by decide) (Spells.word "OUTER" (by decide) named)).blank)
      simpa [Source.tokensRest] using whole.append tail

theorem Source.continues_all : (sources : List Source) → Source.allLegible sources = true →
    sources.head?.all (!·.outer) = true → ∀ rest, Closed rest →
      Continues (Source.renderAll sources).toList (Source.tokensAll sources) rest
  | [], _, _, _, closed => .none closed
  | .mk table qualifier outer on :: more, legible, joined, rest, closed => by
    simp only [Source.allLegible, Bool.and_eq_true] at legible
    obtain ⟨⟨⟨first, second⟩, -⟩, others⟩ := legible
    have plain : outer = false := by simpa [Source.outer] using joined
    have tail := Source.continues_rest more others rest closed
    have shape : (Source.renderAll (.mk table qualifier outer on :: more)).toList =
        (' ' :: ("FROM".toList ++ ' ' :: (table.toList ++ ' ' :: qualifier.toList))) ++
          (Source.renderRest more).toList := by
      simp only [Source.renderAll, plain, Bool.false_eq_true, if_false, String.toList_append,
        List.append_assoc, List.cons_append]
      rfl
    rw [shape]
    have named := Spells.word "FROM" (by decide) (.word _ (isFreeName_bare first)
      (written_word _ (isFreeName_bare second) _ tail.closed))
    exact (Continues.of_spells (closed_blank _) named.blank).append tail

theorem Select.written_render : (s : Select) → s.isLegible = true → Written s.render s.tokens
  | .mk distinct projection sources conditions, legible => fun rest closed => by
    simp only [Select.isLegible, Bool.and_eq_true] at legible
    obtain ⟨⟨⟨shown, held⟩, read⟩, joined⟩ := legible
    have whether := continues_whether (Expr.written_renderAll conditions held) closed
    have tail := (Source.continues_all sources read joined _ whether.closed).append whether
    have listed : Written (if projection.isEmpty then "1" else ", ".intercalate (Expr.renderAll projection))
        (if projection.isEmpty then [.integer "1"] else Token.chain [sign ","]
        (Expr.tokensAll projection)) := by
      intro rest closed
      split
      · exact Token.spells_nat 1 closed
      · refine Spells.commas (Expr.written_renderAll projection shown) ?_ closed
        cases projection with
        | nil => contradiction
        | cons e es => exact List.cons_ne_nil _ _
    have columns := listed _ tail.closed
    have front := columns.optional "DISTINCT " "DISTINCT" distinct rfl (by decide)
    have whole := tail.after (front.word "SELECT" (by decide))
    have shape : (Select.mk distinct projection sources conditions).render.toList = "SELECT".toList ++
        ' ' :: ((if distinct then "DISTINCT " else "").toList ++ (if projection.isEmpty then "1"
          else ", ".intercalate (Expr.renderAll projection)).toList) ++
          ((Source.renderAll sources).toList ++
            (if conditions.isEmpty then "" else " WHERE " ++ Expr.renderConditions conditions).toList) := by
      simp only [Select.render, String.toList_append, List.append_assoc, List.cons_append]
      rfl
    rw [shape]
    simpa only [Select.tokens, List.append_assoc, List.cons_append] using whole

end

theorem Query.mem_checked {q : Query} {part : Syntax.Combination × Select}
    (inside : part ∈ q.parts) : part.2 ∈ q.checked := by
  rw [parts, List.mem_append, List.mem_map, List.mem_map] at inside
  rw [checked, List.mem_append, List.mem_reverse]
  rcases inside with ⟨s, own, rfl⟩ | ⟨s, own, rfl⟩
  · exact .inr (List.mem_of_mem_tail own)
  · exact .inl own

theorem Query.continues_arms {parts : List (Syntax.Combination × Select)}
    (each : ∀ part ∈ parts, Written part.2.render part.2.tokens) {rest : List Char} (closed : Closed rest) :
    Continues (parts.flatMap fun part => ' ' :: (part.1.symbol.toList ++ ' ' :: part.2.render.toList))
      (parts.flatMap fun part => part.1.tokens ++ part.2.tokens) rest := by
  induction parts with
  | nil => exact .none closed
  | cons part parts ih =>
    obtain ⟨how, s⟩ := part
    obtain ⟨own, others⟩ := List.forall_mem_cons.mp each
    have tail := ih others
    have arm := own _ tail.closed
    refine (Continues.of_spells (closed_blank _) (Spells.blank ?_)).append tail
    cases how with
    | union => exact arm.word "UNION" (by decide)
    | unionAll =>
      have shape (cs : List Char) : "UNION ALL".toList ++ ' ' :: cs =
          "UNION".toList ++ ' ' :: ("ALL".toList ++ ' ' :: cs) := rfl
      change Spells ("UNION ALL".toList ++ ' ' :: s.render.toList) _ _
      rw [shape]
      exact (arm.word "ALL" (by decide)).word "UNION" (by decide)
    | except => exact arm.word "EXCEPT" (by decide)

theorem toList_intercalate (between : String) (first : String) (texts : List String) :
    (between.intercalate (first :: texts)).toList =
      first.toList ++ texts.flatMap fun text => between.toList ++ text.toList := by
  induction texts generalizing first with
  | nil => simp
  | cons text texts ih =>
    rw [String.intercalate_cons_cons, String.toList_append, String.toList_append, ih, List.flatMap_cons]
    simp

theorem Query.written_render {q : Query} (legible : q.isLegible = true) : Written q.render q.tokens := by
  intro rest closed
  rw [isLegible, Bool.and_eq_true, Bool.not_eq_true', List.all_eq_true] at legible
  obtain ⟨some, each⟩ := legible
  have read (s : Select) (inside : s ∈ q.checked) : Written s.render s.tokens :=
    s.written_render (Bool.and_eq_true_iff.mp (each s inside)).1
  have arms (part : Syntax.Combination × Select) (inside : part ∈ q.parts) :=
    read part.2 (mem_checked inside)
  have tail := Query.continues_arms arms closed
  cases shape : q.selects with
  | nil =>
    rw [shape] at some
    cases some
  | cons first others =>
    have own := read first (by simp [checked, shape]) _ tail.closed
    have text : q.render.toList = first.render.toList ++ q.parts.flatMap fun part =>
        ' ' :: (part.1.symbol.toList ++ ' ' :: part.2.render.toList) := by
      have arms :
          (others.flatMap fun s => (if q.all then " UNION ALL " else " UNION ").toList ++ s.render.toList) =
          (others.map (q.combination, ·)).flatMap fun part =>
            ' ' :: (part.1.symbol.toList ++ ' ' :: part.2.render.toList) := by
        have between : (if q.all then " UNION ALL " else " UNION ").toList =
            ' ' :: (q.combination.symbol.toList ++ [' ']) := by
          rw [combination]
          cases q.all <;> rfl
        simp [List.flatMap_map, between]
      rw [render, parts, shape, List.map_cons, String.toList_append, toList_intercalate, List.flatMap_map,
        arms, List.append_assoc, List.tail_cons, List.flatMap_append]
      cases q.except with
      | none => simp
      | some s => simp [Syntax.Combination.symbol]
    have tokens_ : q.tokens = first.tokens ++ q.parts.flatMap fun part => part.1.tokens ++ part.2.tokens := by
      simp [tokens, shape]
    rw [text, tokens_]
    exact tail.after own

namespace Statement

theorem forall₂_map {α : Type} {items : List α} {text : α → String} {part : α → List Token}
    (each : ∀ item ∈ items, Written (text item) (part item)) :
    List.Forall₂ Written (items.map text) (items.map part) := by
  induction items with
  | nil => exact .nil
  | cons item items ih =>
    obtain ⟨own, others⟩ := List.forall_mem_cons.mp each
    exact .cons own (ih others)

theorem freeNames_each {names : List String} (free : freeNames names = true) :
    names ≠ [] ∧ ∀ name ∈ names, isFreeName name = true := by
  rw [freeNames, Bool.and_eq_true, Bool.not_eq_true', List.all_eq_true] at free
  exact ⟨fun none => absurd free.1 (by rw [none]; decide), free.2⟩

theorem written_names {names : List String} (free : freeNames names = true) :
    Written (", ".intercalate names) (nameTokens names) := by
  intro rest closed
  obtain ⟨some, each⟩ := freeNames_each free
  have all := @forall₂_map String names id (fun name => [word name]) fun name inside =>
    written_word name (isFreeName_bare (each name inside))
  rw [List.map_id] at all
  exact Spells.commas all some closed

-- What stands in parentheses behind a name.
theorem spells_listed {name text : String} {ts us : List Token} {cs rest : List Char}
    (free : isFreeName name = true)
    (inner : Written text ts) (later : Spells cs us rest) :
    Spells (name.toList ++ ' ' :: (['('] ++ (text.toList ++ ([')'] ++ ' ' :: cs))))
      (word name :: sign "(" :: (ts ++ sign ")" :: us)) rest :=
  Spells.word name (isFreeName_bare free) ((spells_tight '(' "(" (by decide)).append
    ((inner _ (closed_sign (by decide) _)).append ((spells_tight ')' ")" (by decide)).append later.blank)))

section Render

variable {name table : String} {columns : List String}

theorem render_createTable {columns : List (String × ColumnType)} : (createTable name columns).render =
    "CREATE TABLE IF NOT EXISTS " ++ name ++ " (" ++
      ", ".intercalate (columns.map fun (column, type) => column ++ " " ++ type.sqlName) ++ ")" := rfl

theorem render_createView {query : Query} : (createView name columns query).render =
    "CREATE VIEW IF NOT EXISTS " ++ name ++ " (" ++ ", ".intercalate columns ++ ") AS " ++ query.render :=
    rfl

theorem render_insertValues {es : List Expr} : (insert table columns (.values es)).render =
    "INSERT INTO " ++ table ++ " (" ++ ", ".intercalate columns ++ ") " ++
      ("VALUES (" ++ ", ".intercalate (Expr.renderAll es) ++ ")") := rfl

theorem render_insertQuery {q : Query} : (insert table columns (.query q)).render =
    "INSERT INTO " ++ table ++ " (" ++ ", ".intercalate columns ++ ") " ++ q.render := rfl

theorem render_delete {conditions : List Expr} : (delete table conditions).render = "DELETE FROM " ++ table ++
    (if conditions.isEmpty then "" else " WHERE " ++ Expr.renderConditions conditions) := rfl

end Render

theorem written_createTable {name : String} {columns : List (String × ColumnType)}
    (legible : (createTable name columns).isLegible = true) :
    Written (createTable name columns).render (createTable name columns).tokens := by
  intro rest closed
  simp only [isLegible, Bool.and_eq_true] at legible
  obtain ⟨⟨⟨free, -⟩, named⟩, -⟩ := legible
  obtain ⟨some, each⟩ := freeNames_each named
  have listed : Written (", ".intercalate (columns.map fun (column, type) => column ++ " " ++ type.sqlName))
      (Token.chain [sign ","] (columns.map fun column => [word column.1, word column.2.sqlName])) := by
    intro rest closed
    refine Spells.commas (forall₂_map fun column inside => ?_) (fun none => some ?_) closed
    · intro rest closed
      have bare := isFreeName_bare (each column.1 (List.mem_map_of_mem inside))
      have shape : (column.1 ++ " " ++ column.2.sqlName).toList =
          column.1.toList ++ ' ' :: column.2.sqlName.toList := by
        simp only [String.toList_append, List.append_assoc]
        rfl
      change Spells (column.1 ++ " " ++ column.2.sqlName).toList _ rest
      rw [shape]
      exact (written_type column.2 rest closed).word column.1 bare
    · rw [List.map_eq_nil_iff] at none ⊢
      exact none
  have inner := (listed _ (closed_sign (by decide) rest)).append (spells_tight ')' ")" (by decide))
  have whole := Spells.word name (isFreeName_bare free) ((spells_tight '(' "(" (by decide)).append inner)
  have shape : (createTable name columns).render.toList = "CREATE".toList ++ ' ' :: ("TABLE".toList ++
      ' ' :: ("IF".toList ++ ' ' :: ("NOT".toList ++ ' ' :: ("EXISTS".toList ++ ' ' :: (name.toList ++
        ' ' :: (['('] ++ ((", ".intercalate (columns.map fun (column, type) =>
          column ++ " " ++ type.sqlName)).toList ++ [')']))))))) := by
    rw [render_createTable]
    simp only [String.toList_append, List.append_assoc]
    rfl
  rw [shape]
  exact ((((whole.word "EXISTS" (by decide)).word "NOT" (by decide)).word "IF" (by decide)).word "TABLE"
    (by decide)).word "CREATE" (by decide)

theorem written_createView {name : String} {columns : List String} {query : Query}
    (legible : (createView name columns query).isLegible = true) :
    Written (createView name columns query).render (createView name columns query).tokens := by
  intro rest closed
  simp only [isLegible, Bool.and_eq_true] at legible
  obtain ⟨⟨free, named⟩, read⟩ := legible
  have whole := spells_listed free (written_names named)
    ((Query.written_render read rest closed).word "AS" (by decide))
  have shape : (createView name columns query).render.toList = "CREATE".toList ++ ' ' :: ("VIEW".toList ++
      ' ' :: ("IF".toList ++ ' ' :: ("NOT".toList ++ ' ' :: ("EXISTS".toList ++ ' ' :: (name.toList ++
        ' ' :: (['('] ++ ((", ".intercalate columns).toList ++ ([')'] ++ ' ' :: ("AS".toList ++
          ' ' :: query.render.toList))))))))) := by
    rw [render_createView]
    simp only [String.toList_append, List.append_assoc]
    rfl
  rw [shape]
  exact ((((whole.word "EXISTS" (by decide)).word "NOT" (by decide)).word "IF" (by decide)).word "VIEW"
    (by decide)).word "CREATE" (by decide)

theorem written_insert {table : String} {columns : List String} {source : InsertSource}
    (legible : (insert table columns source).isLegible = true) :
    Written (insert table columns source).render (insert table columns source).tokens := by
  intro rest closed
  simp only [isLegible, Bool.and_eq_true] at legible
  obtain ⟨⟨free, named⟩, read⟩ := legible
  cases source with
  | values es =>
    simp only [InsertSource.isLegible, Bool.and_eq_true, Bool.not_eq_true'] at read
    obtain ⟨⟨some, all⟩, -⟩ := read
    have items : Expr.renderAll es ≠ [] := by
      cases es with
      | nil => cases some
      | cons e es => exact List.cons_ne_nil _ _
    have values_ := Spells.word "VALUES" (by decide) ((spells_tight '(' "(" (by decide)).append
      ((Spells.commas (Expr.written_renderAll es all) items (closed_sign (by decide) rest)).append
        (spells_tight ')' ")" (by decide))))
    have whole := spells_listed free (written_names named) values_
    have shape : (insert table columns (.values es)).render.toList = "INSERT".toList ++ ' ' :: ("INTO".toList ++
        ' ' :: (table.toList ++ ' ' :: (['('] ++ ((", ".intercalate columns).toList ++ ([')'] ++
          ' ' :: ("VALUES".toList ++ ' ' :: (['('] ++ ((", ".intercalate (Expr.renderAll es)).toList ++ [')'])))))))) := by
      rw [render_insertValues]
      simp only [String.toList_append, List.append_assoc]
      rfl
    rw [shape]
    exact (whole.word "INTO" (by decide)).word "INSERT" (by decide)
  | query q =>
    have whole := spells_listed free (written_names named) (Query.written_render read rest closed)
    have shape : (insert table columns (.query q)).render.toList = "INSERT".toList ++ ' ' :: ("INTO".toList ++
        ' ' :: (table.toList ++ ' ' :: (['('] ++ ((", ".intercalate columns).toList ++ ([')'] ++ ' ' ::
          q.render.toList))))) := by
      rw [render_insertQuery]
      simp only [String.toList_append, List.append_assoc]
      rfl
    rw [shape]
    exact (whole.word "INTO" (by decide)).word "INSERT" (by decide)

theorem written_delete {table : String} {conditions : List Expr}
    (legible : (delete table conditions).isLegible = true) :
    Written (delete table conditions).render (delete table conditions).tokens := by
  intro rest closed
  simp only [isLegible, Bool.and_eq_true] at legible
  obtain ⟨⟨free, all⟩, -⟩ := legible
  have whether := continues_whether (Expr.written_renderAll conditions all) closed
  have named := written_word table (isFreeName_bare free) _ whether.closed
  have whole := whether.after ((named.word "FROM" (by decide)).word "DELETE" (by decide))
  have shape : (delete table conditions).render.toList = "DELETE".toList ++ ' ' :: ("FROM".toList ++
      ' ' :: table.toList) ++ (if conditions.isEmpty then "" else " WHERE " ++
        Expr.renderConditions conditions).toList := by
    rw [render_delete]
    simp only [String.toList_append, List.append_assoc, List.cons_append]
    rfl
  rw [shape]
  simpa only [tokens, List.cons_append, List.nil_append] using whole

theorem written_render {s : Statement} (legible : s.isLegible = true) : Written s.render s.tokens := by
  cases s with
  | createTable name columns => exact written_createTable legible
  | createView name columns query => exact written_createView legible
  | insert table columns source => exact written_insert legible
  | delete table conditions => exact written_delete legible

end Statement

end PeerExchange.Sql
