import PeerExchange.Proofs.StatedTuples
import PeerExchange.Proofs.WrittenTerms
import PeerExchange.Sql.Printer
import PeerExchange.Sql.Token
import PeerExchange.Sql.Value

namespace PeerExchange.Sql

variable {c quote : Char} {cs ds raw value rest : List Char} {depth : Nat} {item : List Char}

namespace Token

theorem length_quoted (read : quoted quote cs = some (raw, value, rest)) : rest.length < cs.length := by
  fun_induction quoted quote cs generalizing raw value rest with
  | case1 => cases read
  | case2 more ih =>
    obtain ⟨parts, inner, same⟩ := Option.map_eq_some_iff.mp read
    cases same
    exact Nat.lt_succ_of_lt (Nat.lt_succ_of_lt (ih inner))
  | case3 d more other =>
    cases read
    exact Nat.lt_succ_self _
  | case4 =>
    cases read
    exact Nat.lt_succ_self _
  | case5 c rest other ih =>
    obtain ⟨parts, inner, same⟩ := Option.map_eq_some_iff.mp read
    cases same
    exact Nat.lt_succ_of_lt (ih inner)

end Token

namespace ValueList

def cut (depth : Nat) (item : List Char) (cs : List Char) : Option (List (List Char) × List Char) :=
  match cs with
  | [] => none
  | c :: rest =>
    if c = '\'' then
      match _read : Token.quoted c rest with
      | some (raw, _, rest) => cut depth (item ++ c :: raw) rest
      | none => none
    else if c = '(' then cut (depth + 1) (item ++ [c]) rest
    else if c = ')' then
      match depth with
      | 0 => some ([item], rest)
      | depth + 1 => cut depth (item ++ [c]) rest
    else if c = ',' && depth = 0 then
      (cut 0 [] rest).map fun (items, rest) => (item :: items, rest)
    else cut depth (item ++ [c]) rest
termination_by cs.length
decreasing_by
  · exact Nat.lt_succ_of_lt (Token.length_quoted _read)
  all_goals exact Nat.lt_succ_self _

def items? : List Char → Option (List (List Char) × List Char)
  | ')' :: rest => some ([], rest)
  | cs => cut 0 [] cs

def number? (negative : Bool) (digits : List Char) : Option Int :=
  if digits.isEmpty || !digits.all Char.isDigit then none
  else some (Grammar.IntegerText.value ⟨negative, digits⟩)

def integer? : List Char → Option Int
  | '-' :: digits => number? true digits
  | digits => number? false digits

def nulls : List String := ["NULL", "CAST(NULL AS INTEGER)", "CAST(NULL AS TEXT)"]

def constant? : List Char → Option Value
  | '\'' :: rest =>
    match Token.quoted '\'' rest with
    | some (_, value, []) => some (.text (String.ofList value))
    | _ => none
  | cs => if nulls.contains (String.ofList cs) then some .null else (integer? cs).map .integer

-- The value of an item, which may have blanks before it.
def value? (item : List Char) : Option Value := constant? (item.dropWhile (· = ' '))

section Steps

theorem cut_literal (read : Token.quoted '\'' cs = some (raw, value, rest)) :
    cut depth item ('\'' :: cs) = cut depth (item ++ '\'' :: raw) rest := by
  refine (cut.eq_def ..).trans ?_
  dsimp only
  rw [if_pos rfl]
  split
  · rename_i same
    cases read.symm.trans same
    rfl
  · rename_i none
    cases read.symm.trans none

theorem cut_open : cut depth item ('(' :: rest) = cut (depth + 1) (item ++ ['(']) rest := cut.eq_def ..

theorem cut_inner : cut (depth + 1) item (')' :: rest) = cut depth (item ++ [')']) rest := cut.eq_def ..

theorem cut_close : cut 0 item (')' :: rest) = some ([item], rest) := cut.eq_def ..

theorem cut_comma : cut 0 item (',' :: rest) =
    (cut 0 [] rest).map fun (items, rest) => (item :: items, rest) := cut.eq_def ..

def isPlain (c : Char) : Bool := c ≠ '\'' && c ≠ '(' && c ≠ ')' && c ≠ ','

theorem cut_plain (plain : cs.all isPlain = true) :
    cut depth item (cs ++ rest) = cut depth (item ++ cs) rest := by
  induction cs generalizing item with
  | nil => rw [List.nil_append, List.append_nil]
  | cons c cs ih =>
    rw [List.all_cons, Bool.and_eq_true] at plain
    obtain ⟨first, later⟩ := plain
    simp only [isPlain, Bool.and_eq_true, decide_eq_true_eq] at first
    obtain ⟨⟨⟨literal, opening⟩, closing⟩, comma⟩ := first
    have here : cut depth item (c :: (cs ++ rest)) = cut depth (item ++ [c]) (cs ++ rest) := by
      rw [cut.eq_def]
      simp only [if_neg literal, if_neg opening, if_neg closing, decide_eq_false comma,
        Bool.false_and, Bool.false_eq_true, if_false]
    rw [List.cons_append, here, ih later, List.append_assoc, List.singleton_append]

end Steps

def doubled (cs : List Char) : List Char := cs.flatMap fun c => if c = '\'' then ['\'', '\''] else [c]

theorem toList_quoteText (s : String) : (quoteText s).toList = '\'' :: (doubled s.toList ++ ['\'']) := by
  rw [quoteText, String.toList_ofList]
  rfl

theorem quoted_doubled (ends : rest.head? ≠ some '\'') :
    Token.quoted '\'' (doubled cs ++ '\'' :: rest) = some (doubled cs ++ ['\''], cs, rest) := by
  induction cs with
  | nil =>
    cases rest with
    | nil => rfl
    | cons c rest =>
      have other : c ≠ '\'' := fun same => ends (congrArg some same)
      simp [doubled, Token.quoted, other]
  | cons c cs ih =>
    simp only [doubled, List.flatMap_cons, List.append_assoc] at ih ⊢
    by_cases same : c = '\''
    · simp [same, Token.quoted, ih]
    · rw [if_neg same, List.singleton_append, List.cons_append]
      unfold Token.quoted
      rw [if_neg same, ih]
      rfl

end ValueList

def Expr.constant? : Expr → Option Value
  | .text s => some (.text s)
  | .integer n => some (.integer n)
  | .null | .typedNull _ => some .null
  | _ => none

namespace ValueList

section Constants

variable {e : Expr} {v : Value}

def IsWhole (cs : List Char) : Prop := ∀ (depth : Nat) (item rest : List Char),
  rest.head? ≠ some '\'' → cut depth item (cs ++ rest) = cut depth (item ++ cs) rest

theorem isWhole_plain (plain : cs.all isPlain = true) : IsWhole cs := fun _ _ _ _ => cut_plain plain

theorem plain_integer (n : Int) : (toString n).toList.all isPlain = true := by
  have digits : ∀ c ∈ Nat.toDigits 10 n.natAbs, isPlain c = true := by
    intro c inside
    have digit := isDigit_toDigits n.natAbs c inside
    have apart {d : Char} (other : d.isDigit = false) : c ≠ d := by
      rintro rfl
      exact nomatch digit.symm.trans other
    simp [isPlain, apart (d := '\'') rfl, apart (d := '(') rfl, apart (d := ')') rfl, apart (d := ',') rfl]
  rw [toList_integer, List.all_append, List.all_eq_true.mpr digits, Bool.and_true]
  split <;> rfl

theorem toList_typedNull (type : ColumnType) : (Expr.typedNull type).render.toList =
    "CAST".toList ++ '(' :: (("NULL AS " ++ type.sqlName).toList ++ [')']) := by
  cases type <;> rfl

theorem isWhole_render (constant : e.constant? = some v) : IsWhole e.render.toList := by
  cases e with
  | text s =>
    intro depth item rest ends
    change cut depth item ((quoteText s).toList ++ rest) = cut depth (item ++ (quoteText s).toList) rest
    rw [toList_quoteText, List.cons_append, List.append_assoc, List.singleton_append,
      cut_literal (quoted_doubled ends)]
  | integer n => exact isWhole_plain (plain_integer n)
  | null => exact isWhole_plain rfl
  | typedNull type =>
    intro depth item rest _
    have plain : ("NULL AS " ++ type.sqlName).toList.all isPlain = true := by cases type <;> rfl
    rw [toList_typedNull, List.append_assoc, cut_plain rfl, List.cons_append, cut_open,
      List.append_assoc (_ : List Char) [')'], cut_plain plain, List.singleton_append, cut_inner]
    simp only [List.append_assoc, List.cons_append, List.nil_append]
  | _ => cases constant

theorem head_render (constant : e.constant? = some v) :
    ∃ c rest, e.render.toList = c :: rest ∧ c ≠ ' ' ∧ c ≠ ')' := by
  cases e with
  | text s => exact ⟨'\'', _, toList_quoteText s, by decide⟩
  | integer n =>
    obtain ⟨c, rest, shape, kind⟩ := head_integer n
    refine ⟨c, rest, shape, ?_, ?_⟩ <;> rintro rfl <;> rcases kind with kind | kind <;> cases kind
  | null => exact ⟨'N', "ULL".toList, rfl, by decide⟩
  | typedNull type => exact ⟨'C', _, toList_typedNull type, by decide⟩
  | _ => cases constant

theorem integer?_toString (n : Int) : integer? (toString n).toList = some n := by
  have read (negative : Bool) (sign : decide (n < 0) = negative) :
      number? negative (Nat.toDigits 10 n.natAbs) = some n := by
    obtain ⟨first, rest, shape, -⟩ := head_toDigits n.natAbs
    have digits : (Nat.toDigits 10 n.natAbs).all Char.isDigit = true :=
      List.all_eq_true.mpr (isDigit_toDigits _)
    have some_ : (Nat.toDigits 10 n.natAbs).isEmpty = false := by rw [shape]; rfl
    rw [number?, digits, some_, ← sign, Grammar.value_toDigits]
    rfl
  rw [toList_integer]
  by_cases sign : n < 0
  · rw [if_pos sign]
    exact read true (decide_eq_true sign)
  · rw [if_neg sign, List.nil_append]
    have plain := read false (decide_eq_false sign)
    unfold integer?
    split
    · rename_i digits same
      have digit := isDigit_toDigits n.natAbs '-' (same ▸ List.mem_cons_self)
      cases digit
    · exact plain

theorem constant?_integer (n : Int) : constant? (toString n).toList = some (.integer n) := by
  obtain ⟨c, rest, shape, kind⟩ := head_integer n
  have apart {d : Char} (minus : d ≠ '-') (other : d.isDigit = false) : c ≠ d := by
    rintro rfl
    rcases kind with rfl | digit
    · exact minus rfl
    · exact nomatch digit.symm.trans other
  have named : nulls.contains (toString n) = false := by
    have begins : ∀ s ∈ nulls, s.toList.head? = some 'N' ∨ s.toList.head? = some 'C' := by decide
    refine Bool.eq_false_iff.mpr fun inside => ?_
    rcases begins _ (List.contains_iff_mem.mp inside) with head | head <;>
      rw [shape] at head <;> exact apart (by decide) rfl (Option.some.inj head)
  unfold constant?
  split
  · rename_i same
    exact absurd (List.cons.inj (shape.symm.trans same)).1 (apart (by decide) rfl)
  · rw [String.ofList_toList, named, if_neg Bool.false_ne_true, integer?_toString]
    rfl

theorem constant?_render (constant : e.constant? = some v) :
    constant? e.render.toList = some v := by
  cases e with
  | text s =>
    cases constant
    have read : Token.quoted '\'' (doubled s.toList ++ ['\'']) =
        some (doubled s.toList ++ ['\''], s.toList, []) := quoted_doubled nofun
    change constant? (quoteText s).toList = _
    rw [toList_quoteText, constant?, read]
    exact congrArg (some ∘ Value.text) String.ofList_toList
  | integer n =>
    cases constant
    exact constant?_integer n
  | null =>
    cases constant
    decide
  | typedNull type =>
    cases constant
    cases type <;> decide
  | _ => cases constant

theorem value?_render (constant : e.constant? = some v) (blanks : Nat) :
    value? (List.replicate blanks ' ' ++ e.render.toList) = some v := by
  obtain ⟨c, rest, shape, solid, -⟩ := head_render constant
  have start : (List.replicate blanks ' ' ++ e.render.toList).dropWhile (· = ' ') = e.render.toList := by
    rw [List.dropWhile_append_of_pos (by simp), shape, List.dropWhile_cons_of_neg (by simpa using solid)]
  rw [value?, start, constant?_render constant]

end Constants

section Lists

variable {es : List Expr}

theorem toList_intercalate (first : String) (later : List String) :
    (", ".intercalate (first :: later)).toList =
      first.toList ++ later.flatMap fun s => ',' :: ' ' :: s.toList := by
  induction later generalizing first with
  | nil => rw [String.intercalate_singleton, List.flatMap_nil, List.append_nil]
  | cons second later ih =>
    rw [String.intercalate_cons_cons, String.toList_append, String.toList_append, ih, List.flatMap_cons,
      List.append_assoc]
    rfl

theorem cut_list {first : List Char} {later : List (List Char)} (whole : IsWhole first)
    (others : ∀ cs ∈ later, IsWhole cs) :
    cut 0 item (first ++ (later.flatMap fun cs => ',' :: ' ' :: cs) ++ ')' :: rest) =
      some ((item ++ first) :: later.map (' ' :: ·), rest) := by
  induction later generalizing first item with
  | nil =>
    have ends : (')' :: rest).head? ≠ some '\'' := by simp
    rw [List.flatMap_nil, List.append_nil, whole 0 item _ ends, cut_close]
    rfl
  | cons second later ih =>
    obtain ⟨next, others⟩ := List.forall_mem_cons.mp others
    have blank (cs : List Char) : cut 0 [] ([' '] ++ cs) = cut 0 [' '] cs := cut_plain rfl
    have ends (cs : List Char) : (',' :: cs).head? ≠ some '\'' := by simp
    rw [List.flatMap_cons, List.append_assoc, List.cons_append, List.cons_append, List.cons_append,
      whole 0 item _ (ends _), cut_comma, List.cons_append, ← List.singleton_append, blank, ih next others]
    rfl

theorem items?_cons (inside : c ≠ ')') : items? (c :: cs) = cut 0 [] (c :: cs) := by
  unfold items?
  split
  · rename_i same
    cases same
    exact absurd rfl inside
  · rfl

theorem items?_render (rest : List Char) (constants : ∀ e ∈ es, ∃ v, e.constant? = some v) :
    ∃ items, items? ((", ".intercalate (es.map Expr.render)).toList ++ ')' :: rest) =
      some (items, rest) ∧ items.map value? = es.map Expr.constant? := by
  cases es with
  | nil => exact ⟨[], rfl, rfl⟩
  | cons e es =>
    obtain ⟨⟨v, constant⟩, constants⟩ := List.forall_mem_cons.mp constants
    refine ⟨e.render.toList :: es.map (' ' :: ·.render.toList), ?_, ?_⟩
    · obtain ⟨c, behind, shape, -, solid⟩ := head_render constant
      have later : ∀ cs ∈ es.map (·.render.toList), IsWhole cs := by
        intro cs inside
        obtain ⟨e, among, rfl⟩ := List.mem_map.mp inside
        obtain ⟨v, constant⟩ := constants e among
        exact isWhole_render constant
      have cuts : cut 0 [] (_ ++ ')' :: rest) = _ := cut_list (isWhole_render constant) later
      rw [List.flatMap_map, List.map_map, List.nil_append] at cuts
      rw [List.map_cons, toList_intercalate, List.flatMap_map]
      rw [shape, List.cons_append, List.cons_append] at cuts ⊢
      exact (items?_cons solid).trans cuts
    · have later : es.map (fun e => value? (' ' :: e.render.toList)) = es.map Expr.constant? := by
        refine List.map_congr_left fun e inside => ?_
        obtain ⟨v, constant⟩ := constants e inside
        exact (value?_render constant 1).trans constant.symm
      rw [List.map_cons, List.map_cons, List.map_map, constant]
      exact congrArg₂ List.cons (value?_render constant 0) later

end Lists

end ValueList

theorem Statement.render_values (table : String) (columns : List String) (es : List Expr) :
    (Statement.insert table columns (.values es)).render =
      "INSERT INTO " ++ table ++ " (" ++ ", ".intercalate columns ++ ") VALUES (" ++
        (", ".intercalate (es.map Expr.render) ++ ")") := by
  have opening : ") VALUES (" = ") " ++ "VALUES (" := rfl
  unfold Statement.render
  dsimp only
  rw [Expr.renderAll_eq_map, opening]
  simp only [String.append_assoc]

end PeerExchange.Sql

namespace PeerExchange

open Sql (Expr)
open Sql.ValueList (items? value? items?_render)

def Literal.shown : Literal → Sql.Value
  | string s | labeledNull s => .text s
  | integer n => .integer n
  | null => .null

namespace Relation

variable {r : Relation} {kind : TableKind} {tuple : List Literal}

def shownPlace (r : Relation) (place : Literal × Column) : List Sql.Value :=
  place.1.shown :: if (r.markerOf? place.2).isSome then [.integer place.1.marker] else []

-- The row of a table that shows a tuple, in the first stratum.
def shownRow (r : Relation) (kind : TableKind) (tuple : List Literal) : Sql.Row :=
  (tuple.zip r.columns).flatMap r.shownPlace ++ if r.hasStratum kind then [.integer 0] else []

theorem length_shownPlace (place : Literal × Column) : (r.shownPlace place).length =
    ((place.2.name, place.2.type) ::
      ((r.markerOf? place.2).map (·, ColumnType.integer)).toList).length := by
  rw [shownPlace]
  cases r.markerOf? place.2 <;> rfl

theorem length_shownRow (arity : tuple.length = r.arity) :
    (r.shownRow kind tuple).length = (r.physicalColumns kind).length := by
  have columns : (tuple.zip r.columns).map Prod.snd = r.columns := List.map_snd_zip (Nat.le_of_eq arity.symm)
  rw [shownRow, physicalColumns, List.length_append, List.length_append]
  refine congrArg₂ (· + ·) ?_ (by split <;> rfl)
  conv_rhs => rw [← columns]
  rw [List.flatMap_map, List.length_flatMap, List.length_flatMap]
  exact congrArg List.sum (List.map_congr_left fun place _ => length_shownPlace place)

theorem constant?_statedPlace (place : Literal × Column) :
    (r.statedPlace place).map Expr.constant? = (r.shownPlace place).map some := by
  rw [statedPlace, shownPlace]
  cases place.1 <;> cases r.markerOf? place.2 <;> rfl

theorem constant?_statedExprs : (r.statedExprs kind tuple).map Expr.constant? =
    (r.shownRow kind tuple).map some := by
  rw [statedExprs, shownRow, List.map_append, List.map_append, List.map_flatMap, List.map_flatMap]
  refine congrArg₂ (· ++ ·) ?_ (by split <;> rfl)
  exact congrArg List.flatten (List.map_congr_left fun place _ => constant?_statedPlace place)

end Relation

namespace Engine

-- The statement of an accepted tuple ends in a list of values. Whatever the tuple's texts say, the
-- list has one item for each column of the table, these show the tuple, and nothing stands behind it.
theorem stated_values_exact {c : Compilation} {r : Relation} {id : String} {kind : TableKind}
    {tuple : List Literal} {rule : Rule} (found : c.catalog.relations.get? r.name = some r)
    (stated : fact c r id kind tuple = .ok rule) (iteration : Iteration) :
    ∃ statement list items, c.lower iteration rule = .ok [statement] ∧
      statement.render = "INSERT INTO " ++ r.tableName kind ++ " (" ++
        ", ".intercalate (Lowering.columnNames r kind) ++ ") VALUES (" ++ list ∧
      items? list.toList = some (items, []) ∧ items.length = (r.physicalColumns kind).length ∧
      items.map value? = (r.shownRow kind tuple).map some := by
  obtain ⟨⟨row, imported⟩, -, rfl⟩ := (fact_ok found).mp stated
  obtain ⟨arity, -⟩ := importedRow_ok.mp imported
  have constants : ∀ e ∈ r.statedExprs kind tuple, ∃ v, e.constant? = some v := by
    intro e inside
    have shown := List.mem_map_of_mem (f := Expr.constant?) inside
    rw [Relation.constant?_statedExprs] at shown
    obtain ⟨v, -, same⟩ := List.mem_map.mp shown
    exact ⟨v, same.symm⟩
  obtain ⟨items, read, values⟩ := items?_render [] constants
  rw [Relation.constant?_statedExprs] at values
  refine ⟨_, _, items, Lowering.lower_statement found arity, Sql.Statement.render_values .., ?_, ?_, values⟩
  · rw [String.toList_append]
    exact read
  · have count := congrArg List.length values
    rw [List.length_map, List.length_map, Relation.length_shownRow arity] at count
    exact count

section Quotes

-- A relation in a recursive stratum, and a tuple whose texts would end a list that were not quoted.
def quotedRelation : Relation :=
  { name := "R", labeledNulls := true, stratified := true, columns := [⟨"a", .text, true⟩,
      ⟨"b", .integer, false⟩, ⟨"c", .text, false⟩, ⟨"d", .text, true⟩, ⟨"e", .integer, true⟩] }

def quotedTuple : List Literal :=
  [.string "', 1); DELETE FROM R; --", .integer (-7), .string "''(,", .labeledNull "m('x')", .null]

def quotedCatalog : Catalog where
  peers := [⟨"A", ["R"]⟩]
  relations := .ofList [("R", quotedRelation)]

def quotedStart : Compilation := { declared := quotedCatalog, catalog := quotedCatalog, config := {} }

theorem stated_values_exact_quotes : ∃ statement list items,
    quotedStart.lower (.literal 0) (quotedRelation.statement "insert" .insertion quotedTuple) =
      .ok [statement] ∧
    statement.render = "INSERT INTO R_INS (a, a_LN, b, c, d, d_LN, e, e_LN, STRATUM) VALUES (" ++ list ∧
    items? list.toList = some (items, []) ∧ items.length = 9 ∧
    items.map value? = [some (.text "', 1); DELETE FROM R; --"), some (.integer 1), some (.integer (-7)),
      some (.text "''(,"), some (.text "m('x')"), some (.integer 2), some .null, some (.integer 0),
      some (.integer 0)] := by
  have found : quotedStart.catalog.relations.get? quotedRelation.name = some quotedRelation := by cbv
  have stated : fact quotedStart quotedRelation "insert" .insertion quotedTuple =
      .ok (quotedRelation.statement "insert" .insertion quotedTuple) := by cbv
  exact stated_values_exact found stated (.literal 0)

end Quotes

end Engine

end PeerExchange
