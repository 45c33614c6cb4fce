import PeerExchange.Grammar.Catalog
import PeerExchange.Proofs.WrittenTerms

namespace PeerExchange

open Grammar

inductive Atom.IsWritten : Atom → Prop
  | relation {name : String} {args : List Term} (word : IsName name)
      (terms : ∀ t ∈ args, t.IsWritten) : (Atom.ofRelation name args).IsWritten

inductive Atom.IsItem : Atom → Prop
  | positive {a : Atom} (written : a.IsWritten) : a.IsItem
  | negated {a : Atom} (written : a.IsWritten) : a.negate.IsItem
  | comparison {op : Builtin} {left right : Term} (relates : op.isFunction = false)
      (first : left.IsWritten) (second : right.IsWritten) :
      (Atom.ofBuiltin op [left, right]).IsItem
  | call {op : Builtin} {output left right : Term} (calls : op.isFunction = true)
      (result : output.IsWritten) (first : left.IsWritten) (second : right.IsWritten) :
      (Atom.ofBuiltin op [output, left, right]).IsItem

-- A mapping as the grammar has it.
structure Rule.IsMapping (r : Rule) : Prop where
  name : IsName r.id
  derives : r.head ≠ []
  heads : ∀ a ∈ r.head, a.IsWritten
  reads : r.body ≠ []
  items : ∀ a ∈ r.body, a.IsItem
  plain : r = Rule.ofHeads r.id r.head r.body

section Pieces

def termPieces (args : List Term) : List String := separated (fun t => [t.render]) args

-- The tokens that an atom shows, with the blanks that it shows between them.
def Atom.pieces (a : Atom) : List String :=
  (if a.negated then ["not", " "] else []) ++ (if a.optional then ["optional", " "] else []) ++
    match a.predicate with
    | .relation name => (name ++ a.kind.suffix) :: "(" :: termPieces a.args ++ [")"]
    | .builtin op =>
      match op.isFunction, a.args with
      | true, output :: rest =>
        output.render :: " " :: "=" :: " " :: op.symbol :: "(" :: termPieces rest ++ [")"]
      | _, [left, right] => [left.render, " ", op.symbol, " ", right.render]
      | _, args => op.symbol :: "(" :: termPieces args ++ [")"]

def Rule.pieces (r : Rule) : List String :=
  r.id :: ":" :: " " :: separated Atom.pieces r.head ++
    (if r.body.isEmpty then [] else " " :: ":-" :: " " :: separated Atom.pieces r.body) ++ ["."]

theorem join_separated {α : Type} (each : α → List String) (render : α → String)
    (shown : ∀ a, String.join (each a) = render a) (as : List α) :
    String.join (separated each as) = ", ".intercalate (as.map render) := by
  cases as with
  | nil => rfl
  | cons a rest =>
    rw [separated, String.join_append, shown, List.map_cons]
    induction rest generalizing a with
    | nil => exact String.append_empty
    | cons b rest ih =>
      have blank : ", " = "," ++ " " := rfl
      rw [List.map_cons, String.intercalate_cons_cons, ← ih b, List.flatMap_cons, String.join_append,
        String.join_cons, String.join_cons, shown, blank]
      simp only [String.append_assoc]

theorem join_termPieces (args : List Term) : String.join (termPieces args) = Atom.renderArgs args :=
  join_separated _ Term.render
    (fun t => by rw [String.join_cons, String.join_nil, String.append_empty]) args

theorem Atom.join_pieces (a : Atom) : String.join a.pieces = a.render := by
  obtain ⟨predicate, kind, args, negated, optional⟩ := a
  have negation : String.join (if negated then ["not", " "] else []) =
      if negated then "not " else "" := by
    cases negated <;> rfl
  have option : String.join (if optional then ["optional", " "] else []) =
      if optional then "optional " else "" := by
    cases optional <;> rfl
  have equals : " = " = " " ++ ("=" ++ " ") := rfl
  rw [Atom.pieces, Atom.render, String.join_append, String.join_append, negation, option]
  congr 1
  cases predicate with
  | relation name =>
    simp only [String.join_cons, String.join_append, join_termPieces, String.join_nil,
      String.append_empty, String.append_assoc]
  | builtin op =>
    simp only
    generalize op.isFunction = calls
    rcases args with _ | ⟨first, _ | ⟨second, _ | ⟨third, rest⟩⟩⟩ <;> cases calls <;>
      simp only [String.join_cons, String.join_append, join_termPieces, String.join_nil,
        String.append_empty, String.append_assoc, equals]

theorem Rule.join_pieces (r : Rule) : String.join r.pieces = r.render := by
  have heads := join_separated Atom.pieces Atom.render Atom.join_pieces r.head
  have body := join_separated Atom.pieces Atom.render Atom.join_pieces r.body
  have colon : ": " = ":" ++ " " := rfl
  have arrow : " :- " = " " ++ (":-" ++ " ") := rfl
  rw [Rule.pieces, Rule.render, colon, arrow]
  split <;> simp only [String.join_cons, String.join_append, heads, body, String.join_nil,
    String.append_empty, String.append_assoc]

end Pieces

namespace Grammar

section Items

variable {name piece : String} {args : List Term} {more : List String} {a : Atom} {op : Builtin}
  {left right output : Term}

theorem starts_symbol (op : Builtin) : Starts op.symbol := by
  cases op <;> exact ⟨_, _, rfl, rfl, by decide⟩

theorem refuses_identifier (starts : Starts piece)
    (other : ∀ c, piece.toList.head? = some c → isLetter c = false) :
    Refuses identifier (piece :: more) := by
  refine refuses_token starts fun s _ => bind_none ?_
  obtain ⟨c, rest, shape, -⟩ := starts
  rw [shape] at other ⊢
  exact if_neg (by rw [other c rfl]; exact Bool.false_ne_true)

theorem refuses_close : Refuses term (")" :: more) := by
  have starts : Starts ")" := ⟨_, _, rfl, rfl, by decide⟩
  have noString : Refuses stringLiteral (")" :: more) := refuses_stringLiteral starts (by decide)
  have noLabel : Refuses labeledNull (")" :: more) := refuses_labeledNull starts fun _ _ _ => nofun
  have noInteger : Refuses integerText (")" :: more) :=
    refuses_integerText starts (by decide) (by rintro _ ⟨⟩; rfl)
  have noNull : Refuses (word "null") (")" :: more) := refuses_token starts fun _ _ => bind_none rfl
  exact (noString.orElse (noLabel.orElse (noInteger.map.orElse noNull.map))).map.orElse
    (refuses_identifier starts (by rintro _ ⟨⟩; rfl)).map

theorem reads_termPieces (terms : ∀ t ∈ args, t.IsWritten) (some : args ≠ []) :
    Reads (commaList term) args (termPieces args) (")" :: more) :=
  reads_commaList (fun t inside _ stops => reads_term (terms t inside) stops) (fun _ => rfl) rfl
    (refuses_sign ⟨_, _, rfl, rfl, by decide⟩ (by decide) (by decide)) some

theorem pieces_ofRelation :
    (Atom.ofRelation name args).pieces = name :: "(" :: termPieces args ++ [")"] := by
  change (name ++ "") :: _ = _
  rw [String.append_empty]
  rfl

theorem reads_atom (written : a.IsWritten) : Reads atom a a.pieces more := by
  obtain @⟨name, args, word, terms⟩ := written
  have close : Reads (do sign ")"; return Atom.ofRelation name args) (.ofRelation name args)
      [")"] more :=
    (reads_sign ⟨_, _, rfl, rfl, by decide⟩).finish rfl
  have inside : Reads
      (do let args ← commaList term <|> pure []; sign ")"; return Atom.ofRelation name args)
      (.ofRelation name args) (termPieces args ++ [")"]) more := by
    by_cases none : args = []
    · subst none
      intro s laid
      obtain ⟨rest, took, behind, shorter⟩ := close s laid
      have empty : (commaList term <|> pure []) s = some ([], s) :=
        orElse_none (refuses_close.bind s laid)
      exact ⟨rest, (bind_some empty).trans took, behind, shorter⟩
    · exact (reads_termPieces terms none).orElse.bind close
  have opened : ∀ c s, Spread (("(" :: termPieces args ++ [")"]) ++ more) (c :: s) →
      isWordChar c = false := fun c s => ends_stops rfl c s
  rw [pieces_ofRelation]
  exact (reads_identifier opened word).bind ((reads_sign ⟨_, _, rfl, rfl, by decide⟩).bind inside)

theorem isName_not : IsName "not" := isName_of_all rfl rfl rfl

theorem reads_negatedAtom (written : a.IsWritten) :
    Reads negatedAtom a.negate a.negate.pieces more := by
  have shown : a.negate.pieces = "not" :: " " :: a.pieces := by
    obtain ⟨-, -⟩ := written
    rfl
  have negated : Reads (do let a ← atom; return a.negate) a.negate a.pieces more :=
    (reads_atom written).finish rfl
  rw [shown]
  exact (reads_word (fun c s => ends_stops rfl c s) isName_not).bind negated.blank

theorem negatedAtom_refuses_atom (written : a.IsWritten) : Refuses negatedAtom (a.pieces ++ more) := by
  obtain @⟨name, args, word, terms⟩ := written
  have opened : ∀ c s, Spread (("(" :: termPieces args ++ [")"]) ++ more) (c :: s) →
      isWordChar c = false := fun c s => ends_stops rfl c s
  rw [pieces_ofRelation]
  by_cases same : name = "not"
  · subst same
    exact (reads_word opened isName_not).refuses
      (refuses_identifier ⟨_, _, rfl, rfl, by decide⟩ (by rintro _ ⟨⟩; rfl)).bind.bind
  · exact (refuses_word opened word isName_not same).bind

theorem negatedAtom_refuses_term {t : Term} (written : t.IsWritten) (stops : ends more = true)
    (follows : Refuses identifier more) : Refuses negatedAtom (t.render :: more) := by
  by_cases same : t.render = "not"
  · rw [same]
    exact (reads_word (ends_stops stops) isName_not).refuses follows.bind.bind
  · exact (refuses_word_term written isName_not (by rintro _ ⟨⟩; rfl) same stops).bind

-- A relation may be taken for the first term of a comparison or call, but no sign stands behind it.
theorem term_refuses_atom {β : Type} {f : Term → Scan β} (written : a.IsWritten)
    (closed : ∀ t rest, Refuses (f t) ("(" :: rest)) : Refuses (term >>= f) (a.pieces ++ more) := by
  obtain @⟨name, args, word, terms⟩ := written
  have stops : ends (("(" :: termPieces args ++ [")"]) ++ more) = true := rfl
  obtain ⟨t, reads⟩ := reads_term_name word stops
  rw [pieces_ofRelation]
  exact reads.refuses (closed t _)

theorem isName_least : IsName "least" := isName_of_all rfl rfl rfl

theorem isName_greatest : IsName "greatest" := isName_of_all rfl rfl rfl

theorem reads_functionName (calls : op.isFunction = true) (stops : ends more = true) :
    Reads functionName op [op.symbol] more := by
  cases op <;> cases calls
  · exact (reads_word (ends_stops stops) isName_least).map.orElse
  · exact (refuses_word (ends_stops stops) isName_greatest isName_least (by decide)).map.reads_orElse
      (reads_word (ends_stops stops) isName_greatest).map

theorem functionName_refuses_term {β : Type} {f : Builtin → Scan β} {t : Term} (written : t.IsWritten)
    (stops : ends more = true) (closed : ∀ op, Refuses (f op) more) :
    Refuses (functionName >>= f) (t.render :: more) := by
  by_cases least : t.render = Builtin.symbol .least
  · rw [least]
    exact (reads_functionName rfl stops).refuses (closed _)
  · by_cases greatest : t.render = Builtin.symbol .greatest
    · rw [greatest]
      exact (reads_functionName rfl stops).refuses (closed _)
    · exact ((refuses_word_term written isName_least (by rintro _ ⟨⟩; rfl) least stops).map.orElse
        (refuses_word_term written isName_greatest (by rintro _ ⟨⟩; rfl) greatest stops).map).bind

theorem refuses_other_sign {text : String} (starts : Starts piece)
    (plain : (text.toList.all fun c => !isBlank c && c ≠ '/') = true)
    (other : ¬ text.toList <+: piece.toList) :
    Refuses (sign text) (piece :: " " :: more) := by
  refine refuses_token starts fun s laid => ?_
  rw [exactly, Option.map_eq_none_iff, Option.eq_none_iff_forall_ne_some]
  intro rest stripped
  have same := stripChars_eq_some.mp stripped
  rcases List.append_eq_append_iff.mp same with ⟨longer, shape, behind⟩ | ⟨shorter, shape, -⟩
  · cases longer with
    | nil => exact other ⟨[], by rw [shape, List.append_nil, List.append_nil]⟩
    | cons c _ =>
      have here := List.all_eq_true.mp plain c (by rw [shape]; simp)
      simp only [Bool.and_eq_true, Bool.not_eq_true', decide_eq_true_eq] at here
      obtain ⟨dark, apart⟩ := here
      subst behind
      rcases laid.head (d := ' ') rfl with blank | slash | space
      · rw [dark] at blank; cases blank
      · exact apart slash
      · rw [space] at dark; cases dark
  · exact other ⟨shorter, shape.symm⟩

theorem reads_comparisonSign (relates : op.isFunction = false) :
    Reads comparisonSign op [op.symbol] (" " :: more) := by
  have starts := starts_symbol op
  have other {text : String} {value : Builtin} (apart : ¬ text.toList <+: op.symbol.toList)
      (plain : (text.toList.all fun c => !isBlank c && c ≠ '/') = true) :
      Refuses ((fun _ => value) <$> sign text) ([op.symbol] ++ " " :: more) :=
    (refuses_other_sign starts plain apart).map
  have reads {value : Builtin} :
      Reads ((fun _ => value) <$> sign op.symbol) value [op.symbol] (" " :: more) :=
    (reads_sign starts).map
  cases op with
  | ne => exact reads.orElse
  | le =>
    exact (other (by decide) (by decide)).reads_orElse
      ((other (by decide) (by decide)).reads_orElse reads.orElse)
  | ge =>
    exact (other (by decide) (by decide)).reads_orElse ((other (by decide) (by decide)).reads_orElse
      ((other (by decide) (by decide)).reads_orElse reads.orElse))
  | eq =>
    exact (other (by decide) (by decide)).reads_orElse ((other (by decide) (by decide)).reads_orElse
      ((other (by decide) (by decide)).reads_orElse
        ((other (by decide) (by decide)).reads_orElse reads.orElse)))
  | lt =>
    exact (other (by decide) (by decide)).reads_orElse ((other (by decide) (by decide)).reads_orElse
      ((other (by decide) (by decide)).reads_orElse ((other (by decide) (by decide)).reads_orElse
        ((other (by decide) (by decide)).reads_orElse reads.orElse))))
  | gt =>
    exact (other (by decide) (by decide)).reads_orElse ((other (by decide) (by decide)).reads_orElse
      ((other (by decide) (by decide)).reads_orElse ((other (by decide) (by decide)).reads_orElse
        ((other (by decide) (by decide)).reads_orElse
          ((other (by decide) (by decide)).reads_orElse reads)))))
  | least => cases relates
  | greatest => cases relates

theorem comparisonSign_refuses_open : Refuses comparisonSign ("(" :: more) := by
  have apart {text : String} {value : Builtin} (differ : "(".toList.head? ≠ text.toList.head?)
      (some : text.toList ≠ []) : Refuses ((fun _ => value) <$> sign text) ("(" :: more) :=
    (refuses_sign ⟨_, _, rfl, rfl, by decide⟩ differ some).map
  exact (apart (by decide) (by decide)).orElse ((apart (by decide) (by decide)).orElse
    ((apart (by decide) (by decide)).orElse ((apart (by decide) (by decide)).orElse
      ((apart (by decide) (by decide)).orElse ((apart (by decide) (by decide)).orElse
        (apart (by decide) (by decide)))))))

def closes : List String → Bool
  | piece :: _ => piece = "," || piece = "."
  | [] => false

theorem ends_of_closes (closed : closes more = true) : ends more = true := by
  match more with
  | piece :: _ =>
    simp only [closes, Bool.or_eq_true, decide_eq_true_eq] at closed
    rcases closed with rfl | rfl <;> rfl

theorem refuses_open (closed : closes more = true) : Refuses (sign "(") more := by
  match more with
  | piece :: _ =>
    simp only [closes, Bool.or_eq_true, decide_eq_true_eq] at closed
    rcases closed with rfl | rfl <;>
      exact refuses_sign ⟨_, _, rfl, rfl, by decide⟩ (by decide) (by decide)

theorem identifier_refuses_sign (relates : op.isFunction = false) :
    Refuses identifier (op.symbol :: more) := by
  refine refuses_identifier (starts_symbol op) ?_
  cases op <;> cases relates <;> rintro _ ⟨⟩ <;> rfl

theorem reads_comparison (relates : op.isFunction = false) (first : left.IsWritten)
    (second : right.IsWritten) (closed : closes more = true) :
    Reads bodyItem (.ofBuiltin op [left, right])
      [left.render, " ", op.symbol, " ", right.render] more := by
  have noNot : Refuses negatedAtom ([left.render, " ", op.symbol, " ", right.render] ++ more) :=
    negatedAtom_refuses_term first rfl (identifier_refuses_sign relates).blank
  have noCall : Refuses functionCall ([left.render, " ", op.symbol, " ", right.render] ++ more) := by
    refine (reads_term first rfl).refuses (Refuses.blank ?_)
    by_cases equal : op = .eq
    · subst equal
      exact (reads_sign (starts_symbol .eq)).refuses (functionName_refuses_term second
        (ends_of_closes closed) fun _ => (refuses_open closed).bind).blank
    · have other : op.symbol.toList.head? ≠ "=".toList.head? := by
        cases op <;> first | contradiction | decide
      exact (refuses_sign (starts_symbol op) other (by decide)).bind
  have compares : Reads comparison (.ofBuiltin op [left, right])
      [left.render, " ", op.symbol, " ", right.render] more := by
    have ending : Reads (do let right ← term; return Atom.ofBuiltin op [left, right])
        (.ofBuiltin op [left, right]) [right.render] more :=
      (reads_term second (ends_of_closes closed)).finish rfl
    have signed : Reads
        (do let op ← comparisonSign; let right ← term; return Atom.ofBuiltin op [left, right])
        (.ofBuiltin op [left, right]) ([op.symbol] ++ [" ", right.render]) more :=
      (reads_comparisonSign relates).bind ending.blank
    exact (reads_term first rfl).bind signed.blank
  exact noNot.reads_orElse (noCall.reads_orElse compares.orElse)

theorem reads_call (calls : op.isFunction = true) (result : output.IsWritten) (first : left.IsWritten)
    (second : right.IsWritten) :
    Reads bodyItem (.ofBuiltin op [output, left, right])
      (output.render :: " " :: "=" :: " " :: op.symbol :: "(" :: termPieces [left, right] ++ [")"])
      more := by
  have noNot : Refuses negatedAtom ((output.render :: " " :: "=" :: " " :: op.symbol :: "(" ::
      termPieces [left, right] ++ [")"]) ++ more) :=
    negatedAtom_refuses_term result rfl
      (refuses_identifier ⟨_, _, rfl, rfl, by decide⟩ (by rintro _ ⟨⟩; rfl)).blank
  have close : Reads (do sign ")"; return Atom.ofBuiltin op [output, left, right])
      (.ofBuiltin op [output, left, right]) [")"] more :=
    (reads_sign ⟨_, _, rfl, rfl, by decide⟩).finish rfl
  have call : Reads functionCall (.ofBuiltin op [output, left, right])
      (output.render :: " " :: "=" :: " " :: op.symbol :: "(" :: termPieces [left, right] ++ [")"])
      more :=
    (reads_term result rfl).bind ((reads_sign (starts_symbol .eq)).bind
      ((reads_functionName calls rfl).bind ((reads_sign ⟨_, _, rfl, rfl, by decide⟩).bind
        ((reads_term first rfl).bind ((reads_sign ⟨_, _, rfl, rfl, by decide⟩).bind
          ((reads_term second rfl).bind close).blank)))).blank).blank
  exact noNot.reads_orElse call.orElse

theorem reads_bodyItem (item : a.IsItem) (closed : closes more = true) :
    Reads bodyItem a a.pieces more := by
  cases item with
  | positive written =>
    have noCall : Refuses functionCall (a.pieces ++ more) := term_refuses_atom written fun _ _ =>
      (refuses_sign ⟨_, _, rfl, rfl, by decide⟩ (by decide) (by decide)).bind
    have noComparison : Refuses comparison (a.pieces ++ more) := term_refuses_atom written fun _ _ =>
      comparisonSign_refuses_open.bind
    exact (negatedAtom_refuses_atom written).reads_orElse
      (noCall.reads_orElse (noComparison.reads_orElse (reads_atom written)))
  | negated written => exact (reads_negatedAtom written).orElse
  | @comparison op left right relates first second =>
    have shown : (Atom.ofBuiltin op [left, right]).pieces =
        [left.render, " ", op.symbol, " ", right.render] := by
      cases op <;> cases relates <;> rfl
    rw [shown]
    exact reads_comparison relates first second closed
  | @call op output left right calls result first second =>
    have shown : (Atom.ofBuiltin op [output, left, right]).pieces = output.render :: " " :: "=" ::
        " " :: op.symbol :: "(" :: termPieces [left, right] ++ [")"] := by
      cases op <;> cases calls <;> rfl
    rw [shown]
    exact reads_call calls result first second

end Items

section Mappings

variable {r : Rule} {more : List String}

theorem reads_body (written : r.IsMapping) :
    Reads (do let body ← commaList bodyItem; sign "."; return Rule.ofHeads r.id r.head body) r
      (separated Atom.pieces r.body ++ ["."]) more := by
  have body : Reads (commaList bodyItem) r.body (separated Atom.pieces r.body) ("." :: more) :=
    reads_commaList (fun a inside _ closed => reads_bodyItem (written.items a inside) closed)
      (fun _ => rfl) rfl (refuses_sign ⟨_, _, rfl, rfl, by decide⟩ (by decide) (by decide))
      written.reads
  exact body.bind ((reads_sign ⟨_, _, rfl, rfl, by decide⟩).finish (by rw [← written.plain]))

theorem reads_heads (written : r.IsMapping) :
    Reads (commaList atom) r.head (separated Atom.pieces r.head) (" " :: ":-" :: more) :=
  reads_commaList (P := fun _ => True) (fun a inside _ _ => reads_atom (written.heads a inside))
    (fun _ => trivial) trivial
    (refuses_sign ⟨_, _, rfl, rfl, by decide⟩ (by decide) (by decide)).blank written.derives

theorem stops_colon (c : Char) (s : List Char) (laid : Spread (":" :: more) (c :: s)) :
    isWordChar c = false := by
  rcases laid.head (d := ':') rfl with blank | rfl | rfl
  · rcases isBlank_cases blank with rfl | rfl | rfl | rfl <;> rfl
  · rfl
  · rfl

theorem reads_mapping (written : r.IsMapping) :
    Reads mapping r ("mapping" :: " " :: r.pieces) more := by
  have shown : "mapping" :: " " :: r.pieces = ["mapping"] ++ " " :: ([r.id] ++ ([":"] ++ " " ::
      (separated Atom.pieces r.head ++ " " :: ([":-"] ++ " " ::
        (separated Atom.pieces r.body ++ ["."]))))) := by
    rw [Rule.pieces, if_neg (by simpa using written.reads)]
    simp only [List.cons_append, List.append_assoc, List.nil_append]
  rw [shown]
  refine (reads_sign ⟨_, _, rfl, rfl, by decide⟩).bind (Reads.blank ?_)
  refine (reads_identifier stops_colon written.name).bind ?_
  refine (reads_sign ⟨_, _, rfl, rfl, by decide⟩).bind (Reads.blank ?_)
  refine (reads_heads written).bind (Reads.blank ?_)
  exact (reads_sign ⟨_, _, rfl, rfl, by decide⟩).bind (reads_body written).blank

theorem reads_item (written : r.IsMapping) :
    Reads item (.mapping r) ("mapping" :: " " :: r.pieces) more := by
  have other {text : String} (differ : "mapping".toList.head? ≠ text.toList.head?)
      (some : text.toList ≠ []) : Refuses (sign text) ("mapping" :: " " :: r.pieces ++ more) :=
    refuses_sign ⟨_, _, rfl, rfl, by decide⟩ differ some
  have noPeer : Refuses peer ("mapping" :: " " :: r.pieces ++ more) :=
    (other (by decide) (by decide)).bind
  have noVirtual : Refuses (word "virtual") ("mapping" :: " " :: r.pieces ++ more) :=
    refuses_token ⟨_, _, rfl, rfl, by decide⟩ fun _ _ => bind_none rfl
  have noRelation : Refuses relation ("mapping" :: " " :: r.pieces ++ more) :=
    noVirtual.maybe (other (by decide) (by decide)).bind
  exact noPeer.reads_orElse (noRelation.map.reads_orElse (reads_mapping written).map.orElse)

theorem refuses_item_done : Refuses item [] := by
  have other {text : String} (some : text.toList ≠ []) : Refuses (sign text) [] :=
    refuses_sign_done some
  have noVirtual : Refuses (word "virtual") [] := refuses_token_done rfl
  have noRelation : Refuses relation [] := noVirtual.maybe (other (by decide)).bind
  exact (other (by decide)).bind.orElse (noRelation.map.orElse
    ((Refuses.map (other (by decide)).bind).orElse (other (by decide)).bind))

-- The text of a mapping, however it is laid out, is a catalog with that mapping and nothing else.
theorem mapping_round_trip (r : Rule) (written : r.IsMapping) :
    String.join ("mapping" :: " " :: r.pieces) = "mapping " ++ r.render ∧
      ∀ text : String, Spread ("mapping" :: " " :: r.pieces) text.toList →
        Program.parse text = .ok { catalog := { mappings := [r] } } := by
  constructor
  · rw [String.join_cons, String.join_cons, Rule.join_pieces, ← String.append_assoc]
    rfl
  · intro text laid
    obtain ⟨rest, took, behind, shorter⟩ :=
      reads_item written text.toList (by rwa [List.append_nil])
    have items : many item text.toList = some ([.mapping r], rest) := by
      rw [many, took]
      simp only [shorter, if_true]
      rw [many, refuses_item_done rest behind]
      rfl
    have ended : finished rest = some ((), []) := by
      rw [finished, token, behind.skip_done]
      rfl
    have read : whole? (many item) text.toList = some [.mapping r] := by
      rw [whole?, bind_some items, bind_some ended]
      rfl
    rw [Program.parse, read]
    rfl

-- Names that are words of the grammar, with a comment behind the keyword and one at the end.
def wordsRule : Rule :=
  .ofHeads "_" [.ofRelation "null" [.var "least", .lit (.integer (-5))], .ofRelation "not" []]
    [(Atom.ofRelation "not" [.var "not"]).negate, .ofBuiltin .eq [.var "not", .var "least"],
      .ofBuiltin .lt [.lit (.labeledNull "a"), .lit .null],
      .ofBuiltin .greatest [.var "key", .lit (.string "//"), .var "_"], .ofRelation "null" [.var "_"]]

def wordsText : String :=
  "mapping// null\n _: null(least, -5), not() :- not not(not), not = least, _:a < null, " ++
    "key = greatest(\"//\", _), null(_).\n// not"

theorem wordsRule_written : wordsRule.IsMapping where
  name := isName_of_all rfl rfl rfl
  derives := nofun
  heads := by
    have null : Term.IsWritten (.lit (.integer (-5))) := .lit trivial
    have least : Term.IsWritten (.var "least") := .var isName_least (by decide)
    exact List.forall_mem_cons.mpr ⟨.relation isName_null (List.forall_mem_cons.mpr
      ⟨least, List.forall_mem_singleton.mpr null⟩), List.forall_mem_singleton.mpr
        (.relation isName_not (List.forall_mem_nil _))⟩
  reads := nofun
  items := by
    have not : Term.IsWritten (.var "not") := .var isName_not (by decide)
    have least : Term.IsWritten (.var "least") := .var isName_least (by decide)
    have key : Term.IsWritten (.var "key") := .var (isName_of_all rfl rfl rfl) (by decide)
    have blank : Term.IsWritten (.var "_") := .var (isName_of_all rfl rfl rfl) (by decide)
    have null : Term.IsWritten (.lit .null) := .lit trivial
    have label : Term.IsWritten (.lit (.labeledNull "a")) := .lit (isName_of_all rfl rfl rfl)
    have slashes : Term.IsWritten (.lit (.string "//")) := .lit
      (by simp [show Text.escape '/' = ['/'] by decide] : ∀ c ∈ "//".toList, c ≠ '"' ∧ Text.escape c = [c])
    have negated := Atom.IsItem.negated (.relation isName_not (List.forall_mem_singleton.mpr not))
    have read := Atom.IsItem.positive (.relation isName_null (List.forall_mem_singleton.mpr blank))
    exact List.forall_mem_cons.mpr ⟨negated, List.forall_mem_cons.mpr ⟨.comparison rfl not least,
      List.forall_mem_cons.mpr ⟨.comparison rfl label null, List.forall_mem_cons.mpr
        ⟨.call rfl key slashes blank, List.forall_mem_singleton.mpr read⟩⟩⟩⟩
  plain := rfl

theorem wordsText_spread : Spread ("mapping" :: " " :: wordsRule.pieces) wordsText.toList := by
  have split : wordsText = String.join ["mapping"] ++ ("// null\n" ++
      (String.join (" " :: wordsRule.pieces) ++ "\n// not")) := by
    decide +kernel
  have line : ∀ c ∈ " null".toList, isLineEnd c = false := by simp [isLineEnd]
  have note : Trivia "// null\n".toList := .comment line (rfl : isLineEnd '\n' = true) .nil
  have ended : Spread [] "\n// not".toList := .comment (.blank rfl .nil)
    (by simp [isLineEnd] : ∀ c ∈ " not".toList, isLineEnd c = false)
  have behind := (ended.tight (" " :: wordsRule.pieces)).insert note
  rw [List.append_nil] at behind
  rw [split]
  simp only [String.toList_append, String.toList_join]
  exact behind.tight ["mapping"]

theorem mapping_round_trip_words : wordsRule.IsMapping ∧
    Spread ("mapping" :: " " :: wordsRule.pieces) wordsText.toList ∧
      Program.parse wordsText = .ok { catalog := { mappings := [wordsRule] } } :=
  ⟨wordsRule_written, wordsText_spread,
    (mapping_round_trip wordsRule wordsRule_written).2 wordsText wordsText_spread⟩

end Mappings

end Grammar

end PeerExchange
