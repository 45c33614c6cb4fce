import PeerExchange.Proofs.Denotation
import PeerExchange.Proofs.RowSatisfaction

namespace PeerExchange

open Sql (BinaryOp Database Row Typed Value)

-- The substitution of one variable.
def Substitution.single (x : String) (e : Term) : Substitution := NameMap.empty.insert x e

def Term.Names (x : String) (t : Term) : Prop := ∃ v, t = .variable v ∧ v.name = x

section Substituting

variable {x : String} {e t : Term} {v : Variable}

theorem Substitution.get?_single {y : String} :
    (Substitution.single x e).get? y = if x = y then some e else none := by
  rw [Substitution.single, NameMap.get?_insert]
  rfl

theorem Term.substitute_own (own : v.name = x) :
    (Term.variable v).substitute (.single x e) = e := by
  simp [Term.substitute, Term.bind, Substitution.get?_single, own]

theorem Term.substitute_other (other : v.name ≠ x) :
    (Term.variable v).substitute (.single x e) = .variable v := by
  simp [Term.substitute, Term.bind, Substitution.get?_single, other.symm]

theorem Term.substitute_skolem {σ : Substitution} {function : String} {args : List Term} :
    (Term.skolem function args).substitute σ = .skolem function (args.map (Term.substitute σ)) := by
  rw [Term.substitute, Term.bind, Term.bindAll_eq_map]
  rfl

end Substituting

namespace Rule

-- The rule over another body with a term in place of a variable.
def joining (r : Rule) (body : List Atom) (x : String) (e : Term) : Rule :=
  ({ r with body }).substitute (.single x e)

end Rule

-- The context of the rule over another body with a term in place of a variable.
def Lowering.Context.joining (ctx : Context) (body : List Atom) (x : String) (e : Term) : Context :=
  { ctx with rule := ctx.rule.joining body x e }

namespace RowSemantics

variable {ctx : Lowering.Context} {db : Database} {env env' final final' : Env} {x y : String}
  {e t : Term} {type : ColumnType} {body : List Atom}

section Comparing

variable {a b b' : Typed} {op : BinaryOp} {place m m' : Meaning}

theorem order_fits (here : Fits type a) (there : Fits type b) : a.order b = a.value.order b.value := by
  have raw (common : Option ColumnType) (known : common = some type ∨ common = none) :
      (a.value.keep common).order (b.value.keep common) = a.value.order b.value := by
    rcases known with rfl | rfl
    · rw [Value.keep, Value.keep, here.kept, there.kept]
    · rfl
  refine raw _ ?_
  rcases here.typed with own | own <;> rcases there.typed with other | other <;> rw [own, other] <;>
    cases type <;> simp [Typed.comparisonType]

theorem holds_fits (place : Fits type a) (here : Fits type b) (there : Fits type b')
    (same : b'.value = b.value) : Holds op a b ↔ Holds op a b' := by
  unfold Holds BinaryOp.compare
  rw [order_fits place here, order_fits place there, same]

theorem fits_number {n : Int} : Fits .integer ⟨.integer n, none⟩ := ⟨.inr rfl, rfl⟩

theorem mark_unmarked (unmarked : m.marker = none) :
    m.mark = ⟨.integer (if m.value.value = .null then 0 else 1), none⟩ := by
  rw [Meaning.mark, unmarked, Option.getD_none]

theorem fits_unmarked (unmarked : m.marker = none) : Fits .integer m.mark := by
  rw [mark_unmarked unmarked]
  exact fits_number

theorem holds_mark (equates : op = .eq ∨ op = .is) (here : place.marker = none)
    (there : m.marker = none) (holds : Holds op place.value m.value) : Holds op place.mark m.mark := by
  have order : place.value.order m.value = .eq := by
    rcases equates with rfl | rfl
    · exact (holds_eq_iff.mp holds).2.2
    · exact holds_is_iff.mp holds
  rw [mark_unmarked here, mark_unmarked there]
  simp only [null_of_order order]
  rcases equates with rfl | rfl
  · exact holds_eq_iff.mpr ⟨nofun, nofun, holds_is_iff.mp (holds_is_self _)⟩
  · exact holds_is_self _

theorem agrees_marked (equates : op = .eq ∨ op = .is) (nonnull : t.isNull = false) :
    Agrees ctx env op place t ↔
      ∃ m, denote ctx env t = some m ∧ Holds op place.mark m.mark ∧ Holds op place.value m.value := by
  unfold Agrees
  rw [nonnull, if_neg Bool.false_ne_true]
  refine exists_congr fun m => and_congr_right fun _ => ?_
  constructor
  · rintro ⟨marks, values⟩
    refine ⟨?_, values⟩
    cases here : place.marker with
    | some mark => exact marks (by rw [here]; rfl)
    | none =>
      cases there : m.marker with
      | some mark => exact marks (by rw [there]; simp)
      | none => exact holds_mark equates here there values
  · rintro ⟨marks, values⟩
    exact ⟨fun _ => marks, values⟩

end Comparing

-- Meanings with one value and one mark, whose marks are numbers. Their types are the same, except
-- that within a type one may declare it and the other not.
structure Resembles (within : Option ColumnType) (m m' : Meaning) : Prop where
  value : m'.value.value = m.value.value
  typed : m'.value.type = m.value.type ∨
    ∃ type, within = some type ∧ Fits type m.value ∧ Fits type m'.value
  mark : m'.mark.value = m.mark.value
  counts : Fits .integer m.mark
  counts' : Fits .integer m'.mark

namespace Resembles

variable {within : Option ColumnType} {m m' m'' : Meaning}

theorem self (counts : Fits .integer m.mark) : Resembles within m m :=
  ⟨rfl, .inl rfl, rfl, counts, counts⟩

theorem symm (like : Resembles within m m') : Resembles within m' m :=
  ⟨like.value.symm, like.typed.imp Eq.symm fun ⟨type, known, here, there⟩ => ⟨type, known, there, here⟩,
    like.mark.symm, like.counts', like.counts⟩

theorem value_eq (like : Resembles none m m') : m'.value = m.value := by
  rcases like.typed with same | ⟨_, known, -⟩
  · have value := like.value
    cases left : m'.value
    cases right : m.value
    rw [left, right] at same value
    dsimp only at same value
    rw [same, value]
  · cases known

theorem trans (first : Resembles none m m') (second : Resembles within m' m'') :
    Resembles within m m'' where
  value := second.value.trans first.value
  typed := by
    rw [← first.value_eq]
    exact second.typed
  mark := second.mark.trans first.mark
  counts := first.counts
  counts' := second.counts'

theorem widen (like : Resembles none m m') : Resembles within m m' where
  value := like.value
  typed := .inl (congrArg Typed.type like.value_eq)
  mark := like.mark
  counts := like.counts
  counts' := like.counts'

theorem holds_mark {op : BinaryOp} {a : Typed} (like : Resembles within m m') (fits : Fits .integer a) :
    Holds op a m.mark ↔ Holds op a m'.mark := holds_fits fits like.counts like.counts' like.mark

theorem holds_value {op : BinaryOp} {a : Typed} (like : Resembles within m m')
    (typed : ∀ type ∈ within, Fits type a) : Holds op a m.value ↔ Holds op a m'.value := by
  rcases like.typed with same | ⟨type, known, here, there⟩
  · have equal : Resembles none m m' := ⟨like.value, .inl same, like.mark, like.counts, like.counts'⟩
    rw [equal.value_eq]
  · exact holds_fits (typed type known) here there like.value

end Resembles

def settled? (env : Env) : Term → Option Meaning
  | .variable v => env.get? v.name
  | .constant type value => some (.ofLiteral type value)
  | .skolem _ _ => none

theorem denoteWith_settled {width : Nat} {invention : Variable → Option Meaning} {m : Meaning}
    (settled : settled? env t = some m) : denoteWith width env invention t = some m := by
  cases t with
  | «variable» v =>
    rw [denoteWith]
    rw [settled?] at settled
    rw [settled]
  | constant own value => exact settled
  | skolem function args => cases settled

def slack (type : ColumnType) : Term → Option ColumnType
  | .variable _ => none
  | _ => some type

-- Environments of a body and of the body with a term in place of a variable.
structure Replaced (type : ColumnType) (x : String) (e : Term) (env env' : Env) : Prop where
  others : ∀ y, y ≠ x → Option.Rel (Resembles none) (env.get? y) (env'.get? y)
  own : ∃ m m', env.get? x = some m ∧ settled? env' e = some m' ∧ Resembles (slack type e) m m'

section Denoting

theorem rel_cases {α β : Type} {R : α → β → Prop} {o : Option α} {o' : Option β}
    (related : Option.Rel R o o') :
    (o = none ∧ o' = none) ∨ ∃ a b, o = some a ∧ o' = some b ∧ R a b := by
  cases related with
  | some like => exact .inr ⟨_, _, rfl, rfl, like⟩
  | none => exact .inl ⟨rfl, rfl⟩

mutual

theorem denoteWith_replaced {width : Nat} {invention invention' : Variable → Option Meaning}
    (replaced : Replaced type x e env env')
    (invented : ∀ v, Option.Rel (Resembles none) (invention v) (invention' v)) : (t : Term) →
    (t.Names x → ∃ m m', denoteWith width env invention t = some m ∧
      denoteWith width env' invention' (t.substitute (.single x e)) = some m' ∧
      Resembles (slack type e) m m') ∧
    (¬ t.Names x → Option.Rel (Resembles none) (denoteWith width env invention t)
      (denoteWith width env' invention' (t.substitute (.single x e))))
  | .variable v => by
    obtain ⟨m, m', found, settled, like⟩ := replaced.own
    constructor
    · rintro ⟨_, ⟨⟩, rfl⟩
      refine ⟨m, m', by rw [denoteWith, found], ?_, like⟩
      rw [Term.substitute_own rfl]
      exact denoteWith_settled settled
    · intro other
      have differs : v.name ≠ x := fun same => other ⟨v, rfl, same⟩
      rw [Term.substitute_other differs, denoteWith, denoteWith]
      rcases rel_cases (replaced.others v.name differs) with ⟨here, there⟩ | ⟨_, _, here, there, like⟩
      · rw [here, there]
        exact invented v
      · rw [here, there]
        exact .some like
  | .constant own value => by
    refine ⟨fun ⟨_, same, _⟩ => (nomatch same), fun _ => .some ?_⟩
    exact .self ⟨.inr rfl, rfl⟩
  | .skolem function args => by
    refine ⟨fun ⟨_, same, _⟩ => (nomatch same), fun _ => ?_⟩
    rw [Term.substitute_skolem, denoteWith, denoteWith,
      denoteAll_replaced replaced invented args]
    cases denoteAll width env' invention' (args.map (Term.substitute (.single x e))) with
    | none => exact .none
    | some values => exact .some (.self fits_number)

theorem denoteAll_replaced {width : Nat} {invention invention' : Variable → Option Meaning}
    (replaced : Replaced type x e env env')
    (invented : ∀ v, Option.Rel (Resembles none) (invention v) (invention' v)) : (args : List Term) →
    denoteAll width env invention args =
      denoteAll width env' invention' (args.map (Term.substitute (.single x e)))
  | [] => rfl
  | t :: rest => by
    obtain ⟨own, other⟩ := @denoteWith_replaced width _ _ replaced invented t
    rw [List.map_cons, denoteAll, denoteAll, denoteAll_replaced replaced invented rest]
    by_cases names : t.Names x
    · obtain ⟨m, m', here, there, like⟩ := own names
      rw [here, there]
      simp only [Option.bind_eq_bind, Option.bind_some, like.value]
    · rcases rel_cases (other names) with ⟨here, there⟩ | ⟨_, _, here, there, like⟩
      · rw [here, there]
      · rw [here, there]
        simp only [Option.bind_eq_bind, Option.bind_some, like.value]

end

variable (replaced : Replaced type x e env env')
include replaced

theorem inventedMeaning_replaced (depth : Nat) (v : Variable) :
    Option.Rel (Resembles none) (inventedMeaning ctx env depth v)
      (inventedMeaning (ctx.joining body x e) env' depth v) := by
  induction depth generalizing v with
  | zero => exact .none
  | succ depth ih =>
    have invention : v.skolem.bind (ctx.joining body x e).rule.invention? =
        (v.skolem.bind ctx.rule.invention?).map (Term.substitute (.single x e)) := by
      cases v.skolem with
      | none => rfl
      | some position =>
        simp only [Option.bind_some, Rule.invention?, Lowering.Context.joining, Rule.joining,
          Rule.substitute, List.getElem?_map, Option.map_map]
        refine Option.map_congr fun i _ => ?_
        exact Term.substitute_skolem.symm
    rw [inventedMeaning, inventedMeaning, invention]
    cases given : v.skolem.bind ctx.rule.invention? with
    | none => exact .none
    | some term =>
      have unnamed : ¬ term.Names x := by
        rintro ⟨u, rfl, -⟩
        obtain ⟨position, -, given⟩ := Option.bind_eq_some_iff.mp given
        obtain ⟨i, -, same⟩ := Option.map_eq_some_iff.mp given
        cases same
      exact (denoteWith_replaced replaced ih term).2 unnamed

theorem denote_replaced (t : Term) :
    (t.Names x → ∃ m m', denote ctx env t = some m ∧
      denote (ctx.joining body x e) env' (t.substitute (.single x e)) = some m' ∧
      Resembles (slack type e) m m') ∧
    (¬ t.Names x → Option.Rel (Resembles none) (denote ctx env t)
      (denote (ctx.joining body x e) env' (t.substitute (.single x e)))) := by
  have depth : (ctx.joining body x e).rule.inventions.length = ctx.rule.inventions.length :=
    List.length_map _
  rw [denote, denote, depth]
  exact denoteWith_replaced replaced (inventedMeaning_replaced replaced _) t

theorem agrees_replaced {op : BinaryOp} {place : Meaning} (equates : op = .eq ∨ op = .is)
    (nonnull : e.isNull = false) (counts : Fits .integer place.mark)
    (typed : t.Names x → Fits type place.value) : Agrees ctx env op place t ↔
      Agrees (ctx.joining body x e) env' op place (t.substitute (.single x e)) := by
  obtain ⟨own, other⟩ := @denote_replaced ctx env env' x e type body replaced t
  by_cases names : t.Names x
  · obtain ⟨m, m', here, there, like⟩ := own names
    have plain : t.isNull = false := by
      obtain ⟨v, rfl, -⟩ := names
      rfl
    have image : (t.substitute (.single x e)).isNull = false := by
      obtain ⟨v, rfl, same⟩ := names
      rw [Term.substitute_own same]
      exact nonnull
    have fits : ∀ T ∈ slack type e, Fits T place.value := by
      intro T inside
      unfold slack at inside
      split at inside
      · cases inside
      · cases inside
        exact typed names
    rw [agrees_marked equates plain, agrees_marked equates image, here, there]
    simp only [Option.some.injEq, exists_eq_left', like.holds_mark counts, like.holds_value fits]
  · have image : (t.substitute (.single x e)).isNull = t.isNull := by
      cases t with
      | «variable» v => rw [Term.substitute_other fun same => names ⟨v, rfl, same⟩]
      | constant own value => rfl
      | skolem function args => rw [Term.substitute_skolem]; rfl
    cases null : t.isNull with
    | true =>
      unfold Agrees
      rw [image, null, if_pos rfl, if_pos rfl]
    | false =>
      rw [agrees_marked equates null, agrees_marked equates (image.trans null)]
      rcases rel_cases (other names) with ⟨here, there⟩ | ⟨m, m', here, there, like⟩
      · rw [here, there]
      · rw [here, there]
        simp only [Option.some.injEq, exists_eq_left', like.holds_mark counts, like.value_eq]

end Denoting

def Stands (x : String) (e t : Term) : Prop := t.Names x ∨ ∃ w, e = .variable w ∧ t.Names w.name

def Exact (v : Value) : Prop := ∀ r, v ≠ .real r

-- A cell of a column of the type, with a number for a marker.
structure Sound (type : ColumnType) (m : Meaning) : Prop where
  counts : Fits .integer m.mark
  shown : ∃ n, m.mark.value = .integer n
  kept : Fits type m.value
  exact : Exact m.value.value

-- A place whose column has the type where one of the equated stands.
structure Fitted (type : ColumnType) (x : String) (e : Term) (p : Meaning × Term) : Prop where
  counts : Fits .integer p.1.mark
  typed : Stands x e p.2 → p.1.value.type = some type
  sound : Stands x e p.2 → Sound type p.1

def Comparable (type : ColumnType) (x : String) : Term → Prop
  | .variable v => v.name ≠ x ∧ v.skolem = none
  | .constant _ value => value.type? = some type ∧ value.tooLarge? = none
  | .skolem _ _ => False

def replace (x : String) (e : Term) (p : Meaning × Term) : Meaning × Term :=
  (p.1, p.2.substitute (.single x e))

section Binding

variable {ps : List (Meaning × Term)} {m m' : Meaning}

section Environments

variable (replaced : Replaced type x e env env')
include replaced

theorem contains_replaced (other : y ≠ x) : env'.contains y = env.contains y := by
  rw [NameMap.contains, NameMap.contains]
  rcases rel_cases (replaced.others y other) with ⟨here, there⟩ | ⟨_, _, here, there, -⟩
  · rw [here, there]
  · rw [here, there]
    rfl

theorem contains_own : env.contains x = true ∧ ∀ w, e = .variable w → env'.contains w.name = true := by
  obtain ⟨m, m', found, settled, -⟩ := replaced.own
  refine ⟨NameMap.contains_of_get? found, ?_⟩
  rintro w rfl
  exact NameMap.contains_of_get? settled

theorem apart_replaced (fresh : env.contains y = false) :
    y ≠ x ∧ ∀ w, e = .variable w → w.name ≠ y := by
  obtain ⟨own, image⟩ := contains_own replaced
  have other : y ≠ x := by
    rintro rfl
    cases own.symm.trans fresh
  refine ⟨other, ?_⟩
  rintro w rfl rfl
  rw [← contains_replaced replaced other, image w rfl] at fresh
  cases fresh

theorem binder?_replaced (t : Term) :
    binder? env' (t.substitute (.single x e)) = binder? env t := by
  obtain ⟨own, image⟩ := contains_own replaced
  cases t with
  | «variable» v =>
    by_cases same : v.name = x
    · rw [Term.substitute_own same]
      have bound : binder? env (.variable v) = none := by simp [binder?, same, own]
      rw [bound]
      cases e with
      | «variable» w => simp [binder?, image w rfl]
      | constant own value => rfl
      | skolem function args => rfl
    · rw [Term.substitute_other same, binder?, binder?, contains_replaced replaced same]
  | constant own value => rfl
  | skolem function args =>
    rw [Term.substitute_skolem]
    rfl

theorem insert_replaced (fresh : env.contains y = false) (like : Resembles none m m') :
    Replaced type x e (env.insert y m) (env'.insert y m') := by
  obtain ⟨differs, apart⟩ := apart_replaced replaced fresh
  constructor
  · intro z other
    rw [NameMap.get?_insert, NameMap.get?_insert]
    split
    · exact .some like
    · exact replaced.others z other
  · obtain ⟨n, n', found, settled, related⟩ := replaced.own
    refine ⟨n, n', by rw [NameMap.get?_insert, if_neg differs, found], ?_, related⟩
    cases e with
    | «variable» w =>
      rw [settled?, NameMap.get?_insert, if_neg (apart w rfl).symm]
      exact settled
    | constant own value => exact settled
    | skolem function args => cases settled

end Environments

theorem bound_replaced (replaced : Replaced type x e env env')
    (fitted : ∀ p ∈ ps, Fitted type x e p) :
    Replaced type x e (bound env ps) (bound env' (ps.map (replace x e))) := by
  induction ps generalizing env env' with
  | nil => exact replaced
  | cons p rest ih =>
    obtain ⟨m, t⟩ := p
    obtain ⟨here, fitted⟩ := List.forall_mem_cons.mp fitted
    rw [List.map_cons, bound, replace, bound, binder?_replaced replaced]
    cases binds : binder? env t with
    | some y => exact ih (insert_replaced replaced (binder?_eq_some.mp binds).2 (.self here.counts)) fitted
    | none => exact ih replaced fitted

theorem agree_replaced {op : BinaryOp} (equates : op = .eq ∨ op = .is) (nonnull : e.isNull = false)
    (finals : Replaced type x e final final') (replaced : Replaced type x e env env')
    (fitted : ∀ p ∈ ps, Fitted type x e p) : Agree ctx final op env ps ↔
      Agree (ctx.joining body x e) final' op env' (ps.map (replace x e)) := by
  induction ps generalizing env env' with
  | nil => rfl
  | cons p rest ih =>
    obtain ⟨m, t⟩ := p
    obtain ⟨here, fitted⟩ := List.forall_mem_cons.mp fitted
    rw [List.map_cons, Agree, replace, Agree, binder?_replaced replaced]
    cases binds : binder? env t with
    | some y => exact ih (insert_replaced replaced (binder?_eq_some.mp binds).2 (.self here.counts)) fitted
    | none =>
      exact and_congr
        (agrees_replaced finals equates nonnull here.counts fun names => (here.sound (.inl names)).kept)
        (ih replaced fitted)

theorem places_replaced (c : Catalog) (db : Database) (a : Atom) (row : Row) :
    places c db (a.substitute (.single x e)) row = (places c db a row).map (replace x e) := by
  have known : (a.substitute (.single x e)).relationName = a.relationName := rfl
  unfold places
  rw [known]
  cases c.relations.get? a.relationName with
  | none => rfl
  | some r =>
    dsimp only
    rw [List.map_map, Atom.substitute, Atom.mapArgs, List.zip_map_left, List.map_map]
    rfl

theorem identical_replaced {a : Atom} {row : Row} (nonnull : e.isNull = false)
    (replaced : Replaced type x e env env')
    (fitted : ∀ p ∈ places ctx.catalog db a row, Fitted type x e p) : Identical ctx db env a row ↔
      Identical (ctx.joining body x e) db env' (a.substitute (.single x e)) row := by
  have same : (ctx.joining body x e).catalog = ctx.catalog := rfl
  rw [Identical, Identical, same, places_replaced]
  exact agree_replaced (.inr rfl) nonnull (bound_replaced replaced fitted) replaced fitted

end Binding

end RowSemantics

end PeerExchange
