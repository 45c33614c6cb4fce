import PeerExchange.Proofs.Compiled
import PeerExchange.Proofs.RowSemantics
import PeerExchange.Proofs.NameMap
import PeerExchange.Proofs.Scopes

namespace PeerExchange

open RowSemantics (Meaning Env Holds)
open Sql (BinaryOp Expr Typed Value Visible World)

namespace Lowering

variable {ctx : Context} {w : World} {scope : Sql.Scope} {v : Visible} {bindings : Bindings}

namespace Binding

def Within (v : Visible) (b : Binding) : Prop := b.value.Within v ∧ ∀ m ∈ b.marker, m.Within v

def meaning (w : World) (scope : Sql.Scope) (b : Binding) : Meaning :=
  ⟨b.value.eval w scope, b.marker.map fun m => m.eval w scope⟩

theorem eval_markerExpr (b : Binding) :
    b.markerExpr.eval w scope = (b.meaning w scope).mark := by
  obtain ⟨value, marker⟩ := b
  cases marker with
  | some m => rfl
  | none =>
    simp only [markerExpr, meaning, Meaning.mark, Option.map_none, Option.getD_none, Expr.eval]
    by_cases null : (value.eval w scope).value = .null
    · simp only [null, if_true]
      rfl
    · simp only [null, if_false]
      rfl

theorem markerExpr_within {b : Binding} (within : b.Within v) : b.markerExpr.Within v := by
  obtain ⟨value, marker⟩ := b
  cases marker with
  | some m => exact within.2 m rfl
  | none => exact ⟨within.1, trivial, trivial⟩

theorem meaning_congr {scope' : Sql.Scope} {b : Binding} (within : b.Within v)
    (agree : Sql.Scope.AgreeOn v scope scope') : b.meaning w scope = b.meaning w scope' := by
  obtain ⟨value, marker⟩ := b
  have same : value.eval w scope = value.eval w scope' := Expr.eval_congr agree value within.1
  cases marker with
  | none => simp only [meaning, same, Option.map_none]
  | some m =>
    have sameMark : m.eval w scope = m.eval w scope' := Expr.eval_congr agree m (within.2 m rfl)
    simp only [meaning, same, sameMark, Option.map_some]

theorem within_mono {v' : Visible} {b : Binding} (wider : v'.Covers v) (within : b.Within v) :
    b.Within v' :=
  ⟨Expr.within_mono wider _ within.1, fun m marked => Expr.within_mono wider m (within.2 m marked)⟩

theorem meaning_ofConstant (type : Option ColumnType) (value : Literal) :
    (ofConstant type value).meaning w scope = .ofLiteral type value := by
  cases value with
  | string s => rfl
  | integer n => rfl
  | labeledNull label => rfl
  | null => cases type <;> rfl

theorem within_ofConstant (type : Option ColumnType) (value : Literal) :
    (ofConstant type value).Within v := by
  refine ⟨?_, fun m marked => ?_⟩
  · cases value with
    | null => cases type <;> exact trivial
    | string s => exact trivial
    | integer n => exact trivial
    | labeledNull label => exact trivial
  · cases marked
    exact trivial

end Binding

def environment (w : World) (scope : Sql.Scope) (bindings : Bindings) : Env :=
  bindings.map (Binding.meaning w scope)

def AllWithin (v : Visible) (bindings : Bindings) : Prop :=
  ∀ name b, bindings.get? name = some b → b.Within v

theorem allWithin_empty : AllWithin v .empty := fun _ _ found => by simp at found

theorem allWithin_insert {name : String} {b : Binding} (all : AllWithin v bindings)
    (within : b.Within v) : AllWithin v (bindings.insert name b) := by
  intro other found inside
  rw [NameMap.get?_insert] at inside
  split at inside
  · cases inside
    exact within
  · exact all other found inside

section Separated

variable {α β : Type}

theorem map_intersperse (f : α → β) (separator : α) : (items : List α) →
    (items.intersperse separator).map f = (items.map f).intersperse (f separator)
  | [] | [_] => rfl
  | first :: second :: rest => by
    have later := map_intersperse f separator (second :: rest)
    rw [List.intersperse_cons_cons, List.map_cons, List.map_cons, later]
    rfl

theorem mem_intersperse {separator a : α} : {items : List α} →
    a ∈ items.intersperse separator → a = separator ∨ a ∈ items
  | [], inside => nomatch inside
  | [_], inside => .inr inside
  | first :: second :: rest, inside => by
    rw [List.intersperse_cons_cons, List.mem_cons, List.mem_cons] at inside
    rcases inside with here | between | later
    · exact .inr (here ▸ List.mem_cons_self)
    · exact .inl between
    · exact (mem_intersperse later).imp_right (List.mem_cons_of_mem _)

end Separated

theorem eval_skolemExpr (width : Nat) (function : String) (values : List Expr) :
    (skolemExpr width function values).eval w scope =
      ⟨RowSemantics.inventedText width function (values.map fun e => (e.eval w scope).value), none⟩ := by
  have parts : (values.map (skolemPart width)).map (fun e => (e.eval w scope).value) =
      (values.map fun e => (e.eval w scope).value).map (RowSemantics.inventedPart width) := by
    rw [List.map_map, List.map_map]
    refine List.map_congr_left fun e _ => ?_
    simp only [Function.comp_apply, skolemPart, Expr.eval, Expr.evalAll, RowSemantics.inventedPart]
    rfl
  simp only [skolemExpr, Expr.eval, Expr.evalAll_eq_map, List.map_append, List.map_cons,
    List.map_nil, map_intersperse, parts, RowSemantics.inventedText]

theorem skolemExpr_within {width : Nat} {function : String} {values : List Expr}
    (within : ∀ e ∈ values, e.Within v) : (skolemExpr width function values).Within v := by
  simp only [skolemExpr, Expr.Within, Expr.allWithin_iff, List.mem_append, List.mem_singleton]
  rintro e ((rfl | part) | rfl)
  · exact trivial
  · rcases mem_intersperse part with rfl | part
    · exact trivial
    · obtain ⟨value, inside, rfl⟩ := List.mem_map.mp part
      exact ⟨⟨within value inside, trivial, trivial, trivial⟩, trivial, trivial⟩
  · exact trivial

@[simp] theorem environment_get? {name : String} : (environment w scope bindings).get? name =
    (bindings.get? name).map (Binding.meaning w scope) := NameMap.get?_map _ _ _

@[simp] theorem environment_contains {name : String} :
    (environment w scope bindings).contains name = bindings.contains name :=
  NameMap.contains_map _ _ _

theorem environment_insert {name : String} {b : Binding} :
    environment w scope (bindings.insert name b) =
      (environment w scope bindings).insert name (b.meaning w scope) := NameMap.map_insert _ _ _ _

section Values

variable {invention : Variable → Compiled Binding} {meant : Variable → Option Meaning}

mutual

theorem denoteWith_of_value
    (invents : ∀ x b, invention x = .ok b → meant x = some (b.meaning w scope)) :
    (t : Term) → {b : Binding} → valueWith ctx bindings invention t = .ok b →
      RowSemantics.denoteWith ctx.config.skolemWidth (environment w scope bindings) meant t =
        some (b.meaning w scope)
  | .variable x, b, found => by
    rw [valueWith] at found
    rw [RowSemantics.denoteWith, environment_get?]
    cases known : bindings.get? x.name with
    | some own =>
      rw [known] at found
      cases found
      rfl
    | none =>
      rw [known] at found
      exact invents x b found
  | .constant type value, b, found => by
    rw [valueWith] at found
    cases found
    rw [RowSemantics.denoteWith, Binding.meaning_ofConstant]
  | .skolem function args, b, found => by
    rw [valueWith] at found
    obtain ⟨values, each, built⟩ := Compiled.bind_ok.mp found
    cases built
    rw [RowSemantics.denoteWith, denoteAll_of_values invents args each, Option.map_some,
      Binding.invented, Binding.meaning, eval_skolemExpr]
    rfl

theorem denoteAll_of_values
    (invents : ∀ x b, invention x = .ok b → meant x = some (b.meaning w scope)) :
    (args : List Term) → {values : List Expr} →
      valuesWith ctx bindings invention args = .ok values →
      RowSemantics.denoteAll ctx.config.skolemWidth (environment w scope bindings) meant args =
        some (values.map fun e => (e.eval w scope).value)
  | [], values, found => by
    rw [valuesWith] at found
    cases found
    rfl
  | arg :: rest, values, found => by
    rw [valuesWith] at found
    obtain ⟨b, here, found⟩ := Compiled.bind_ok.mp found
    obtain ⟨others, later, found⟩ := Compiled.bind_ok.mp found
    cases found
    rw [RowSemantics.denoteAll, denoteWith_of_value invents arg here,
      denoteAll_of_values invents rest later]
    rfl

end

mutual

theorem within_of_valueWith (all : AllWithin v bindings)
    (invents : ∀ x b, invention x = .ok b → b.Within v) :
    (t : Term) → {b : Binding} → valueWith ctx bindings invention t = .ok b → b.Within v
  | .variable x, b, found => by
    rw [valueWith] at found
    cases known : bindings.get? x.name with
    | some own =>
      rw [known] at found
      cases found
      exact all x.name _ known
    | none =>
      rw [known] at found
      exact invents x b found
  | .constant type value, b, found => by
    rw [valueWith] at found
    cases found
    exact Binding.within_ofConstant type value
  | .skolem function args, b, found => by
    rw [valueWith] at found
    obtain ⟨values, each, built⟩ := Compiled.bind_ok.mp found
    cases built
    refine ⟨skolemExpr_within (within_of_valuesWith all invents args each), fun m marked => ?_⟩
    cases marked
    exact trivial

theorem within_of_valuesWith (all : AllWithin v bindings)
    (invents : ∀ x b, invention x = .ok b → b.Within v) :
    (args : List Term) → {values : List Expr} →
      valuesWith ctx bindings invention args = .ok values → ∀ e ∈ values, e.Within v
  | [], values, found => by
    rw [valuesWith] at found
    cases found
    exact fun _ inside => nomatch inside
  | arg :: rest, values, found => by
    rw [valuesWith] at found
    obtain ⟨b, here, found⟩ := Compiled.bind_ok.mp found
    obtain ⟨others, later, found⟩ := Compiled.bind_ok.mp found
    cases found
    intro e inside
    rcases List.mem_cons.mp inside with rfl | inside
    · exact (within_of_valueWith all invents arg here).1
    · exact within_of_valuesWith all invents rest later e inside

end

end Values

theorem meant_of_inventedValue {depth : Nat} {x : Variable} {b : Binding}
    (found : inventedValue ctx bindings depth x = .ok b) :
    RowSemantics.inventedMeaning ctx (environment w scope bindings) depth x =
      some (b.meaning w scope) := by
  induction depth generalizing x b with
  | zero => cases found
  | succ depth ih =>
    rw [inventedValue] at found
    rw [RowSemantics.inventedMeaning]
    cases term : x.skolem.bind ctx.rule.invention? with
    | none =>
      rw [term] at found
      cases found
    | some t =>
      rw [term] at found
      exact denoteWith_of_value (fun _ _ => ih) t found

theorem within_of_inventedValue (all : AllWithin v bindings) {depth : Nat} {x : Variable}
    {b : Binding} (found : inventedValue ctx bindings depth x = .ok b) : b.Within v := by
  induction depth generalizing x b with
  | zero => cases found
  | succ depth ih =>
    rw [inventedValue] at found
    cases term : x.skolem.bind ctx.rule.invention? with
    | none =>
      rw [term] at found
      cases found
    | some t =>
      rw [term] at found
      exact within_of_valueWith all (fun _ _ => ih) t found

theorem denote_of_value {t : Term} {b : Binding} (found : value ctx bindings t = .ok b) :
    RowSemantics.denote ctx (environment w scope bindings) t = some (b.meaning w scope) :=
  denoteWith_of_value (fun _ _ => meant_of_inventedValue) t found

theorem within_of_value (all : AllWithin v bindings) {t : Term} {b : Binding}
    (found : value ctx bindings t = .ok b) : b.Within v :=
  within_of_valueWith all (fun _ _ => within_of_inventedValue all) t found

section Comparisons

def IsComparison (op : BinaryOp) : Prop := op ≠ .plus ∧ op ≠ .minus

theorem isTrue_apply {op : BinaryOp} (compares : IsComparison op) (a b : Typed) :
    (op.apply a b).isTrue = true ↔ Holds op a b := by
  have truth : op.apply a b = .ofTruth (op.compare a b) := by
    cases op with
    | plus => exact absurd rfl compares.1
    | minus => exact absurd rfl compares.2
    | _ => rfl
  rw [truth, Holds]
  cases op.compare a b with
  | none => exact ⟨nofun, nofun⟩
  | some holds => cases holds <;> decide

theorem holds_condition {op : BinaryOp} (compares : IsComparison op) {left right : Expr} :
    ((Expr.binary op left right).eval w scope).value.isTrue = true ↔
      Holds op (left.eval w scope) (right.eval w scope) := by
  rw [Expr.eval]
  exact isTrue_apply compares _ _

def equality (nullSafe : Bool) : BinaryOp := if nullSafe then .is else .eq

theorem isComparison_equality (nullSafe : Bool) : IsComparison (equality nullSafe) := by
  cases nullSafe <;> exact ⟨nofun, nofun⟩

theorem isComparison_comparisonOf (op : Builtin) : IsComparison (comparisonOf op) := by
  cases op <;> exact ⟨nofun, nofun⟩

theorem store_eq_null_iff {type : ColumnType} {a : Value} : a.store type = .null ↔ a = .null := by
  constructor
  · intro stored
    cases a with
    | null => rfl
    | integer n => cases type <;> cases stored
    | real x =>
      cases type with
      | text => cases stored
      | integer =>
        simp only [Value.store, Value.ofFloating] at stored
        cases whole : x.integer? <;> simp [whole] at stored
    | text s =>
      cases type with
      | text => cases stored
      | integer =>
        simp only [Value.store, Value.ofNumericText?] at stored
        cases number : Numeral.parse? s with
        | none => simp [number] at stored
        | some n =>
          simp only [number, Option.map_some, Option.getD_some, Value.ofNumeral] at stored
          split at stored
          · cases stored
          · simp only [Value.ofFloating] at stored
            cases whole : n.toFloating.integer? <;> simp [whole] at stored
  · rintro rfl
    cases type <;> rfl

theorem keep_eq_null_iff {type : Option ColumnType} {a : Value} :
    a.keep type = .null ↔ a = .null := by
  cases type with
  | none => rfl
  | some type => exact store_eq_null_iff

theorem order_null_iff {a : Value} : a.order .null = .eq ↔ a = .null := by
  cases a <;> simp [Value.order, Value.rank]

theorem holds_is_null {a : Typed} {type : Option ColumnType} :
    Holds .is a ⟨.null, type⟩ ↔ a.value = .null := by
  have null : Value.keep (Typed.comparisonType a.type type) .null = .null := keep_eq_null_iff.mpr rfl
  simp only [Holds, BinaryOp.compare, ne_eq, not_true_eq_false, decide_false, Bool.false_and,
    Bool.false_eq_true, if_false, Option.some.injEq, BinaryOp.accepts, decide_eq_true_eq,
    Typed.order, null]
  rw [order_null_iff, keep_eq_null_iff]

end Comparisons

end Lowering

end PeerExchange
