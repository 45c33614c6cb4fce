import PeerExchange.Proofs.LoweredTerms

namespace PeerExchange

open RowSemantics (Meaning Env Holds)
open Sql (BinaryOp Expr Visible World)

namespace Lowering

variable {ctx : Context} {w : World} {scope : Sql.Scope} {v : Visible} {bindings : Bindings}
  {p : Place} {ps : List Place} {es : List Expr} {nullSafe : Bool}

def AllTrue (w : World) (scope : Sql.Scope) (es : List Expr) : Prop :=
  ∀ e ∈ es, (e.eval w scope).value.isTrue = true

theorem allHold_iff : Expr.allHold w scope es = true ↔ AllTrue w scope es := by
  rw [Expr.allHold_eq_all, List.all_eq_true, AllTrue]

theorem allTrue_append {more : List Expr} :
    AllTrue w scope (es ++ more) ↔ AllTrue w scope es ∧ AllTrue w scope more :=
  List.forall_mem_append

namespace Place

def meaning (w : World) (scope : Sql.Scope) (p : Place) : Meaning × Term :=
  (p.column.meaning w scope, p.term)

end Place

theorem conditions_agree (lowered : conditions ctx bindings nullSafe p = .ok es) :
    AllTrue w scope es ↔
      RowSemantics.Agrees ctx (environment w scope bindings) (equality nullSafe)
        (p.column.meaning w scope) p.term := by
  unfold conditions at lowered
  unfold RowSemantics.Agrees AllTrue
  split at lowered
  · rename_i null
    cases lowered
    simp only [null, if_true, List.mem_singleton, forall_eq]
    have compares : IsComparison .is := ⟨by decide, by decide⟩
    rw [holds_condition compares]
    exact holds_is_null
  · rename_i other
    obtain ⟨b, found, built⟩ := Compiled.bind_ok.mp lowered
    cases built
    have meant : RowSemantics.denote ctx (environment w scope bindings) p.term =
      some (b.meaning w scope) := denote_of_value found
    have marked : ((p.column.meaning w scope).marker.isSome || (b.meaning w scope).marker.isSome) =
        (p.column.marker.isSome || b.marker.isSome) := by
      simp only [Binding.meaning, Option.isSome_map]
    simp only [other, Bool.false_eq_true, if_false, meant, Option.some.injEq, exists_eq_left', marked]
    have compares := isComparison_equality nullSafe
    have onValues : ((compare nullSafe p.column.value b.value).eval w scope).value.isTrue = true ↔
        Holds (equality nullSafe) (p.column.meaning w scope).value (b.meaning w scope).value :=
      holds_condition compares
    have onMarkers :
        ((compare nullSafe p.column.markerExpr b.markerExpr).eval w scope).value.isTrue = true ↔
          Holds (equality nullSafe) (p.column.meaning w scope).mark (b.meaning w scope).mark := by
      rw [← Binding.eval_markerExpr, ← Binding.eval_markerExpr]
      exact holds_condition compares
    split
    · rename_i either
      simp [either, onValues, onMarkers]
    · rename_i neither
      simp [neither, onValues]

theorem conditions_within (all : AllWithin v bindings) (column : p.column.Within v)
    (lowered : conditions ctx bindings nullSafe p = .ok es) : ∀ e ∈ es, e.Within v := by
  unfold conditions at lowered
  split at lowered
  · cases lowered
    intro e inside
    rw [List.mem_singleton.mp inside]
    exact ⟨column.1, trivial⟩
  · obtain ⟨b, found, built⟩ := Compiled.bind_ok.mp lowered
    cases built
    have within := within_of_value all found
    intro e inside
    rcases List.mem_append.mp inside with marked | valued
    · split at marked
      · rw [List.mem_singleton.mp marked]
        exact ⟨Binding.markerExpr_within column, Binding.markerExpr_within within⟩
      · cases marked
    · rw [List.mem_singleton.mp valued]
      exact ⟨column.1, within.1⟩

theorem allConditions_agree (lowered : allConditions ctx bindings nullSafe ps = .ok es) :
    AllTrue w scope es ↔ ∀ p ∈ ps,
      RowSemantics.Agrees ctx (environment w scope bindings) (equality nullSafe)
        (p.column.meaning w scope) p.term := by
  induction ps generalizing es with
  | nil =>
    cases lowered
    simp [AllTrue]
  | cons p rest ih =>
    obtain ⟨here, first, lowered⟩ := Compiled.bind_ok.mp lowered
    obtain ⟨others, later, lowered⟩ := Compiled.bind_ok.mp lowered
    cases lowered
    rw [allTrue_append, conditions_agree first, ih later, List.forall_mem_cons]

theorem allConditions_within (all : AllWithin v bindings) (columns : ∀ p ∈ ps, p.column.Within v)
    (lowered : allConditions ctx bindings nullSafe ps = .ok es) : ∀ e ∈ es, e.Within v := by
  induction ps generalizing es with
  | nil =>
    cases lowered
    exact List.forall_mem_nil _
  | cons p rest ih =>
    obtain ⟨here, first, lowered⟩ := Compiled.bind_ok.mp lowered
    obtain ⟨others, later, lowered⟩ := Compiled.bind_ok.mp lowered
    cases lowered
    rw [List.forall_mem_append]
    obtain ⟨column, columns⟩ := List.forall_mem_cons.mp columns
    exact ⟨conditions_within all column first, ih columns later⟩

theorem bindPlaces_cons : bindPlaces bindings (p :: ps) =
    match RowSemantics.binder? bindings p.term with
    | some x => bindPlaces (bindings.insert x p.column) ps
    | none => ((bindPlaces bindings ps).1, p :: (bindPlaces bindings ps).2) := by
  rw [bindPlaces]
  split
  · rename_i x same
    rw [same, RowSemantics.binder?]
    split <;> rfl
  · rename_i other
    have none : RowSemantics.binder? bindings p.term = none := by
      unfold RowSemantics.binder?
      split
      · rename_i x same
        exact absurd same (other x)
      · rfl
    rw [none]

theorem binder?_environment {t : Term} :
    RowSemantics.binder? (environment w scope bindings) t = RowSemantics.binder? bindings t := by
  cases t with
  | «variable» x => simp only [RowSemantics.binder?, environment_contains]
  | constant type value => rfl
  | skolem function args => rfl

theorem bound_places : RowSemantics.bound (environment w scope bindings) (ps.map (Place.meaning w scope)) =
    environment w scope (bindPlaces bindings ps).1 := by
  induction ps generalizing bindings with
  | nil => rfl
  | cons p rest ih =>
    rw [bindPlaces_cons, List.map_cons, Place.meaning, RowSemantics.bound, binder?_environment]
    cases RowSemantics.binder? bindings p.term with
    | some x =>
      simp only [← environment_insert]
      exact ih
    | none => exact ih

theorem agree_places {final : Env} {op : BinaryOp} :
    RowSemantics.Agree ctx final op (environment w scope bindings) (ps.map (Place.meaning w scope)) ↔
      ∀ p ∈ (bindPlaces bindings ps).2,
        RowSemantics.Agrees ctx final op (p.column.meaning w scope) p.term := by
  induction ps generalizing bindings with
  | nil => simp [RowSemantics.Agree, bindPlaces]
  | cons p rest ih =>
    rw [bindPlaces_cons, List.map_cons, Place.meaning, RowSemantics.Agree, binder?_environment]
    cases RowSemantics.binder? bindings p.term with
    | some x =>
      simp only [← environment_insert]
      exact ih
    | none =>
      rw [List.forall_mem_cons]
      exact and_congr_right fun _ => ih

theorem bindPlaces_within (all : AllWithin v bindings) (columns : ∀ p ∈ ps, p.column.Within v) :
    AllWithin v (bindPlaces bindings ps).1 ∧ ∀ p ∈ (bindPlaces bindings ps).2, p.column.Within v := by
  induction ps generalizing bindings with
  | nil => exact ⟨all, List.forall_mem_nil _⟩
  | cons p rest ih =>
    obtain ⟨column, columns⟩ := List.forall_mem_cons.mp columns
    rw [bindPlaces_cons]
    cases RowSemantics.binder? bindings p.term with
    | some x => exact ih (allWithin_insert all column) columns
    | none =>
      obtain ⟨added, left⟩ := ih all columns
      exact ⟨added, List.forall_mem_cons.mpr ⟨column, left⟩⟩

theorem bindPlaces_append {more : List Place} : bindPlaces bindings (ps ++ more) =
    ((bindPlaces (bindPlaces bindings ps).1 more).1,
      (bindPlaces bindings ps).2 ++ (bindPlaces (bindPlaces bindings ps).1 more).2) := by
  induction ps generalizing bindings with
  | nil => rfl
  | cons p rest ih =>
    rw [List.cons_append, bindPlaces_cons, bindPlaces_cons]
    cases RowSemantics.binder? bindings p.term with
    | some x => exact ih
    | none =>
      simp only [ih]
      rfl

end Lowering

end PeerExchange
