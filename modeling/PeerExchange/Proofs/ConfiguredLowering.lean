import PeerExchange.Lowering

namespace PeerExchange

namespace Lowering

variable {ctx : Context} {config : Config} {bindings : Bindings} {nullSafe : Bool}
  {guard : Option Guard}

mutual

theorem valueWith_config {invention : Variable → Compiled Binding}
    (width : config.skolemWidth = ctx.config.skolemWidth) : (t : Term) →
    valueWith { ctx with config } bindings invention t = valueWith ctx bindings invention t
  | .variable v => rfl
  | .constant type value => rfl
  | .skolem function args => by
    rw [valueWith, valueWith, valuesWith_config width args, width]

theorem valuesWith_config {invention : Variable → Compiled Binding}
    (width : config.skolemWidth = ctx.config.skolemWidth) : (args : List Term) →
    valuesWith { ctx with config } bindings invention args = valuesWith ctx bindings invention args
  | [] => rfl
  | arg :: rest => by
    rw [valuesWith, valuesWith, valueWith_config width arg, valuesWith_config width rest]

end

section Settings

variable (width : config.skolemWidth = ctx.config.skolemWidth)
include width

section Values

theorem inventedValue_config (depth : Nat) :
    inventedValue { ctx with config } bindings depth = inventedValue ctx bindings depth := by
  funext v
  induction depth generalizing v with
  | zero => rfl
  | succ depth ih =>
    rw [inventedValue, inventedValue, funext ih]
    dsimp only
    cases v.skolem.bind ctx.rule.invention? with
    | none => rfl
    | some term => exact valueWith_config width term

theorem value_config : value { ctx with config } bindings = value ctx bindings := by
  funext t
  rw [value, value, inventedValue_config width]
  exact valueWith_config width t

end Values

section Places

theorem conditions_config :
    conditions { ctx with config } bindings nullSafe = conditions ctx bindings nullSafe := by
  funext p
  rw [conditions, conditions, value_config width]

theorem allConditions_config (ps : List Place) :
    allConditions { ctx with config } bindings nullSafe ps = allConditions ctx bindings nullSafe ps := by
  induction ps with
  | nil => rfl
  | cons p rest ih => rw [allConditions, allConditions, conditions_config width, ih]

theorem optionalPlaces_config (ps : List Place) :
    optionalPlaces { ctx with config } bindings ps = optionalPlaces ctx bindings ps := by
  induction ps generalizing bindings with
  | nil => rfl
  | cons p rest ih =>
    rw [optionalPlaces, optionalPlaces]
    simp only [conditions_config width, ih]

theorem joinAtom_config (scope : Scope) (position : Nat) (a : Atom) :
    joinAtom { ctx with config } guard scope position a = joinAtom ctx guard scope position a := by
  unfold joinAtom
  simp only [optionalPlaces_config width]
  rfl

theorem joinAtoms_config (body : List Atom) (scope : Scope) (position : Nat) :
    joinAtoms { ctx with config } guard scope position body =
      joinAtoms ctx guard scope position body := by
  induction body generalizing scope position with
  | nil => rfl
  | cons a rest ih =>
    rw [joinAtoms, joinAtoms]
    simp only [joinAtom_config width, ih]

end Places

section Builtins

theorem functionValue_config (op : Builtin) (args : List Term) :
    functionValue { ctx with config } bindings op args = functionValue ctx bindings op args := by
  rw [functionValue, functionValue, value_config width]

theorem boundValue_config (a : Atom) (op : Builtin) (name : String) :
    boundValue { ctx with config } bindings a op name = boundValue ctx bindings a op name := by
  unfold boundValue
  rw [functionValue_config width, value_config width]

theorem builtinCondition_config (a : Atom) (op : Builtin) :
    builtinCondition { ctx with config } bindings a op = builtinCondition ctx bindings a op := by
  unfold builtinCondition
  simp only [functionValue_config width, value_config width]

theorem builtinPass_config (atoms : List Atom) (conditions : List Sql.Expr) :
    builtinPass { ctx with config } atoms bindings conditions =
      builtinPass ctx atoms bindings conditions := by
  induction atoms generalizing bindings conditions with
  | nil => rfl
  | cons a rest ih =>
    rw [builtinPass, builtinPass]
    simp only [boundValue_config width, builtinCondition_config width, ih]

theorem builtinPasses_config (passes : Nat) (atoms : List Atom) (conditions : List Sql.Expr) :
    builtinPasses { ctx with config } passes atoms bindings conditions =
      builtinPasses ctx passes atoms bindings conditions := by
  induction passes generalizing atoms bindings conditions with
  | zero => cases atoms <;> rfl
  | succ passes ih =>
    cases atoms with
    | nil => rfl
    | cons a rest =>
      rw [builtinPasses, builtinPasses]
      · simp only [builtinPass_config width, ih]
        rfl
      · nofun
      · nofun

end Builtins

section Statements

theorem negatedSelect_config (aliases : Nat) (a : Atom) :
    negatedSelect { ctx with config } bindings aliases a = negatedSelect ctx bindings aliases a := by
  rw [negatedSelect, negatedSelect, joinAtom_config width]
  simp only [allConditions_config width]

theorem negatedConditions_config (atoms : List Atom) (aliases : Nat) :
    negatedConditions { ctx with config } bindings aliases atoms =
      negatedConditions ctx bindings aliases atoms := by
  induction atoms generalizing aliases with
  | nil => rfl
  | cons a rest ih =>
    rw [negatedConditions, negatedConditions]
    simp only [negatedSelect_config width, ih]

theorem lowerBody_config (body : List Atom) :
    lowerBody { ctx with config } guard body = lowerBody ctx guard body := by
  rw [lowerBody, lowerBody, joinAtoms_config width]
  simp only [builtinPasses_config width, allConditions_config width, negatedConditions_config width]

theorem projectColumns_config (r : Relation) (places : List (Term × Column)) (i : Nat) :
    projectColumns { ctx with config } r bindings i places =
      projectColumns ctx r bindings i places := by
  induction places generalizing i with
  | nil => rfl
  | cons place rest ih => rw [projectColumns, projectColumns, value_config width, ih]

theorem project_config (r : Relation) (head : Atom) :
    project { ctx with config } r head bindings = project ctx r head bindings := by
  rw [project, project, projectColumns_config width]
  rfl

theorem lowerInsert_config (head : Atom) (r : Relation) (setSemantics : Bool) :
    lowerInsert { ctx with config } head r setSemantics = lowerInsert ctx head r setSemantics := by
  unfold lowerInsert
  simp only [project_config width, lowerBody_config width]

theorem keyConditions_config (table : String) (r : Relation) (head : Atom) (positions : List Nat) :
    keyConditions { ctx with config } table r head positions =
      keyConditions ctx table r head positions := by
  induction positions with
  | nil => rfl
  | cons position rest ih =>
    rw [keyConditions, keyConditions]
    simp only [value_config width, ih]

theorem correlate_config (table : String) (r : Relation) (places : List (Term × Column)) :
    correlate { ctx with config } table r bindings places = correlate ctx table r bindings places := by
  induction places with
  | nil => rfl
  | cons place rest ih => rw [correlate, correlate, value_config width, ih]

theorem lowerDelete_config (head : Atom) (r : Relation) :
    lowerDelete { ctx with config } head r = lowerDelete ctx head r := by
  unfold lowerDelete
  simp only [keyConditions_config width, lowerBody_config width, correlate_config width]

theorem lowerView_config (head : Atom) (r : Relation) :
    lowerView { ctx with config } head r = lowerView ctx head r := by
  rw [lowerView, lowerView, lowerBody_config width]
  simp only [project_config width]

theorem lowerRule_config (sets : config.setSemantics = ctx.config.setSemantics) :
    lowerRule { ctx with config } = lowerRule ctx := by
  unfold lowerRule
  simp only [lowerInsert_config width, lowerDelete_config width, lowerView_config width, sets]
  rfl

end Statements

end Settings

theorem lower_batched {catalog : Catalog} {config : Config} {iteration : Iteration} (r : Rule)
    (merges : Bool) : r.lower catalog { config with mergeStatements := merges } iteration =
      r.lower catalog config iteration := by
  unfold Rule.lower
  rw [@lowerRule_config ⟨catalog, config, r, iteration⟩ { config with mergeStatements := merges } rfl rfl]

end Lowering

end PeerExchange
