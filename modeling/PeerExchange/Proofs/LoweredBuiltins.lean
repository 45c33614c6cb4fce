import PeerExchange.Proofs.LoweredPlaces

namespace PeerExchange

open RowSemantics (Meaning Env Step Settle Tested)
open Sql (Expr Visible World)

namespace Atom

variable {names names' : List String} (same : ∀ x, names.contains x = names'.contains x)
include same

theorem isBound_congr (t : Term) : isBound names t = isBound names' t := by
  simp only [isBound, same]

theorem free?_congr (t : Term) : free? names t = free? names' t := by
  cases t with
  | «variable» x => simp only [free?, same]
  | constant type value => rfl
  | skolem function args => rfl

theorem binding?_congr (a : Atom) : a.binding? names = a.binding? names' := by
  have bounds : isBound names = isBound names' := funext (isBound_congr same)
  have frees : free? names = free? names' := funext (free?_congr same)
  unfold binding?
  rw [bounds, frees]

end Atom

namespace Lowering

variable {ctx : Context} {w : World} {scope : Sql.Scope} {v : Visible}

section Values

variable {bindings : Bindings} {op : Builtin} {args : List Term} {b : Binding}

theorem denote_of_values {bs : List Binding} (found : args.mapM (value ctx bindings) = .ok bs) :
    args.mapM (RowSemantics.denote ctx (environment w scope bindings)) =
      some (bs.map (Binding.meaning w scope)) := by
  induction args generalizing bs with
  | nil =>
    cases found
    rfl
  | cons arg rest ih =>
    rw [List.mapM_cons] at found
    obtain ⟨b, here, found⟩ := Compiled.bind_ok.mp found
    obtain ⟨others, later, found⟩ := Compiled.bind_ok.mp found
    cases found
    rw [List.mapM_cons, denote_of_value here, ih later]
    rfl

theorem functionMeaning_of_value (found : functionValue ctx bindings op args = .ok b) :
    RowSemantics.functionMeaning ctx (environment w scope bindings) op args =
      some (b.meaning w scope) := by
  obtain ⟨values, each, built⟩ := Compiled.bind_ok.mp found
  cases built
  rw [RowSemantics.functionMeaning, denote_of_values each, Option.map_some]
  simp only [Binding.meaning, Expr.eval, Expr.evalAll_eq_map, List.map_map, Option.map_none,
    Function.comp_def]

theorem within_of_functionValue (all : AllWithin v bindings)
    (found : functionValue ctx bindings op args = .ok b) : b.Within v := by
  obtain ⟨values, each, built⟩ := Compiled.bind_ok.mp found
  cases built
  refine ⟨?_, fun _ marked => nomatch marked⟩
  simp only [Expr.Within, Expr.allWithin_iff]
  intro e inside
  obtain ⟨one, listed, rfl⟩ := List.mem_map.mp inside
  obtain ⟨arg, _, here⟩ := Compiled.forall₂_source (Compiled.forall₂_of_mapM each) listed
  exact (within_of_value all here).1

theorem computed_of_boundValue {a : Atom} {x : String}
    (found : boundValue ctx bindings a op x = .ok b) :
    RowSemantics.computed ctx (environment w scope bindings) ⟨a, op, some x⟩ x =
      some (b.meaning w scope) := by
  unfold boundValue at found
  unfold RowSemantics.computed
  split at found
  · rename_i function
    simp only [function, if_true]
    exact functionMeaning_of_value found
  · rename_i equation
    simp only [equation, Bool.false_eq_true, if_false]
    rcases shape : a.args with _ | ⟨left, _ | ⟨right, others⟩⟩
    · rw [shape] at found
      cases found
    · rw [shape] at found
      cases found
    · rw [shape] at found
      dsimp only at found ⊢
      split at found
      · rename_i onLeft
        rw [if_pos onLeft]
        exact denote_of_value found
      · rename_i onRight
        rw [if_neg onRight]
        exact denote_of_value found

theorem within_of_boundValue (all : AllWithin v bindings) {a : Atom} {x : String}
    (found : boundValue ctx bindings a op x = .ok b) : b.Within v := by
  unfold boundValue at found
  split at found
  · exact within_of_functionValue all found
  · split at found
    · split at found
      · exact within_of_value all found
      · exact within_of_value all found
    · cases found

theorem tested_iff {a : Atom} {binds : Option String} {e : Expr}
    (lowered : builtinCondition ctx bindings a op = .ok e) :
    (e.eval w scope).value.isTrue = true ↔
      Tested ctx (environment w scope bindings) ⟨a, op, binds⟩ := by
  unfold builtinCondition at lowered
  unfold Tested RowSemantics.sides
  split at lowered
  · cases lowered
  · rename_i first rest shape
    rw [shape]
    dsimp only
    obtain ⟨left, here, lowered⟩ := Compiled.bind_ok.mp lowered
    have onLeft : RowSemantics.denote ctx (environment w scope bindings) first =
      some (left.meaning w scope) := denote_of_value here
    split at lowered
    · rename_i function
      obtain ⟨right, there, lowered⟩ := Compiled.bind_ok.mp lowered
      cases lowered
      have equates : comparisonOf op = .eq := by cases op <;> first | rfl | cases function
      rw [equates, holds_condition ⟨by decide, by decide⟩]
      simp [function, onLeft, functionMeaning_of_value there, Binding.meaning]
    · rename_i comparison
      split at lowered
      · cases lowered
      · rename_i second _ _
        obtain ⟨right, there, lowered⟩ := Compiled.bind_ok.mp lowered
        cases lowered
        have onRight : RowSemantics.denote ctx (environment w scope bindings) second =
          some (right.meaning w scope) := denote_of_value there
        rw [holds_condition (isComparison_comparisonOf op)]
        simp [comparison, onLeft, onRight, Binding.meaning]

theorem within_of_builtinCondition (all : AllWithin v bindings) {a : Atom} {e : Expr}
    (lowered : builtinCondition ctx bindings a op = .ok e) : e.Within v := by
  unfold builtinCondition at lowered
  split at lowered
  · cases lowered
  · obtain ⟨left, here, lowered⟩ := Compiled.bind_ok.mp lowered
    have onLeft := within_of_value all here
    split at lowered
    · obtain ⟨right, there, lowered⟩ := Compiled.bind_ok.mp lowered
      cases lowered
      exact ⟨onLeft.1, (within_of_functionValue all there).1⟩
    · split at lowered
      · cases lowered
      · obtain ⟨right, there, lowered⟩ := Compiled.bind_ok.mp lowered
        cases lowered
        exact ⟨onLeft.1, (within_of_value all there).1⟩

end Values

def Named (names : List String) (bindings : Bindings) : Prop :=
  ∀ x, names.contains x = bindings.contains x

theorem named_keys (bindings : Bindings) : Named bindings.keys bindings := by
  intro x
  rw [Bool.eq_iff_iff, List.contains_iff_mem, NameMap.mem_keys]

theorem named_insert {names : List String} {bindings : Bindings} {x : String} {b : Binding}
    (named : Named names bindings) : Named (x :: names) (bindings.insert x b) := by
  intro y
  rw [Bool.eq_iff_iff, NameMap.contains_insert, List.contains_cons, Bool.or_eq_true, named y,
    beq_iff_eq]
  exact or_congr_left eq_comm

-- What a pass over built-ins adds to a statement, and what that means.
structure Settled (ctx : Context) (v : Visible) (steps : List Step) (bindings bindings' : Bindings)
    (added : List Expr) : Prop where
  bound : AllWithin v bindings → AllWithin v bindings'
  within : AllWithin v bindings → ∀ e ∈ added, e.Within v
  settles : ∀ w scope final rest,
    Settle ctx final (environment w scope bindings) (steps ++ rest) ↔
      AllTrue w scope added ∧ Settle ctx final (environment w scope bindings') rest

namespace Settled

variable {steps later : List Step} {bindings bindings' final : Bindings} {added more : List Expr}

theorem nil : Settled ctx v [] bindings bindings [] where
  bound := id
  within _ := List.forall_mem_nil _
  settles w scope final rest := by simp [AllTrue]

theorem append (first : Settled ctx v steps bindings bindings' added)
    (second : Settled ctx v later bindings' final more) :
    Settled ctx v (steps ++ later) bindings final (added ++ more) where
  bound all := second.bound (first.bound all)
  within all := List.forall_mem_append.mpr ⟨first.within all, second.within (first.bound all)⟩
  settles w scope final rest := by
    rw [List.append_assoc, first.settles, second.settles, allTrue_append, and_assoc]

theorem binds {a : Atom} {op : Builtin} {x : String} {b : Binding}
    (found : boundValue ctx bindings a op x = .ok b) :
    Settled ctx v [⟨a, op, some x⟩] bindings (bindings.insert x b) [] where
  bound all := allWithin_insert all (within_of_boundValue all found)
  within _ := List.forall_mem_nil _
  settles w scope final rest := by
    simp [Settle, computed_of_boundValue found, AllTrue, environment_insert]

theorem tests {a : Atom} {op : Builtin} {e : Expr}
    (lowered : builtinCondition ctx bindings a op = .ok e) :
    Settled ctx v [⟨a, op, none⟩] bindings bindings [e] where
  bound := id
  within all := by
    intro e inside
    rw [List.mem_singleton.mp inside]
    exact within_of_builtinCondition all lowered
  settles w scope final rest := by
    have same : Tested ctx (environment w scope bindings) ⟨a, op, none⟩ ↔
        (e.eval w scope).value.isTrue = true := (tested_iff lowered).symm
    simp [Settle, AllTrue, same]

end Settled

theorem resolvable_congr {names : List String} {bindings : Bindings} (named : Named names bindings)
    (args : List Term) : args.all (isResolvable bindings) =
      args.all fun t => t.vars.all fun x => names.contains x.name || x.skolem.isSome := by
  have each : isResolvable bindings =
      fun t => t.vars.all fun x => names.contains x.name || x.skolem.isSome := by
    funext t
    simp only [isResolvable, named _]
  rw [each]

theorem builtinPass_settles {atoms left : List Atom} {names : List String}
    {bindings bindings' : Bindings} {conditions conditions' : List Expr}
    (named : Named names bindings)
    (ran : builtinPass ctx atoms bindings conditions = .ok (left, bindings', conditions')) :
    (RowSemantics.pass atoms names).2.1 = left ∧ Named (RowSemantics.pass atoms names).2.2 bindings' ∧
      ∃ added, conditions' = conditions ++ added ∧
        Settled ctx v (RowSemantics.pass atoms names).1 bindings bindings' added := by
  induction atoms generalizing left names bindings bindings' conditions conditions' with
  | nil =>
    cases ran
    exact ⟨rfl, named, [], by simp, .nil⟩
  | cons a rest ih =>
    rw [builtinPass] at ran
    rw [RowSemantics.pass]
    cases kind : a.builtin? with
    | none =>
      simp only [kind] at ran
      exact ih named ran
    | some op =>
      simp only [kind] at ran
      have binder : a.binding? names = a.binding? bindings.keys :=
        a.binding?_congr fun x => (named x).trans (named_keys bindings x).symm
      cases binds : a.binding? bindings.keys with
      | some x =>
        simp only [binds] at ran
        obtain ⟨b, found, ran⟩ := Compiled.bind_ok.mp ran
        obtain ⟨same, named', added, grown, settled⟩ := ih (named_insert named) ran
        simp only [binder, binds]
        exact ⟨same, named', added, grown, (Settled.binds found).append settled⟩
      | none =>
        simp only [binds] at ran
        simp only [binder, binds, ← resolvable_congr named]
        split at ran
        · cases ran
        · split at ran
          · rename_i resolvable
            obtain ⟨e, lowered, ran⟩ := Compiled.bind_ok.mp ran
            obtain ⟨same, named', added, grown, settled⟩ := ih named ran
            rw [if_pos resolvable]
            refine ⟨same, named', e :: added, by simp [grown], ?_⟩
            exact (Settled.tests lowered).append settled
          · rename_i unresolvable
            obtain ⟨⟨others, between⟩, later, ran⟩ := Compiled.bind_ok.mp ran
            cases ran
            obtain ⟨same, named', added, grown, settled⟩ := ih named later
            rw [if_neg unresolvable]
            exact ⟨congrArg (a :: ·) same, named', added, grown, settled⟩

theorem builtinPasses_settle {passes : Nat} {atoms : List Atom} {names : List String}
    {bindings bindings' : Bindings} {conditions conditions' : List Expr}
    (named : Named names bindings)
    (ran : builtinPasses ctx passes atoms bindings conditions = .ok (bindings', conditions')) :
    ∃ added, conditions' = conditions ++ added ∧
      Settled ctx v (RowSemantics.schedule passes atoms names) bindings bindings' added := by
  induction passes generalizing atoms names bindings conditions with
  | zero =>
    cases atoms with
    | nil =>
      cases ran
      exact ⟨[], by simp, .nil⟩
    | cons a rest => cases ran
  | succ passes ih =>
    cases atoms with
    | nil =>
      cases ran
      exact ⟨[], by simp, .nil⟩
    | cons a rest =>
      unfold builtinPasses at ran
      obtain ⟨⟨left, between, grown⟩, first, ran⟩ := Compiled.bind_ok.mp ran
      obtain ⟨same, named', added, here, settled⟩ := builtinPass_settles named first
      dsimp only at ran
      split at ran
      · cases ran
      · obtain ⟨more, there, later⟩ := ih named' ran
        refine ⟨added ++ more, by rw [there, here, List.append_assoc], ?_⟩
        unfold RowSemantics.schedule
        dsimp only
        rw [same]
        exact settled.append later

end Lowering

end PeerExchange
