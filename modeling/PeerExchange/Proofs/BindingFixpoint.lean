import Mathlib.Order.Bounds.Defs
import PeerExchange.Proofs.Denotation
import PeerExchange.Proofs.LoweringTotality
import PeerExchange.Proofs.RowBindings

namespace PeerExchange

variable {body : List Atom} {name : String}

-- Names that hold those of the joined atoms, and whatever a built-in binds once some of them are
-- bound.
structure BindingClosed (body : List Atom) (names : Set String) : Prop where
  joined : ∀ a ∈ body, a.isPositive = true → ∀ name ∈ a.variableNames, name ∈ names
  bindings : ∀ a ∈ body, a.negated = false → ∀ known : List String, (∀ n ∈ known, n ∈ names) →
    ∀ name, a.binding? known = some name → name ∈ names

theorem bindingClosed_iff {names : Set String} :
    BindingClosed body names ↔ Closed body (· ∈ names) := by
  constructor
  · refine fun closed => ⟨closed.joined, fun a inside plain inputs name determines bound => ?_⟩
    by_contra outside
    -- The variables of the inputs are all that needs to be known.
    have known : ∀ n ∈ (inputs.flatMap Term.vars).map Variable.name, n ∈ names := by
      refine List.forall_mem_map.mpr fun v inside => ?_
      obtain ⟨t, input, within⟩ := List.mem_flatMap.mp inside
      exact bound t input v within
    have binds := Atom.binding?_of_determines determines (fun met => outside (known name met))
      fun t input v within => List.mem_map_of_mem (List.mem_flatMap.mpr ⟨t, input, within⟩)
    exact outside (closed.bindings a inside plain _ known name binds)
  · refine fun closed => ⟨closed.joined, fun a inside plain known held name binds => ?_⟩
    obtain ⟨-, inputs, determines, bound⟩ := Atom.determines_of_binding binds
    exact closed.determined a inside plain inputs name determines
      fun t input v within => held _ (bound t input v within)

theorem nodup_distinctNames : (names : List String) → (distinctNames names).Nodup
  | [] => .nil
  | first :: rest => by
    rw [distinctNames, List.nodup_cons]
    exact ⟨by simp, (nodup_distinctNames rest).filter _⟩

namespace Rule

variable {atoms : List Atom} {bound result : List String}

theorem nodup_bindPass (distinct : bound.Nodup) : (bindPass atoms bound).Nodup := by
  unfold bindPass
  induction atoms generalizing bound with
  | nil => exact distinct
  | cons a rest ih =>
    refine ih (List.nodup_append.mpr ⟨distinct, Option.toList_nodup _, ?_⟩)
    rintro old member new binds rfl
    exact (Atom.determines_of_binding (Option.mem_toList.mp binds)).1 member

theorem Saturates.nodup (saturates : Saturates atoms bound result) (distinct : bound.Nodup) :
    result.Nodup := by
  induction saturates with
  | done => exact distinct
  | again _ _ ih => exact ih (nodup_bindPass distinct)

theorem nodup_boundNames (r : Rule) : r.boundNames.Nodup :=
  r.saturates_boundNames.nodup (nodup_distinctNames _)

theorem boundNames_isLeast (r : Rule) :
    IsLeast {names | BindingClosed r.body names} {name | name ∈ r.boundNames} := by
  refine ⟨bindingClosed_iff.mpr ?_, fun names closed name found => ?_⟩
  · simp only [Set.mem_ofPred_eq, mem_boundNames]
    exact binds_closed r.body
  · exact Closed.binds (bindingClosed_iff.mp closed) (mem_boundNames.mp found)

theorem boundNames_perm {r r' : Rule} (reordered : r'.body.Perm r.body) :
    r'.boundNames.Perm r.boundNames := by
  refine (List.perm_ext_iff_of_nodup r'.nodup_boundNames r.nodup_boundNames).mpr fun name => ?_
  rw [mem_boundNames, mem_boundNames]
  exact ⟨Binds.mono fun a inside _ => reordered.subset inside,
    Binds.mono fun a inside _ => reordered.symm.subset inside⟩

end Rule

namespace Term

-- Neither a Skolem term nor an invented variable.
def IsGiven : Term → Prop
  | .variable v => v.skolem = none
  | .constant _ _ => True
  | .skolem _ _ => False

instance : (t : Term) → Decidable t.IsGiven
  | .variable v => inferInstanceAs (Decidable (v.skolem = none))
  | .constant _ _ => isTrue trivial
  | .skolem _ _ => isFalse nofun

theorem IsGiven.skolem_none {t : Term} (given : t.IsGiven) : ∀ v ∈ t.vars, v.skolem = none := by
  cases t with
  | «variable» v => exact List.forall_mem_singleton.mpr given
  | constant type value => exact List.forall_mem_nil _
  | skolem function args => exact given.elim

theorem IsGiven.name?_eq {t : Term} (given : t.IsGiven) :
    RowSemantics.name? t = some name ↔ ∃ v ∈ t.vars, v.name = name := by
  cases t with
  | «variable» v =>
    have plain : v.skolem = none := given
    simp [RowSemantics.name?, plain, vars]
  | constant type value => simp [RowSemantics.name?, vars]
  | skolem function args => exact given.elim

end Term

namespace Lowering

open RowSemantics (name?)
open Sql (Expr)

variable {ctx : Context} {bindings bindings' : Bindings} {ps : List Place} {es : List Expr}
  {guard : Option Guard} {s s' : Scope} {position : Nat} {a : Atom}

section Joins

theorem has_bindPlaces : Has (bindPlaces bindings ps).1 name ↔
    Has bindings name ∨ ∃ p ∈ ps, name? p.term = some name := by
  induction ps generalizing bindings with
  | nil => simp [bindPlaces]
  | cons p rest ih =>
    rw [bindPlaces_cons]
    simp only [List.mem_cons, exists_eq_or_imp]
    cases binds : RowSemantics.binder? bindings p.term with
    | some x =>
      rw [ih, has_insert, (RowSemantics.binder?_eq_some.mp binds).1, Option.some.injEq, or_assoc]
      exact or_left_comm
    | none =>
      -- What does not bind its name has it bound already.
      have known : name? p.term = some name → Has bindings name := fun named => by
        by_contra unbound
        have fresh := RowSemantics.binder?_eq_some.mpr ⟨named, Bool.eq_false_iff.mpr unbound⟩
        cases binds.symm.trans fresh
      rw [ih]
      tauto

theorem optionalPlaces_bindings (ran : optionalPlaces ctx bindings ps = .ok (bindings', es)) :
    bindings' = (bindPlaces bindings ps).1 := by
  induction ps generalizing bindings es with
  | nil =>
    cases ran
    rfl
  | cons p rest ih =>
    rw [show p :: rest = [p] ++ rest from rfl, bindPlaces_append]
    unfold optionalPlaces at ran
    split at ran
    · rename_i between placed
      rw [placed]
      exact ih ran
    · rename_i between _ placed
      obtain ⟨here, -, ran⟩ := Compiled.bind_ok.mp ran
      obtain ⟨⟨last, others⟩, later, ran⟩ := Compiled.bind_ok.mp ran
      cases ran
      rw [placed]
      exact ih later

theorem has_joinAtom (ran : joinAtom ctx guard s position a = .ok s') : Has s'.bindings name ↔
    Has s.bindings name ∨ ∃ t ∈ a.args, name? t = some name := by
  unfold joinAtom at ran
  split at ran
  · cases ran
  obtain ⟨r, found, ran⟩ := Compiled.bind_ok.mp ran
  obtain ⟨guarded, -, ran⟩ := Compiled.bind_ok.mp ran
  have terms : (placesOf r (aliasName s.aliases) a.args).map Place.term = a.args := by
    rw [placesOf, List.map_map]
    exact List.map_fst_zip (Nat.le_of_eq (relationOf_ok found).2)
  have places : (∃ p ∈ placesOf r (aliasName s.aliases) a.args, name? p.term = some name) ↔
      ∃ t ∈ a.args, name? t = some name := by
    conv_rhs => rw [← terms]
    simp
  rw [← places]
  dsimp only at ran
  split at ran
  · obtain ⟨⟨last, on⟩, settled, ran⟩ := Compiled.bind_ok.mp ran
    cases ran
    exact optionalPlaces_bindings settled ▸ has_bindPlaces
  · cases ran
    exact has_bindPlaces

theorem has_joinAtoms (ran : joinAtoms ctx guard s position body = .ok s') : Has s'.bindings name ↔
    Has s.bindings name ∨ ∃ a ∈ body, a.isPositive = true ∧ ∃ t ∈ a.args, name? t = some name := by
  induction body generalizing s position with
  | nil =>
    cases ran
    simp
  | cons a rest ih =>
    simp only [List.mem_cons, exists_eq_or_imp]
    unfold joinAtoms at ran
    split at ran
    · rename_i positive
      obtain ⟨middle, here, ran⟩ := Compiled.bind_ok.mp ran
      rw [ih ran, has_joinAtom here, or_assoc]
      simp [positive]
    · rename_i other
      rw [ih ran]
      simp [other]

theorem has_joined (given : ∀ a ∈ body, ∀ t ∈ a.args, t.IsGiven)
    (joined : joinAtoms ctx guard { bindings := .empty, aliases := 0 } 0 body = .ok s) :
    Has s.bindings name ↔ ∃ a ∈ body, a.isPositive = true ∧ name ∈ a.variableNames := by
  rw [has_joinAtoms joined, or_iff_right (by simp [Has, NameMap.contains])]
  refine exists_congr fun a => and_congr_right fun inside => and_congr_right fun _ => ?_
  rw [Atom.mem_variableNames]
  exact exists_congr fun t => and_congr_right fun arg => (given a inside t arg).name?_eq

end Joins

section Builtins

variable {atoms left : List Atom} {conditions conditions' : List Expr} {names : String → Prop}

theorem builtinPass_within (closed : Closed body names)
    (listed : ∀ a ∈ atoms, a ∈ body ∧ a.negated = false) (held : ∀ n, Has bindings n → names n)
    (ran : builtinPass ctx atoms bindings conditions = .ok (left, bindings', conditions')) :
    ∀ n, Has bindings' n → names n := by
  induction atoms generalizing bindings conditions left with
  | nil =>
    cases ran
    exact held
  | cons a rest ih =>
    obtain ⟨⟨inside, plain⟩, listed⟩ := List.forall_mem_cons.mp listed
    unfold builtinPass at ran
    split at ran
    · exact ih listed held ran
    split at ran
    · rename_i name binds
      obtain ⟨b, -, ran⟩ := Compiled.bind_ok.mp ran
      refine ih listed (fun n known => ?_) ran
      rcases has_insert.mp known with rfl | old
      · obtain ⟨-, inputs, determines, bound⟩ := Atom.determines_of_binding binds
        exact closed.determined a inside plain inputs _ determines
          fun t input v within => held _ (mem_keys_iff.mp (bound t input v within))
      · exact held n old
    · split at ran
      · cases ran
      split at ran
      · obtain ⟨e, -, ran⟩ := Compiled.bind_ok.mp ran
        exact ih listed held ran
      · obtain ⟨⟨others, after, grown⟩, later, ran⟩ := Compiled.bind_ok.mp ran
        cases ran
        exact ih listed held later

theorem builtinPasses_within {passes : Nat} (closed : Closed body names)
    (computes : ∀ a ∈ atoms, ∃ op, Computes a op)
    (listed : ∀ a ∈ atoms, a ∈ body ∧ a.negated = false) (held : ∀ n, Has bindings n → names n)
    (ran : builtinPasses ctx passes atoms bindings conditions = .ok (bindings', conditions')) :
    (∀ n, Has bindings' n → names n) ∧ (∀ n, Has bindings n → Has bindings' n) ∧
      ∀ a ∈ atoms, AllBound a bindings' := by
  induction passes generalizing atoms bindings conditions with
  | zero =>
    cases atoms with
    | nil =>
      cases ran
      exact ⟨held, fun _ => id, List.forall_mem_nil _⟩
    | cons first rest => cases ran
  | succ passes ih =>
    cases atoms with
    | nil =>
      cases ran
      exact ⟨held, fun _ => id, List.forall_mem_nil _⟩
    | cons first rest =>
      unfold builtinPasses at ran
      obtain ⟨left, between, grown, once, passed⟩ :=
        @builtinPass_total ctx bindings (first :: rest) conditions computes
      have within := builtinPass_within closed listed held once
      rw [once] at ran
      obtain ⟨-, ran⟩ : left.length ≠ (first :: rest).length ∧
          builtinPasses ctx passes left between grown = .ok (bindings', conditions') := by
        by_cases stuck : left.length = (first :: rest).length
        · cases (if_pos stuck).symm.trans ran
        · exact ⟨stuck, (if_neg stuck).symm.trans ran⟩
      obtain ⟨inside, kept, bound⟩ := ih (fun a member => computes a (passed.within member))
        (fun a member => listed a (passed.within member)) within ran
      refine ⟨inside, fun n known => kept n (passed.kept n known), fun a member => ?_⟩
      rcases passed.settled a member with later | now
      · exact bound a later
      · exact now.mono kept

end Builtins

def settleBuiltins (ctx : Context) (body : List Atom) (joined : Scope) :
    Compiled (Bindings × List Expr) :=
  let builtins := body.filter fun a => !a.negated && a.builtin?.isSome
  builtinPasses ctx (builtins.length + 1) builtins joined.bindings joined.conditions

theorem lowerBody_settles : lowerBody ctx guard body = (do
    let joined ← joinAtoms ctx guard { bindings := .empty, aliases := 0 } 0 body
    let (bindings, conditions) ← settleBuiltins ctx body joined
    let joins ← allConditions ctx bindings false joined.pending
    let (negations, aliases) ← negatedConditions ctx bindings joined.aliases (body.filter (·.negated))
    .ok { joined with
      bindings := bindings
      conditions := conditions ++ joins ++ negations
      pending := []
      aliases := aliases }) := rfl

theorem settleBuiltins_exact (shaped : ∀ a ∈ body, ∀ op, a.builtin? = some op → a.args.length = op.arity)
    (given : ∀ a ∈ body, ∀ t ∈ a.args, t.IsGiven)
    (joined : joinAtoms ctx guard { bindings := .empty, aliases := 0 } 0 body = .ok s) :
    ((∃ cause, settleBuiltins ctx body s = .error cause) ↔
      ∃ a ∈ body, a.negated = false ∧ a.builtin?.isSome = true ∧
        ∃ name ∈ a.variableNames, ¬ Binds body name) ∧
    ∀ bindings conditions, settleBuiltins ctx body s = .ok (bindings, conditions) →
      ∀ name, Has bindings name ↔ Binds body name := by
  have closed := binds_closed body
  have start : ∀ n, Has s.bindings n → Binds body n := fun n known => by
    obtain ⟨a, inside, positive, mentioned⟩ := (has_joined given joined).mp known
    exact closed.joined a inside positive n mentioned
  have listed : ∀ a ∈ body.filter (fun a => !a.negated && a.builtin?.isSome),
      a ∈ body ∧ a.negated = false := fun a inside => by
    obtain ⟨member, own⟩ := List.mem_filter.mp inside
    exact ⟨member, by simpa using (Bool.and_eq_true_iff.mp own).1⟩
  have computes : ∀ a ∈ body.filter (fun a => !a.negated && a.builtin?.isSome),
      ∃ op, Computes a op := fun a inside => by
    obtain ⟨member, own⟩ := List.mem_filter.mp inside
    obtain ⟨op, called⟩ := Option.isSome_iff_exists.mp (Bool.and_eq_true_iff.mp own).2
    exact ⟨op, called, shaped a member op called, fun t arg => (given a member t arg).skolem_none⟩
  have builtin {a : Atom} (inside : a ∈ body) (plain : a.negated = false)
      (called : a.builtin?.isSome = true) :
      a ∈ body.filter fun a => !a.negated && a.builtin?.isSome :=
    List.mem_filter.mpr ⟨inside, by simp [plain, called]⟩
  have joins : ∀ a ∈ body, a.isPositive = true → AllBound a s.bindings :=
    fun a inside positive name mentioned => (has_joined given joined).mpr ⟨a, inside, positive, mentioned⟩
  refine ⟨⟨?_, ?_⟩, fun bindings conditions ran name => ?_⟩
  · rintro ⟨cause, failed⟩
    by_contra none
    push Not at none
    obtain ⟨bindings, conditions, ran, -⟩ := @builtinPasses_total ctx s.bindings _ s.conditions body _
      computes (Nat.le_succ _) joins (fun a inside plain called => .inl (builtin inside plain called))
      fun a inside name mentioned => by
        obtain ⟨member, own⟩ := List.mem_filter.mp inside
        exact none a member (listed a inside).2 (Bool.and_eq_true_iff.mp own).2 name mentioned
    cases ran.symm.trans failed
  · rintro ⟨a, inside, plain, called, name, mentioned, outside⟩
    cases ran : settleBuiltins ctx body s with
    | error cause => exact ⟨cause, rfl⟩
    | ok settled =>
      obtain ⟨within, -, bound⟩ := builtinPasses_within closed computes listed start ran
      exact absurd (within name (bound a (builtin inside plain called) name mentioned)) outside
  · obtain ⟨within, kept, bound⟩ := builtinPasses_within closed computes listed start ran
    refine ⟨within name, Closed.binds (closed_of_stuck (fun a inside positive => ?_)
      fun a inside plain called => .inr (bound a (builtin inside plain called)))⟩
    exact (joins a inside positive).mono kept

end Lowering

open Lowering in
theorem Rule.boundNames_exact (r : Rule)
    (shaped : ∀ a ∈ r.body, ∀ op, a.builtin? = some op → a.args.length = op.arity) :
    Saturates (r.body.filter (!·.negated)) r.joinedNames r.boundNames ∧ r.boundNames.Nodup ∧
    IsLeast {names | BindingClosed r.body names} {name | name ∈ r.boundNames} ∧
    (∀ r' : Rule, r'.body.Perm r.body → r'.boundNames.Perm r.boundNames) ∧
    ((∀ a ∈ r.body, ∀ t ∈ a.args, t.IsGiven) → ∀ (ctx : Context) (guard : Option Guard) (joined : Scope),
      joinAtoms ctx guard { bindings := .empty, aliases := 0 } 0 r.body = .ok joined →
      ((∃ cause, settleBuiltins ctx r.body joined = .error cause) ↔
        ∃ a ∈ r.body, a.negated = false ∧ a.builtin?.isSome = true ∧
          ∃ name ∈ a.variableNames, name ∉ r.boundNames) ∧
      ∀ bindings conditions, settleBuiltins ctx r.body joined = .ok (bindings, conditions) →
        ∀ name, bindings.contains name = true ↔ name ∈ r.boundNames) := by
  refine ⟨r.saturates_boundNames, r.nodup_boundNames, r.boundNames_isLeast,
    fun r' => boundNames_perm, fun given ctx guard joined ran => ?_⟩
  simp only [mem_boundNames]
  exact settleBuiltins_exact shaped given ran

-- Each pass over the body binds one more name, and the equations bind from either side.
def settlingRule : Rule :=
  .ofHead "m" (.ofRelation "T" [.var "y"])
    [.ofBuiltin .eq [.var "y", .var "z"], .ofBuiltin .greatest [.var "z", .var "x", .var "w"],
      .ofBuiltin .eq [.constant none (.integer 3), .var "w"], .ofRelation "R" [.var "x"]]

def settlingContext : Lowering.Context where
  catalog := { relations := .ofList (["R", "T"].map fun name =>
    (name, { name, columns := [⟨"a", .integer, false⟩] })) }
  config := {}
  rule := settlingRule
  iteration := .literal 0

open Lowering in
theorem boundNames_exact_settling :
    (∀ a ∈ settlingRule.body, ∀ op, a.builtin? = some op → a.args.length = op.arity) ∧
    (∀ a ∈ settlingRule.body, ∀ t ∈ a.args, t.IsGiven) ∧
    settlingRule.boundNames = ["x", "w", "z", "y"] ∧
    IsLeast {names | BindingClosed settlingRule.body names} {name | name ∈ settlingRule.boundNames} ∧
    ∃ joined bindings conditions,
      joinAtoms settlingContext none { bindings := .empty, aliases := 0 } 0 settlingRule.body = .ok joined ∧
      settleBuiltins settlingContext settlingRule.body joined = .ok (bindings, conditions) ∧
      ∀ name, bindings.contains name = true ↔ name ∈ settlingRule.boundNames := by
  have shaped : ∀ a ∈ settlingRule.body, ∀ op ∈ a.builtin?, a.args.length = op.arity := by decide
  have given : ∀ a ∈ settlingRule.body, ∀ t ∈ a.args, t.IsGiven := by decide
  obtain ⟨-, -, least, -, settles⟩ := Rule.boundNames_exact settlingRule shaped
  obtain ⟨joined, ran⟩ : ∃ joined, joinAtoms settlingContext none
      { bindings := .empty, aliases := 0 } 0 settlingRule.body = .ok joined := ⟨_, rfl⟩
  obtain ⟨fails, binds⟩ := settles given settlingContext none joined ran
  refine ⟨shaped, given, rfl, least, joined, ?_⟩
  cases settled : settleBuiltins settlingContext settlingRule.body joined with
  | ok result => exact ⟨result.1, result.2, ran, rfl, binds _ _ settled⟩
  | error cause =>
    have named : ∀ a ∈ settlingRule.body, ∀ name ∈ a.variableNames, name ∈ settlingRule.boundNames := by
      decide
    obtain ⟨a, inside, -, -, name, mentioned, outside⟩ := fails.mp ⟨cause, settled⟩
    exact absurd (named a inside name mentioned) outside

end PeerExchange
