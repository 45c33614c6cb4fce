import PeerExchange.Proofs.ReplacedTerms

namespace PeerExchange

open Sql (BinaryOp Database Row Typed Value)

namespace RowSemantics

variable {ctx : Lowering.Context} {env env' final final' : Env} {x y : String} {e t : Term}
  {type : ColumnType} {body : List Atom}

section Scheduling

variable {names names' : List String} {atoms before after : List Atom} {a : Atom} {t : Term}

theorem schedule_succ {passes : Nat} : schedule (passes + 1) atoms names =
    (pass atoms names).1 ++ schedule passes (pass atoms names).2.1 (pass atoms names).2.2 := by
  cases atoms with
  | nil => cases passes <;> rfl
  | cons a rest => rfl

def Step.replace (x : String) (e : Term) (s : Step) : Step :=
  { s with atom := s.atom.substitute (.single x e) }

-- Names that are bound in a body and in the body with a term in place of a variable.
structure Renamed (x : String) (e : Term) (names names' : List String) : Prop where
  others : ∀ y, y ≠ x → names'.contains y = names.contains y
  own : names.contains x = true
  image : ∀ v ∈ e.vars, names'.contains v.name = true

namespace Renamed

variable (renamed : Renamed x e names names')
include renamed

theorem cons : Renamed x e (y :: names) (y :: names') where
  others z differs := by rw [List.contains_cons, List.contains_cons, renamed.others z differs]
  own := by rw [List.contains_cons, renamed.own, Bool.or_true]
  image v inside := by rw [List.contains_cons, renamed.image v inside, Bool.or_true]

theorem all_vars {P : Variable → Bool} (t : Term) :
    ((t.substitute (.single x e)).vars.all fun v => names'.contains v.name || P v) =
      t.vars.all fun v => names.contains v.name || P v := by
  rw [Bool.eq_iff_iff, List.all_eq_true, List.all_eq_true]
  have image (w : Variable) : (∀ v ∈ (((Substitution.single x e).get? w.name).getD (.variable w)).vars,
      (names'.contains v.name || P v) = true) ↔ (names.contains w.name || P w) = true := by
    by_cases same : x = w.name
    · rw [Substitution.get?_single, if_pos same, Option.getD_some, ← same, renamed.own, Bool.true_or]
      exact iff_of_true (fun v inside => by rw [renamed.image v inside, Bool.true_or]) rfl
    · rw [Substitution.get?_single, if_neg same, Option.getD_none, ← renamed.others w.name (Ne.symm same)]
      exact List.forall_mem_singleton
  constructor
  · exact fun all w inside => (image w).mp fun v within => all v (Term.mem_vars_bind.mpr ⟨w, inside, within⟩)
  · intro all v inside
    obtain ⟨w, member, within⟩ := Term.mem_vars_bind.mp inside
    exact (image w).mpr (all w member) v within

theorem isBound_replaced (t : Term) :
    Atom.isBound names' (t.substitute (.single x e)) = Atom.isBound names t := by
  simpa [Atom.isBound] using @all_vars _ _ _ _ renamed (fun _ => false) t

theorem free?_replaced (t : Term) :
    Atom.free? names' (t.substitute (.single x e)) = Atom.free? names t := by
  cases t with
  | «variable» v =>
    by_cases same : v.name = x
    · rw [Term.substitute_own same]
      have bound : Atom.free? names (.variable v) = none := by
        rw [Atom.free?, same, renamed.own, if_pos rfl]
      rw [bound]
      cases e with
      | «variable» w => rw [Atom.free?, renamed.image w List.mem_cons_self, if_pos rfl]
      | constant own value => rfl
      | skolem function args => rfl
    · rw [Term.substitute_other same, Atom.free?, Atom.free?, renamed.others _ same]
  | constant own value => rfl
  | skolem function args =>
    rw [Term.substitute_skolem]
    rfl

theorem binding?_replaced (a : Atom) :
    (a.substitute (.single x e)).binding? names' = a.binding? names := by
  have called : (a.substitute (.single x e)).builtin? = a.builtin? := rfl
  have args : (a.substitute (.single x e)).args = a.args.map (Term.substitute (.single x e)) := rfl
  have inputs (rest : List Term) : (rest.map (Term.substitute (.single x e))).all (Atom.isBound names') =
      rest.all (Atom.isBound names) := by
    rw [List.all_map]
    exact congrArg rest.all (funext renamed.isBound_replaced)
  unfold Atom.binding?
  rw [called, args]
  cases a.args with
  | nil => rfl
  | cons first rest =>
    cases rest with
    | nil => simp [renamed.free?_replaced]
    | cons second more =>
      simp only [List.map_cons, renamed.free?_replaced, renamed.isBound_replaced]
      rw [← List.map_cons, inputs]

omit renamed in
theorem pass_replaced (renamed : Renamed x e names names') :
    (pass (atoms.map (Atom.substitute (.single x e))) names').1 =
        (pass atoms names).1.map (Step.replace x e) ∧
      (pass (atoms.map (Atom.substitute (.single x e))) names').2.1 =
        (pass atoms names).2.1.map (Atom.substitute (.single x e)) ∧
      Renamed x e (pass atoms names).2.2
        (pass (atoms.map (Atom.substitute (.single x e))) names').2.2 := by
  induction atoms generalizing names names' with
  | nil => exact ⟨rfl, rfl, renamed⟩
  | cons a rest ih =>
    have called : (a.substitute (.single x e)).builtin? = a.builtin? := rfl
    have ready : ((a.substitute (.single x e)).args.all fun t => t.vars.all fun v =>
        names'.contains v.name || v.skolem.isSome) =
        a.args.all fun t => t.vars.all fun v => names.contains v.name || v.skolem.isSome := by
      have args : (a.substitute (.single x e)).args = a.args.map (Term.substitute (.single x e)) := rfl
      rw [args, List.all_map]
      exact congrArg a.args.all (funext fun t => renamed.all_vars t)
    rw [List.map_cons, pass, pass, called, renamed.binding?_replaced, ready]
    split
    · exact ih renamed
    · split
      · obtain ⟨steps, left, later⟩ := ih renamed.cons
        exact ⟨congrArg (_ :: ·) steps, left, later⟩
      · obtain ⟨steps, left, later⟩ := ih renamed
        split
        · exact ⟨congrArg (_ :: ·) steps, left, later⟩
        · exact ⟨steps, congrArg (_ :: ·) left, later⟩

omit renamed in
theorem schedule_replaced {passes : Nat} (renamed : Renamed x e names names') :
    schedule passes (atoms.map (Atom.substitute (.single x e))) names' =
      (schedule passes atoms names).map (Step.replace x e) := by
  induction passes generalizing atoms names names' with
  | zero => cases atoms <;> rfl
  | succ passes ih =>
    obtain ⟨steps, left, later⟩ := @pass_replaced _ _ _ _ atoms renamed
    rw [schedule_succ, schedule_succ, List.map_append, steps, left, ih later]

end Renamed

theorem pass_append : pass (before ++ after) names =
    ((pass before names).1 ++ (pass after (pass before names).2.2).1,
      (pass before names).2.1 ++ (pass after (pass before names).2.2).2.1,
      (pass after (pass before names).2.2).2.2) := by
  induction before generalizing names with
  | nil => rfl
  | cons a rest ih =>
    rw [List.cons_append, pass, pass]
    split
    · exact ih
    · split
      · rw [ih]
        rfl
      · split
        · rw [ih]
          rfl
        · rw [ih]
          rfl

theorem left_sublist : List.Sublist (pass atoms names).2.1 atoms := by
  induction atoms generalizing names with
  | nil => exact .refl _
  | cons a rest ih =>
    rw [pass]
    split
    · exact ih.cons _
    · split
      · exact ih.cons _
      · split
        · exact ih.cons _
        · exact ih.cons_cons _

theorem schedule_stuck (stuck : (pass atoms names).2.1.length = atoms.length) (passes : Nat) :
    pass atoms names = ([], atoms, names) ∧ schedule passes atoms names = [] := by
  have left := left_sublist.eq_of_length stuck
  have none : (pass atoms names).1 = [] := by
    have counts := (@pass_perm names atoms).length_eq
    rw [List.length_append, List.length_map, left] at counts
    have bound := List.length_filter_le (fun a : Atom => a.builtin?.isSome) atoms
    exact List.length_eq_zero_iff.mp (by omega)
  have kept : (pass atoms names).2.2 = names := by
    rw [pass_ordered.2, none]
    rfl
  have whole : pass atoms names = ([], atoms, names) :=
    Prod.ext none (Prod.ext left kept)
  refine ⟨whole, ?_⟩
  induction passes with
  | zero => cases atoms <;> rfl
  | succ passes ih =>
    rw [schedule_succ, whole]
    exact ih

theorem schedule_enough {passes : Nat} (enough : atoms.length ≤ passes) :
    schedule (passes + 1) atoms names = schedule passes atoms names := by
  induction passes generalizing atoms names with
  | zero =>
    obtain rfl := List.length_eq_zero_iff.mp (Nat.le_zero.mp enough)
    rfl
  | succ passes ih =>
    by_cases stuck : (pass atoms names).2.1.length = atoms.length
    · rw [(schedule_stuck stuck _).2, (schedule_stuck stuck _).2]
    · have shorter := Nat.lt_of_le_of_ne (@left_sublist names atoms).length_le stuck
      rw [schedule_succ, ih (Nat.le_of_lt_succ (Nat.lt_of_lt_of_le shorter enough))]
      exact schedule_succ.symm

-- An equality of what is bound is tested in the first pass, and the rest is settled as without it.
theorem schedule_equation {equation : Atom} (called : equation.builtin? = some .eq)
    (free : equation.binding? (pass before names).2.2 = none)
    (ready : (equation.args.all fun t => t.vars.all fun v =>
      (pass before names).2.2.contains v.name || v.skolem.isSome) = true) :
    ∃ first second,
      schedule ((before ++ equation :: after).length + 1) (before ++ equation :: after) names =
        first ++ ⟨equation, .eq, none⟩ :: second ∧
      schedule ((before ++ after).length + 1) (before ++ after) names = first ++ second := by
  have whole : pass (before ++ equation :: after) names =
      ((pass before names).1 ++ ⟨equation, .eq, none⟩ :: (pass after (pass before names).2.2).1,
        (pass before names).2.1 ++ (pass after (pass before names).2.2).2.1,
        (pass after (pass before names).2.2).2.2) := by
    rw [pass_append, pass, called]
    simp only [free, ready, if_true]
  have length : (before ++ equation :: after).length = (before ++ after).length + 1 := by
    simp only [List.length_append, List.length_cons]
    omega
  have fewer : ((pass before names).2.1 ++ (pass after (pass before names).2.2).2.1).length ≤
      (before ++ after).length := by
    rw [List.length_append, List.length_append]
    exact Nat.add_le_add left_sublist.length_le left_sublist.length_le
  refine ⟨(pass before names).1, (pass after (pass before names).2.2).1 ++
    schedule (before ++ after).length ((pass before names).2.1 ++
      (pass after (pass before names).2.2).2.1) (pass after (pass before names).2.2).2.2, ?_, ?_⟩
  · rw [schedule_succ, whole, length, schedule_enough fewer]
    simp only [List.append_assoc, List.cons_append]
  · rw [schedule_succ, pass_append, List.append_assoc]

end Scheduling

section Settling

variable {names : List String} {steps more : List Step} {s : Step} {args : List Term}

theorem settle_append : Settle ctx final env (steps ++ more) ↔
    ∃ between, Settle ctx between env steps ∧ Settle ctx final between more := by
  induction steps generalizing env with
  | nil =>
    constructor
    · exact fun settle => ⟨env, rfl, settle⟩
    · rintro ⟨_, rfl, settle⟩
      exact settle
  | cons s rest ih =>
    rw [List.cons_append, Settle]
    simp only [Settle]
    split
    · constructor
      · rintro ⟨m, meant, settle⟩
        obtain ⟨between, first, second⟩ := ih.mp settle
        exact ⟨between, ⟨m, meant, first⟩, second⟩
      · rintro ⟨between, ⟨m, meant, first⟩, second⟩
        exact ⟨m, meant, ih.mpr ⟨between, first, second⟩⟩
    · constructor
      · rintro ⟨tested, settle⟩
        obtain ⟨between, first, second⟩ := ih.mp settle
        exact ⟨between, ⟨tested, first⟩, second⟩
      · rintro ⟨between, ⟨tested, first⟩, second⟩
        exact ⟨tested, ih.mpr ⟨between, first, second⟩⟩

def Spared (x : String) (e : Term) (args : List Term) : Prop :=
  ∀ t ∈ args, t.Names x → ∃ w, e = .variable w

section Steps

variable (replaced : Replaced type x e env env')
include replaced

theorem denote_spared {t : Term} (spared : t.Names x → ∃ w, e = .variable w) :
    Option.Rel (Resembles none) (denote ctx env t)
      (denote (ctx.joining body x e) env' (t.substitute (.single x e))) := by
  obtain ⟨own, other⟩ := @denote_replaced ctx env env' x e type body replaced t
  by_cases names : t.Names x
  · obtain ⟨m, m', here, there, like⟩ := own names
    obtain ⟨w, rfl⟩ := spared names
    rw [here, there]
    exact .some like
  · exact other names

omit replaced in
theorem mapM_values (f : Term → Option Meaning) : (args.mapM f).map (List.map (·.value.value)) =
    args.mapM fun t => (f t).map (·.value.value) := by
  induction args with
  | nil => rfl
  | cons t rest ih =>
    rw [List.mapM_cons, List.mapM_cons, ← ih]
    cases f t with
    | none => rfl
    | some m => cases rest.mapM f <;> rfl

theorem functionMeaning_replaced (op : Builtin) : functionMeaning ctx env op args =
    functionMeaning (ctx.joining body x e) env' op (args.map (Term.substitute (.single x e))) := by
  have function (ctx : Lowering.Context) (env : Env) (args : List Term) :
      functionMeaning ctx env op args = (args.mapM fun t => (denote ctx env t).map (·.value.value)).map
        fun values => ⟨⟨(Lowering.functionOf op).apply values, none⟩, none⟩ := by
    rw [functionMeaning, ← mapM_values, Option.map_map]
    rfl
  have values : (fun t => (denote ctx env t).map (·.value.value)) = fun t =>
      (denote (ctx.joining body x e) env' (t.substitute (.single x e))).map (·.value.value) := by
    funext t
    obtain ⟨own, other⟩ := @denote_replaced ctx env env' x e type body replaced t
    by_cases names : t.Names x
    · obtain ⟨m, m', here, there, like⟩ := own names
      rw [here, there, Option.map_some, Option.map_some, like.value]
    · rcases rel_cases (other names) with ⟨here, there⟩ | ⟨_, _, here, there, like⟩
      · rw [here, there]
      · rw [here, there, Option.map_some, Option.map_some, like.value]
  rw [function, function, values, List.mapM_map]
  rfl

theorem sides_replaced (spared : Spared x e s.atom.args) : (sides ctx env s).map
      (fun both => (both.1.value, both.2.value)) =
    (sides (ctx.joining body x e) env' (s.replace x e)).map
      fun both => (both.1.value, both.2.value) := by
  have args : (s.replace x e).atom.args = s.atom.args.map (Term.substitute (.single x e)) := rfl
  have op : (s.replace x e).op = s.op := rfl
  unfold sides
  rw [args, op]
  cases shape : s.atom.args with
  | nil => rfl
  | cons first rest =>
    rw [shape] at spared
    obtain ⟨onFirst, onRest⟩ := List.forall_mem_cons.mp spared
    simp only [List.map_cons]
    rcases rel_cases (@denote_spared ctx env env' x e type body replaced first onFirst) with
      ⟨here, there⟩ | ⟨m, m', here, there, like⟩
    · rw [here, there]
      rfl
    · rw [here, there]
      simp only [Option.bind_eq_bind, Option.bind_some]
      split
      · rw [@functionMeaning_replaced ctx env env' x e type body rest replaced s.op]
        cases functionMeaning (ctx.joining body x e) env' s.op
          (rest.map (Term.substitute (.single x e))) with
        | none => rfl
        | some right => simp [like.value_eq]
      · cases rest with
        | nil => rfl
        | cons second more =>
          simp only [List.map_cons, List.head?_cons, Option.bind_some]
          rcases rel_cases (@denote_spared ctx env env' x e type body replaced second
            (onRest second List.mem_cons_self)) with ⟨here, there⟩ | ⟨n, n', here, there, alike⟩
          · rw [here, there]
            rfl
          · rw [here, there]
            simp [like.value_eq, alike.value_eq]

theorem tested_replaced (spared : Spared x e s.atom.args) :
    Tested ctx env s ↔ Tested (ctx.joining body x e) env' (s.replace x e) := by
  have tested (ctx : Lowering.Context) (env : Env) (s : Step) : Tested ctx env s ↔
      ∃ both ∈ (sides ctx env s).map (fun both => (both.1.value, both.2.value)),
        Holds (Lowering.comparisonOf s.op) both.1 both.2 := by
    simp [Tested]
  rw [tested, tested, sides_replaced replaced spared]
  rfl

theorem computed_replaced (spared : Spared x e s.atom.args) (other : y ≠ x)
    (apart : ∀ w, e = .variable w → w.name ≠ y) :
    Option.Rel (Resembles none) (computed ctx env s y)
      (computed (ctx.joining body x e) env' (s.replace x e) y) := by
  have args : (s.replace x e).atom.args = s.atom.args.map (Term.substitute (.single x e)) := rfl
  have op : (s.replace x e).op = s.op := rfl
  unfold computed
  rw [args, op, ← List.map_tail,
    ← @functionMeaning_replaced ctx env env' x e type body s.atom.args.tail replaced s.op]
  split
  · cases shape : functionMeaning ctx env s.op s.atom.args.tail with
    | none => exact .none
    | some m =>
      obtain ⟨ms, -, rfl⟩ := Option.map_eq_some_iff.mp shape
      exact .some (.self (fits_unmarked rfl))
  · rcases shape : s.atom.args with _ | ⟨left, _ | ⟨right, more⟩⟩
    · exact .none
    · exact .none
    · rw [shape] at spared
      have named : (left.substitute (.single x e)).asVariable?.any (·.name = y) =
          left.asVariable?.any (·.name = y) := by
        cases left with
        | «variable» v =>
          by_cases same : v.name = x
          · rw [Term.substitute_own same]
            cases e with
            | «variable» w => simp [Term.asVariable?, apart w rfl, same, other.symm]
            | constant own value => simp [Term.asVariable?, same, other.symm]
            | skolem function args => simp [Term.asVariable?, same, other.symm]
          · rw [Term.substitute_other same]
        | constant own value => rfl
        | skolem function args =>
          rw [Term.substitute_skolem]
          rfl
      simp only [List.map_cons, named]
      split
      · exact denote_spared replaced (spared right (by simp))
      · exact denote_spared replaced (spared left (by simp))

end Steps

theorem settle_replaced (ordered : Ordered names steps) (named : ∀ y, names.contains y = env.contains y)
    (spared : ∀ s ∈ steps, Spared x e s.atom.args) (replaced : Replaced type x e env env') :
    (∀ final, Settle ctx final env steps → ∃ final', Replaced type x e final final' ∧
      Settle (ctx.joining body x e) final' env' (steps.map (Step.replace x e))) ∧
    ∀ final', Settle (ctx.joining body x e) final' env' (steps.map (Step.replace x e)) →
      ∃ final, Replaced type x e final final' ∧ Settle ctx final env steps := by
  induction ordered generalizing env env' with
  | nil => exact ⟨fun _ same => ⟨env', same ▸ replaced, rfl⟩, fun _ same => ⟨env, same ▸ replaced, rfl⟩⟩
  | @binds names a op y rest builtin binds later ih =>
    obtain ⟨here, spared⟩ := List.forall_mem_cons.mp spared
    have fresh : env.contains y = false := by rw [← named, (binding?_cases builtin binds).1]
    obtain ⟨other, apart⟩ := apart_replaced replaced fresh
    have alike := @computed_replaced ctx env env' x y e type body ⟨a, op, some y⟩ replaced here other apart
    have next {m m' : Meaning} (like : Resembles none m m') :=
      ih (named_insert named) spared (insert_replaced replaced fresh like)
    constructor
    · rintro final ⟨m, meant, settle⟩
      rcases rel_cases alike with ⟨none, -⟩ | ⟨_, m', found, meant', like⟩
      · cases meant.symm.trans none
      · cases meant.symm.trans found
        obtain ⟨final', finals, settle'⟩ := (next like).1 final settle
        exact ⟨final', finals, m', meant', settle'⟩
    · rintro final' ⟨m', meant', settle'⟩
      rcases rel_cases alike with ⟨-, none⟩ | ⟨m, _, meant, found, like⟩
      · cases meant'.symm.trans none
      · cases meant'.symm.trans found
        obtain ⟨final, finals, settle⟩ := (next like).2 final' settle'
        exact ⟨final, finals, m, meant, settle⟩
  | @tests names a op rest builtin ready later ih =>
    obtain ⟨here, spared⟩ := List.forall_mem_cons.mp spared
    have alike := @tested_replaced ctx env env' x e type body ⟨a, op, none⟩ replaced here
    obtain ⟨forth, back⟩ := ih named spared replaced
    constructor
    · rintro final ⟨tested, settle⟩
      obtain ⟨final', finals, settle'⟩ := forth final settle
      exact ⟨final', finals, alike.mp tested, settle'⟩
    · rintro final' ⟨tested, settle'⟩
      obtain ⟨final, finals, settle⟩ := back final' settle'
      exact ⟨final, finals, alike.mpr tested, settle⟩

end Settling

end RowSemantics

end PeerExchange
