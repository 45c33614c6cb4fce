import Mathlib.Data.List.Forall2
import PeerExchange.Proofs.Folding

namespace PeerExchange

variable {D : Type} {I : Interpretation D} {θ η : Valuation D}

-- Terms without variables have different values when they differ.
structure Interpretation.IsTermFree (I : Interpretation D) : Prop extends I.IsFree where
  injective : ∀ f g as bs, I.invented f as = I.invented g bs → f = g ∧ as = bs

namespace Term

-- Every constant, also inside Skolem terms, has the type of its literal.
inductive IsTyped : Term → Prop
  | «variable» (v : Variable) : IsTyped (.variable v)
  | constant (value : Literal) : IsTyped (.constant value.type? value)
  | skolem {function : String} {args : List Term} (each : ∀ t ∈ args, IsTyped t) :
    IsTyped (.skolem function args)

@[simp] theorem isTyped_variable (v : Variable) : (Term.variable v).IsTyped := .variable v

@[simp] theorem isTyped_constant {type : Option ColumnType} {value : Literal} :
    (constant type value).IsTyped ↔ type = value.type? := by
  constructor
  · intro typed
    cases typed
    rfl
  · rintro rfl
    exact .constant value

@[simp] theorem isTyped_skolem {function : String} {args : List Term} :
    (skolem function args).IsTyped ↔ ∀ t ∈ args, t.IsTyped := by
  constructor
  · intro typed
    cases typed with
    | skolem each => exact each
  · exact .skolem

-- Equal up to marks on variables, and to types of constants that one side leaves open.
inductive Agrees : Term → Term → Prop
  | «variable» {v w : Variable} (same : v.name = w.name) : Agrees (.variable v) (.variable w)
  | constant {type type' : Option ColumnType} {value : Literal}
    (types : Matching.typesAgree type type' = true) :
    Agrees (.constant type value) (.constant type' value)
  | skolem {function : String} {args args' : List Term} (each : List.Forall₂ Agrees args args') :
    Agrees (.skolem function args) (.skolem function args')

end Term

namespace Matching

mutual

def opposites (a : Term) : Term → Option (List (Term × Term))
  | .variable v => some [(a, .variable v)]
  | .constant type value =>
    match a with
    | .constant type' value' => if value = value' && typesAgree type type' then some [] else none
    | .variable v => some [(.variable v, .constant type value)]
    | .skolem _ _ => none
  | .skolem function args =>
    match a with
    | .skolem function' args' => if function = function' then oppositesAll args' args else none
    | .variable v => some [(.variable v, .skolem function args)]
    | .constant _ _ => none

def oppositesAll : List Term → List Term → Option (List (Term × Term))
  | [], [] => some []
  | a :: as, b :: bs =>
    (opposites a b).bind fun here => (oppositesAll as bs).map fun later => here ++ later
  | [], _ :: _ => none
  | _ :: _, [] => none

end

def meet (m : Matching) (pair : Term × Term) : Matching :=
  match pair.2 with
  | .variable v =>
    match m.sigma.get? v.name with
    | none => { m with sigma := m.sigma.insert v.name pair.1 }
    | some image => if image.same pair.1 then m else m.assume pair.1 image
  | other => m.assume pair.1 other

mutual

theorem fold_eq_meet (a : Term) : ∀ (b : Term) (m : Matching),
    fold a b m = (opposites a b).map fun pairs => pairs.foldl meet m
  | .variable v, m => by
    simp only [fold, opposites, Option.map_some, List.foldl_cons, List.foldl_nil, meet]
    cases m.sigma.get? v.name with
    | none => rfl
    | some image => dsimp only; split <;> rfl
  | .constant type value, m => by
    cases a with
    | «variable» v => rfl
    | constant type' value' => simp only [fold, opposites]; split <;> rfl
    | skolem function args => rfl
  | .skolem function args, m => by
    cases a with
    | «variable» v => rfl
    | constant type' value' => rfl
    | skolem function' args' =>
      simp only [fold, opposites]
      split
      · exact foldAll_eq_meet args' args m
      · rfl

theorem foldAll_eq_meet : ∀ (as bs : List Term) (m : Matching),
    foldAll as bs m = (oppositesAll as bs).map fun pairs => pairs.foldl meet m
  | [], [], m => rfl
  | a :: as, b :: bs, m => by
    rw [foldAll, oppositesAll, fold_eq_meet a b m]
    cases opposites a b with
    | none => rfl
    | some here =>
      rw [Option.map_some, Option.bind_some, foldAll_eq_meet as bs, Option.bind_some, Option.map_map]
      simp only [Function.comp_def, List.foldl_append]
  | [], _ :: _, _ => rfl
  | _ :: _, [], _ => rfl

end

variable {a b : Term} {as bs : List Term} {pairs : List (Term × Term)}

theorem oppositesAll_nil : oppositesAll as [] = some pairs ↔ as = [] ∧ pairs = [] := by
  cases as with
  | nil => simp [oppositesAll, eq_comm]
  | cons a as => simp [oppositesAll]

theorem oppositesAll_cons : oppositesAll as (b :: bs) = some pairs ↔
    ∃ a rest here later, as = a :: rest ∧ opposites a b = some here ∧
      oppositesAll rest bs = some later ∧ pairs = here ++ later := by
  cases as with
  | nil => simp [oppositesAll]
  | cons a rest =>
    simp only [oppositesAll, Option.bind_eq_some_iff, Option.map_eq_some_iff, List.cons.injEq]
    constructor
    · rintro ⟨here, first, later, others, rfl⟩
      exact ⟨a, rest, here, later, ⟨rfl, rfl⟩, first, others, rfl⟩
    · rintro ⟨_, _, here, later, ⟨rfl, rfl⟩, first, others, rfl⟩
      exact ⟨here, first, later, others, rfl⟩

-- Opposite a Skolem term is a variable, or a Skolem term of the function with opposite arguments.
theorem opposites_skolem {function : String} : opposites a (.skolem function bs) = some pairs ↔
    (∃ v, a = .variable v ∧ pairs = [(a, .skolem function bs)]) ∨
      ∃ as, a = .skolem function as ∧ oppositesAll as bs = some pairs := by
  cases a with
  | «variable» v => simp [opposites, eq_comm]
  | constant type value => simp [opposites]
  | skolem function' as =>
    simp only [opposites]
    split
    · rename_i same
      subst same
      simp
    · rename_i differ
      simp [Ne.symm differ]

theorem opposites_constant {type : Option ColumnType} {value : Literal} :
    opposites a (.constant type value) = some pairs ↔
      (∃ v, a = .variable v ∧ pairs = [(a, .constant type value)]) ∨
        ∃ type', a = .constant type' value ∧ typesAgree type type' = true ∧ pairs = [] := by
  cases a with
  | «variable» v =>
    rw [opposites]
    refine ⟨fun same => .inl ⟨v, rfl, (Option.some.inj same).symm⟩, ?_⟩
    rintro (⟨_, -, rfl⟩ | ⟨_, other, -⟩)
    · rfl
    · cases other
  | constant type' value' =>
    rw [opposites]
    split
    · rename_i agree
      rw [Bool.and_eq_true, decide_eq_true_iff] at agree
      obtain ⟨rfl, types⟩ := agree
      refine ⟨fun same => .inr ⟨type', rfl, types, (Option.some.inj same).symm⟩, ?_⟩
      rintro (⟨_, other, -⟩ | ⟨_, -, -, rfl⟩)
      · cases other
      · rfl
    · rename_i differ
      refine ⟨nofun, ?_⟩
      rintro (⟨_, other, -⟩ | ⟨_, same, types, -⟩)
      · cases other
      · cases same
        exact absurd (by rw [types, Bool.and_true, decide_eq_true_iff]) differ
  | skolem function args => simp [opposites]

theorem opposites_variable {v : Variable} :
    opposites a (.variable v) = some pairs ↔ pairs = [(a, .variable v)] := by
  simp [opposites, eq_comm]

theorem forall_oppositesAll {holds : Term → Term → Prop} {each : Term × Term → Prop}
    (onTerms : ∀ b ∈ bs, ∀ a ∈ as, ∀ pairs, opposites a b = some pairs →
      (∀ pair ∈ pairs, each pair) → holds a b)
    (taken : oppositesAll as bs = some pairs) (all : ∀ pair ∈ pairs, each pair) :
    List.Forall₂ holds as bs := by
  induction bs generalizing as pairs with
  | nil =>
    obtain ⟨rfl, -⟩ := oppositesAll_nil.mp taken
    exact .nil
  | cons b bs ih =>
    obtain ⟨a, rest, here, later, rfl, first, others, rfl⟩ := oppositesAll_cons.mp taken
    obtain ⟨allHere, allLater⟩ := List.forall_mem_append.mp all
    exact .cons (onTerms b List.mem_cons_self a List.mem_cons_self here first allHere)
      (ih (fun b later a inside => onTerms b (List.mem_cons_of_mem _ later) a
        (List.mem_cons_of_mem _ inside)) others allLater)

theorem exists_oppositesAll {holds : Term → Term → Prop} {each : Term × Term → Prop}
    (onTerms : ∀ b ∈ bs, ∀ a ∈ as, holds a b →
      ∃ pairs, opposites a b = some pairs ∧ ∀ pair ∈ pairs, each pair)
    (all : List.Forall₂ holds as bs) :
    ∃ pairs, oppositesAll as bs = some pairs ∧ ∀ pair ∈ pairs, each pair := by
  induction all with
  | nil => exact ⟨[], rfl, List.forall_mem_nil _⟩
  | @cons a b as bs here _ ih =>
    obtain ⟨pairs, first, eachFirst⟩ := onTerms b List.mem_cons_self a List.mem_cons_self here
    obtain ⟨others, rest, eachOther⟩ := ih fun b later a inside =>
      onTerms b (List.mem_cons_of_mem _ later) a (List.mem_cons_of_mem _ inside)
    exact ⟨pairs ++ others, oppositesAll_cons.mpr ⟨a, as, pairs, others, rfl, first, rest, rfl⟩,
      List.forall_mem_append.mpr ⟨eachFirst, eachOther⟩⟩

theorem mem_vars_oppositesAll {v : Variable}
    (onTerms : ∀ b ∈ bs, ∀ a pairs, opposites a b = some pairs →
      (v ∈ b.vars ↔ ∃ pair ∈ pairs, v ∈ pair.2.vars))
    (taken : oppositesAll as bs = some pairs) :
    v ∈ bs.flatMap Term.vars ↔ ∃ pair ∈ pairs, v ∈ pair.2.vars := by
  induction bs generalizing as pairs with
  | nil =>
    obtain ⟨-, rfl⟩ := oppositesAll_nil.mp taken
    simp
  | cons b bs ih =>
    obtain ⟨onFirst, onRest⟩ := List.forall_mem_cons.mp onTerms
    obtain ⟨a, rest, here, later, rfl, first, others, rfl⟩ := oppositesAll_cons.mp taken
    rw [List.flatMap_cons, List.mem_append, onFirst a here first, ih onRest others]
    simp only [List.mem_append, or_and_right, exists_or]

theorem mem_vars_opposites {v : Variable} (taken : opposites a b = some pairs) :
    v ∈ b.vars ↔ ∃ pair ∈ pairs, v ∈ pair.2.vars := by
  induction b using Term.structural generalizing a pairs with
  | onVariable w =>
    rw [opposites_variable.mp taken]
    simp
  | onConstant type value =>
    rcases opposites_constant.mp taken with ⟨_, -, rfl⟩ | ⟨_, -, -, rfl⟩ <;> simp [Term.vars]
  | onSkolem function args ih =>
    rcases opposites_skolem.mp taken with ⟨_, -, rfl⟩ | ⟨as, -, all⟩
    · simp
    · rw [Term.vars, Term.variablesOf_eq_flatMap]
      exact mem_vars_oppositesAll (fun b inside a pairs => ih b inside) all

theorem left_vars_oppositesAll
    (onTerms : ∀ b ∈ bs, ∀ a pairs, opposites a b = some pairs →
      ∀ pair ∈ pairs, pair.1.vars ⊆ a.vars)
    (taken : oppositesAll as bs = some pairs) :
    ∀ pair ∈ pairs, pair.1.vars ⊆ as.flatMap Term.vars := by
  induction bs generalizing as pairs with
  | nil =>
    obtain ⟨-, rfl⟩ := oppositesAll_nil.mp taken
    exact List.forall_mem_nil _
  | cons b bs ih =>
    obtain ⟨onFirst, onRest⟩ := List.forall_mem_cons.mp onTerms
    obtain ⟨a, rest, here, later, rfl, first, others, rfl⟩ := oppositesAll_cons.mp taken
    rw [List.flatMap_cons]
    refine List.forall_mem_append.mpr ⟨fun pair inside => ?_, fun pair inside => ?_⟩
    · exact List.subset_append_of_subset_left _ (onFirst a here first pair inside)
    · exact List.subset_append_of_subset_right _ (ih onRest others pair inside)

theorem left_vars_opposites (taken : opposites a b = some pairs) :
    ∀ pair ∈ pairs, pair.1.vars ⊆ a.vars := by
  induction b using Term.structural generalizing a pairs with
  | onVariable w =>
    rw [opposites_variable.mp taken]
    simp
  | onConstant type value =>
    rcases opposites_constant.mp taken with ⟨_, -, rfl⟩ | ⟨_, -, -, rfl⟩ <;> simp
  | onSkolem function args ih =>
    rcases opposites_skolem.mp taken with ⟨_, -, rfl⟩ | ⟨as, rfl, all⟩
    · simp
    · rw [Term.vars, Term.variablesOf_eq_flatMap]
      exact left_vars_oppositesAll (fun b inside a pairs => ih b inside) all

end Matching

namespace Term

def EqualByPairs (I : Interpretation D) (θ η : Valuation D) (a b : Term) : Prop :=
  a.denote I θ = b.denote I η ↔ ∃ pairs, Matching.opposites a b = some pairs ∧
    ∀ pair ∈ pairs, pair.1.denote I θ = pair.2.denote I η

theorem map_denote_eq_iff {as bs : List Term} (each : ∀ b ∈ bs, ∀ a ∈ as, EqualByPairs I θ η a b) :
    as.map (denote I θ) = bs.map (denote I η) ↔ ∃ pairs, Matching.oppositesAll as bs = some pairs ∧
      ∀ pair ∈ pairs, pair.1.denote I θ = pair.2.denote I η := by
  rw [← List.forall₂_eq_eq_eq, List.forall₂_map_left_iff, List.forall₂_map_right_iff]
  constructor
  · exact Matching.exists_oppositesAll fun b right a left => (each b right a left).mp
  · rintro ⟨pairs, taken, equal⟩
    exact Matching.forall_oppositesAll (fun b right a left pairs taken equal =>
      (each b right a left).mpr ⟨pairs, taken, equal⟩) taken equal

theorem denote_eq_iff (free : I.IsTermFree) {a b : Term} (typed : a.IsTyped) (typedRight : b.IsTyped) :
    EqualByPairs I θ η a b := by
  unfold EqualByPairs
  induction b using structural generalizing a with
  | onVariable v => simp [Matching.opposites_variable]
  | onConstant type value =>
    cases typedRight
    cases typed with
    | «variable» v => simp [Matching.opposites]
    | constant value' =>
      constructor
      · intro same
        obtain rfl := free.constant value' value same
        exact ⟨[], Matching.opposites_constant.mpr (.inr ⟨_, rfl, Matching.typesAgree_self _, rfl⟩),
          List.forall_mem_nil _⟩
      · rintro ⟨pairs, taken, -⟩
        rcases Matching.opposites_constant.mp taken with ⟨_, other, -⟩ | ⟨_, same, -, -⟩
        · cases other
        · rw [(constant.inj same).2]
          rfl
    | skolem each =>
      refine ⟨fun same => absurd same (free.invented _ _ value), ?_⟩
      rintro ⟨pairs, taken, -⟩
      cases taken
  | onSkolem function args ih =>
    cases typedRight with
    | skolem eachRight =>
    cases typed with
    | «variable» v => simp [Matching.opposites]
    | constant value =>
      refine ⟨fun same => absurd same.symm (free.invented _ _ value), ?_⟩
      rintro ⟨pairs, taken, -⟩
      cases taken
    | @skolem function' args' each =>
      have parts := map_denote_eq_iff fun b right a left => ih b right (each a left) (eachRight b right)
      rw [denote, denote, denoteAll_eq_map, denoteAll_eq_map]
      constructor
      · intro same
        obtain ⟨rfl, arguments⟩ := free.injective _ _ _ _ same
        obtain ⟨pairs, taken, equal⟩ := parts.mp arguments
        exact ⟨pairs, Matching.opposites_skolem.mpr (.inr ⟨args', rfl, taken⟩), equal⟩
      · rintro ⟨pairs, taken, equal⟩
        rcases Matching.opposites_skolem.mp taken with ⟨_, other, -⟩ | ⟨as, same, all⟩
        · cases other
        · obtain ⟨rfl, rfl⟩ := skolem.inj same
          rw [parts.mpr ⟨pairs, all, equal⟩]

end Term

end PeerExchange
