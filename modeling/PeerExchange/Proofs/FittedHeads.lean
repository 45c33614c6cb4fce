import PeerExchange.Proofs.Homomorphisms
import PeerExchange.Proofs.UnfoldingMeaning

namespace PeerExchange

variable {D : Type} {I : Interpretation D} {θ η : Valuation D}

namespace Term

def IsVariable : Term → Prop
  | .variable _ => True
  | _ => False

instance (t : Term) : Decidable t.IsVariable :=
  match t with
  | .variable _ => isTrue trivial
  | .constant _ _ => isFalse id
  | .skolem _ _ => isFalse id

theorem isVariable_rename {f : String → String} {t : Term} : (t.rename f).IsVariable ↔ t.IsVariable := by
  cases t <;> exact Iff.rfl

end Term

namespace Matching

theorem mem_oppositesAll {R : Term × Term → Term → Prop} {done : List (Term × Term)} {args : List Term}
    {pairs : List (Term × Term)} {pair : Term × Term} (all : List.Forall₂ R done args)
    (taken : oppositesAll (done.map Prod.snd) args = some pairs) (inside : pair ∈ pairs) :
    ∃ opposite ∈ done, ∃ arg here, R opposite arg ∧ opposites opposite.2 arg = some here ∧
      pair ∈ here := by
  induction all generalizing pairs with
  | nil =>
    obtain ⟨-, rfl⟩ := oppositesAll_nil.mp taken
    cases inside
  | @cons opposite arg done args related _ ih =>
    obtain ⟨_, _, here, later, same, first, others, rfl⟩ := oppositesAll_cons.mp taken
    obtain ⟨rfl, rfl⟩ := List.cons.inj same
    rcases List.mem_append.mp inside with inside | inside
    · exact ⟨opposite, List.mem_cons_self, arg, here, related, first, inside⟩
    · obtain ⟨opposite, member, found⟩ := ih others inside
      exact ⟨opposite, List.mem_cons_of_mem _ member, found⟩

end Matching

theorem Atom.forall₂_of_tuple_eq {a b : Atom} (equal : a.tuple I θ = b.tuple I η) :
    List.Forall₂ (fun s t => s.denote I θ = t.denote I η) a.args b.args := by
  rw [tuple, tuple, ← List.forall₂_eq_eq_eq] at equal
  exact List.forall₂_map_right_iff.mp (List.forall₂_map_left_iff.mp equal)

theorem Atom.value_of_foldOnto? {a b : Atom} {m : Matching} (free : I.IsTermFree)
    (typed : ∀ t ∈ a.args, t.IsTyped) (typedRight : ∀ t ∈ b.args, t.IsTyped)
    (folded : a.foldOnto? b = some m) (equal : a.tuple I θ = b.tuple I θ) : m.sigma.value I θ = θ := by
  obtain ⟨-, -, pairs, taken, rfl⟩ := foldOnto?_eq_some.mp folded
  obtain ⟨_, same, each⟩ := (tuple_eq_iff free typed typedRight).mp equal
  obtain rfl := Option.some.inj (taken.symm.trans same)
  funext name
  cases found : (pairs.foldl Matching.meet {}).sigma.get? name with
  | none => exact Substitution.value_none found
  | some t =>
    rcases Matching.image_of_meetAll found with none | ⟨v, inside, rfl⟩
    · cases none
    · exact (Substitution.value_some found).trans (each _ inside)

namespace HeadFit

variable {fit : HeadFit} {fresh : FreshNames} {σ : Substitution} {done : List (Term × Term)}
  {hs ts : List Term} {h t : Term}

inductive Opposed (fresh : FreshNames) (σ : Substitution) : Term × Term → Term → Prop
  | invented {function name : String} {args : List Term} {v : Variable} {term : Term}
    (unused : ¬ fresh.Used name) (found : σ.get? v.name = some term)
    (same : term.same (.skolem function args) = true) :
    Opposed fresh σ (.skolem function args, .variable v) (.var name)
  | nested {function function' : String} {args args' : List Term} :
    Opposed fresh σ (.skolem function args, .skolem function' args') (.skolem function args)
  | plain {h t : Term} (flat : ¬ h.IsSkolem) : Opposed fresh σ (h, t) h

theorem Opposed.insert {pair : Term × Term} {arg image : Term} {name : String}
    (opposed : Opposed fresh σ pair arg)
    (same : ∀ earlier, σ.get? name = some earlier → earlier.same image = true) :
    Opposed fresh (σ.insert name image) pair arg := by
  cases opposed with
  | @invented function fresh' args v term unused found agrees =>
    by_cases again : name = v.name
    · refine .invented unused (by rw [NameMap.get?_insert, if_pos again]) (decide_eq_true ?_)
      have earlier := of_decide_eq_true (same term (again ▸ found))
      exact earlier.symm.trans (of_decide_eq_true agrees)
    · exact .invented unused (by rw [NameMap.get?_insert, if_neg again, found]) agrees
  | nested => exact .nested
  | plain flat => exact .plain flat

structure Fitted (fresh : FreshNames) (done : List (Term × Term)) (fit : HeadFit) : Prop where
  later : fresh.next ≤ fit.fresh.next
  images : ∀ name term, fit.sigma.get? name = some term → term.IsSkolem ∧
    ∃ v : Variable, v.name = name ∧ (term, .variable v) ∈ done
  names : ∀ arg ∈ fit.args, ∀ v ∈ arg.vars, fit.fresh.Used v.name
  opposed : fit.clash = false → List.Forall₂ (Opposed fresh fit.sigma) done fit.args

theorem Fitted.keep (fitted : Fitted fresh done fit) (known : ∀ v ∈ h.vars, fresh.Used v.name)
    {clash : Bool} (clear : clash = false → fit.clash = false)
    (opposed : clash = false → Opposed fresh fit.sigma (h, t) h) :
    Fitted fresh (done ++ [(h, t)]) { fit with args := fit.args ++ [h], clash := clash } where
  later := fitted.later
  images name term found := by
    obtain ⟨skolem, v, same, member⟩ := fitted.images name term found
    exact ⟨skolem, v, same, List.mem_append_left _ member⟩
  names := List.forall_mem_append.mpr ⟨fitted.names, List.forall_mem_singleton.mpr fun v inside =>
    (known v inside).mono fitted.later⟩
  opposed none := List.rel_append (fitted.opposed (clear none)) (.cons (opposed none) .nil)

theorem Fitted.step (fitted : Fitted fresh done fit) (known : ∀ v ∈ h.vars, fresh.Used v.name) :
    Fitted fresh (done ++ [(h, t)]) (fit.step h (some t)) := by
  cases h with
  | «variable» w => exact fitted.keep known id fun _ => .plain id
  | constant type value => exact fitted.keep known id fun _ => .plain id
  | skolem function args =>
    cases t with
    | constant type value => exact fitted.keep known nofun nofun
    | skolem function' args' => exact fitted.keep known id fun _ => .nested
    | «variable» v =>
      have unused : ¬ fit.fresh.Used (fit.fresh.fresh "sk").1 :=
        FreshNames.not_used_of_tailOf FreshNames.tailOf_fresh (Nat.le_refl _)
      constructor
      · exact Nat.le_succ_of_le fitted.later
      · intro name term found
        change (fit.sigma.insert v.name (.skolem function args)).get? name = some term at found
        rw [NameMap.get?_insert] at found
        split at found
        · rename_i same
          cases found
          exact ⟨trivial, v, same, List.mem_append_right _ (List.mem_singleton_self _)⟩
        · obtain ⟨skolem, w, same, member⟩ := fitted.images name term found
          exact ⟨skolem, w, same, List.mem_append_left _ member⟩
      · refine List.forall_mem_append.mpr ⟨fun arg inside w met => ?_, ?_⟩
        · exact (fitted.names arg inside w met).mono (Nat.le_succ _)
        · intro arg inside w met
          obtain rfl := List.mem_singleton.mp inside
          obtain rfl := List.mem_singleton.mp met
          exact .inr ⟨fit.fresh.next, Nat.lt_succ_self _, FreshNames.tailOf_fresh⟩
      · intro clear
        obtain ⟨before, here⟩ := Bool.or_eq_false_iff.mp clear
        have same (earlier : Term) (found : fit.sigma.get? v.name = some earlier) :
            earlier.same (.skolem function args) = true := by
          rw [found] at here
          simpa using here
        refine List.rel_append ((fitted.opposed before).imp fun _ _ opposed => opposed.insert same)
          (.cons ?_ .nil)
        refine .invented (fun used => unused (used.mono fitted.later)) ?_ (decide_eq_true rfl)
        exact (NameMap.get?_insert ..).trans (if_pos rfl)

theorem Fitted.steps (fitted : Fitted fresh done fit) (length : hs.length = ts.length)
    (known : ∀ h ∈ hs, ∀ v ∈ h.vars, fresh.Used v.name) :
    Fitted fresh (done ++ hs.zip ts) (fit.steps hs ts) := by
  induction hs generalizing done fit ts with
  | nil => simpa [HeadFit.steps] using fitted
  | cons h hs ih =>
    cases ts with
    | nil => cases length
    | cons t ts =>
      obtain ⟨here, later⟩ := List.forall_mem_cons.mp known
      rw [List.zip_cons_cons, List.append_cons]
      exact ih (fitted.step here) (Nat.succ.inj length) later

theorem fitted_start (fresh : FreshNames) : Fitted fresh [] { fresh := fresh } :=
  ⟨Nat.le_refl _, nofun, nofun, fun _ => .nil⟩

theorem map_eq_of_opposed {α : Type} {R : Term × Term → Term → Prop} {args : List Term}
    {own other first : Term → α} (all : List.Forall₂ R done args)
    (equal : args.map own = (done.map Prod.snd).map other)
    (each : ∀ pair ∈ done, ∀ arg, R pair arg → own arg = other pair.2 → first pair.1 = other pair.2) :
    (done.map Prod.fst).map first = (done.map Prod.snd).map other := by
  induction all with
  | nil => rfl
  | @cons pair arg done args here _ ih =>
    obtain ⟨eachFirst, eachRest⟩ := List.forall_mem_cons.mp each
    obtain ⟨same, rest⟩ := List.cons.inj equal
    exact congrArg₂ List.cons (eachFirst arg here same) (ih rest eachRest)

def Determined (hs : List Term) : Prop :=
  ∀ function args args', .skolem function args ∈ hs → .skolem function args' ∈ hs → args = args'

-- Under a valuation that makes opposite arguments equal nothing clashes, and the fresh variables can be
-- given the values of the terms that they are for.
structure Meant (I : Interpretation D) (θ : Valuation D) (fresh : FreshNames) (done : List (Term × Term))
    (fit : HeadFit) : Prop where
  clear : fit.clash = false
  valued : ∃ θ' : Valuation D, (∀ name, fresh.Used name → θ' name = θ name) ∧
    fit.args.map (Term.denote I θ') = done.map fun pair => pair.1.denote I θ

theorem Meant.keep (meant : Meant I θ fresh done fit) (known : ∀ v ∈ h.vars, fresh.Used v.name) :
    Meant I θ fresh (done ++ [(h, t)]) { fit with args := fit.args ++ [h] } where
  clear := meant.clear
  valued := by
    obtain ⟨θ', kept, equal⟩ := meant.valued
    refine ⟨θ', kept, ?_⟩
    rw [List.map_append, List.map_append, equal, List.map_singleton, List.map_singleton]
    rw [Term.denote_congr fun v inside => kept v.name (known v inside)]

theorem Meant.step (free : I.IsTermFree) (meant : Meant I θ fresh done fit)
    (fitted : Fitted fresh done fit) (known : ∀ v ∈ h.vars, fresh.Used v.name) (typed : t.IsTyped)
    (determined : Determined (done.map Prod.fst ++ [h]))
    (before : ∀ pair ∈ done, pair.1.denote I θ = pair.2.denote I θ)
    (equal : h.denote I θ = t.denote I θ) :
    Meant I θ fresh (done ++ [(h, t)]) (fit.step h (some t)) := by
  cases h with
  | «variable» w => exact meant.keep known
  | constant type value => exact meant.keep known
  | skolem function args =>
    cases typed with
    | constant value => exact absurd equal (free.invented function _ value)
    | skolem each => exact meant.keep known
    | «variable» v =>
      constructor
      · refine Bool.or_eq_false_iff.mpr ⟨meant.clear, ?_⟩
        cases found : fit.sigma.get? v.name with
        | none => rfl
        | some earlier =>
          -- The earlier term has the value of the variable too, so it is the same term.
          obtain ⟨skolem, w, same, member⟩ := fitted.images v.name earlier found
          have valued : earlier.denote I θ = (Term.skolem function args).denote I θ := by
            rw [before _ member, equal, Term.denote, Term.denote, same]
          cases earlier with
          | «variable» u => exact skolem.elim
          | constant type value => exact skolem.elim
          | skolem function' args' =>
            obtain ⟨rfl, -⟩ := free.injective _ _ _ _ valued
            obtain rfl := determined function' args' args
              (List.mem_append_left _ (List.mem_map_of_mem member))
              (List.mem_append_right _ (List.mem_singleton_self _))
            exact congrArg not (decide_eq_true rfl)
      · obtain ⟨θ', kept, values⟩ := meant.valued
        have unused : ¬ fit.fresh.Used (fit.fresh.fresh "sk").1 :=
          FreshNames.not_used_of_tailOf FreshNames.tailOf_fresh (Nat.le_refl _)
        refine ⟨Function.update θ' (fit.fresh.fresh "sk").1 ((Term.skolem function args).denote I θ),
          fun name used => ?_, ?_⟩
        · rw [Function.update_of_ne, kept name used]
          rintro rfl
          exact unused (used.mono fitted.later)
        · have old : ∀ arg ∈ fit.args, arg.denote I (Function.update θ' (fit.fresh.fresh "sk").1
              ((Term.skolem function args).denote I θ)) = arg.denote I θ' := by
            intro arg inside
            refine Term.denote_congr fun u met => Function.update_of_ne ?_ _ _
            intro same
            exact unused (same ▸ fitted.names arg inside u met)
          change (fit.args ++ [Term.var (fit.fresh.fresh "sk").1]).map _ = _
          rw [List.map_append, List.map_append, List.map_congr_left old, values, List.map_singleton,
            List.map_singleton]
          exact congrArg (fun value => _ ++ [value]) (Function.update_self ..)

theorem Meant.steps (free : I.IsTermFree) (meant : Meant I θ fresh done fit)
    (fitted : Fitted fresh done fit) (length : hs.length = ts.length)
    (known : ∀ h ∈ hs, ∀ v ∈ h.vars, fresh.Used v.name) (typed : ∀ t ∈ ts, t.IsTyped)
    (determined : Determined (done.map Prod.fst ++ hs))
    (before : ∀ pair ∈ done, pair.1.denote I θ = pair.2.denote I θ)
    (equal : hs.map (Term.denote I θ) = ts.map (Term.denote I θ)) :
    Meant I θ fresh (done ++ hs.zip ts) (fit.steps hs ts) := by
  induction hs generalizing done fit ts with
  | nil => simpa [HeadFit.steps] using meant
  | cons h hs ih =>
    cases ts with
    | nil => cases length
    | cons t ts =>
      obtain ⟨here, later⟩ := List.forall_mem_cons.mp known
      obtain ⟨typedHere, typedLater⟩ := List.forall_mem_cons.mp typed
      obtain ⟨first, rest⟩ := List.cons.inj equal
      rw [List.zip_cons_cons, List.append_cons]
      refine ih (meant.step free fitted here typedHere ?_ before first) (fitted.step here)
        (Nat.succ.inj length) later typedLater ?_ ?_ rest
      · intro function args args' left right
        refine determined function args args' ?_ ?_
        · exact List.append_cons .. ▸ List.mem_append_left hs left
        · exact List.append_cons .. ▸ List.mem_append_left hs right
      · simpa using determined
      · exact List.forall_mem_append.mpr ⟨before, List.forall_mem_singleton.mpr first⟩

theorem meant_start (fresh : FreshNames) : Meant I θ fresh [] { fresh := fresh } :=
  ⟨rfl, θ, fun _ _ => rfl, rfl⟩

def settled (pairs : List (Term × Term)) : List String :=
  (pairs.filter fun pair => pair.1.IsSkolem ∧ pair.2.IsVariable).flatMap fun pair =>
    pair.2.vars.map Variable.name

theorem mem_settled {name : String} : name ∈ settled done ↔
    ∃ pair ∈ done, pair.1.IsSkolem ∧ ∃ v : Variable, pair.2 = .variable v ∧ v.name = name := by
  simp only [settled, List.mem_flatMap, List.mem_filter, decide_eq_true_eq, List.mem_map]
  constructor
  · rintro ⟨⟨h, t⟩, ⟨member, skolem, whole⟩, v, inside, same⟩
    cases t with
    | «variable» w =>
      obtain rfl := List.mem_singleton.mp inside
      exact ⟨_, member, skolem, v, rfl, same⟩
    | constant type value => exact whole.elim
    | skolem function args => exact whole.elim
  · rintro ⟨⟨h, t⟩, member, skolem, v, rfl, same⟩
    exact ⟨_, ⟨member, skolem, trivial⟩, v, List.mem_singleton_self v, same⟩

-- Where such a variable is met again, it is the whole argument, and no variable is opposite it.
def Untangled (pairs : List (Term × Term)) : Prop :=
  ∀ pair ∈ pairs, (∃ v ∈ pair.2.vars, v.name ∈ settled pairs) → pair.2.IsVariable ∧ ¬ pair.1.IsVariable

instance (pairs : List (Term × Term)) : Decidable (Untangled pairs) :=
  inferInstanceAs (Decidable (∀ pair ∈ pairs, _ → _ ∧ _))

theorem Untangled.rename {f : String → String} (untangled : Untangled (hs.zip ts)) :
    Untangled ((hs.map (Term.rename f)).zip ts) := by
  rw [List.zip_map_left]
  intro pair inside
  obtain ⟨old, member, rfl⟩ := List.mem_map.mp inside
  rintro ⟨v, met, again⟩
  obtain ⟨other, listed, skolem, w, whole, same⟩ := mem_settled.mp again
  obtain ⟨opposite, placed, rfl⟩ := List.mem_map.mp listed
  have settled := mem_settled.mpr ⟨opposite, placed, Term.isSkolem_rename.mp skolem, w, whole, same⟩
  exact (untangled old member ⟨v, met, settled⟩).imp_right Term.isVariable_rename.not.mpr

theorem settled_of_image {pairs : List (Term × Term)} {image : Term} {v w : Variable}
    (untangled : Untangled done) (opposed : List.Forall₂ (Opposed fresh σ) done fit.args)
    (taken : Matching.oppositesAll (done.map Prod.snd) fit.args = some pairs)
    (inside : (image, .variable w) ∈ pairs) (used : fresh.Used w.name) (met : v ∈ image.vars) :
    v.name ∉ settled done := by
  intro settled
  obtain ⟨opposite, member, arg, here, related, first, inside⟩ :=
    Matching.mem_oppositesAll opposed taken inside
  have left : v ∈ opposite.2.vars := Matching.left_vars_opposites first _ inside met
  obtain ⟨whole, other⟩ := untangled opposite member ⟨v, left, settled⟩
  cases related with
  | invented unused found same =>
    rw [Matching.opposites_variable.mp first, List.mem_singleton] at inside
    cases inside
    exact unused used
  | nested => exact whole
  | plain flat =>
    cases arg with
    | «variable» u => exact other trivial
    | skolem function args => exact flat trivial
    | constant type value =>
      rcases Matching.opposites_constant.mp first with ⟨_, -, rfl⟩ | ⟨_, -, -, rfl⟩
      · cases List.mem_singleton.mp inside
      · cases inside

end HeadFit

end PeerExchange
