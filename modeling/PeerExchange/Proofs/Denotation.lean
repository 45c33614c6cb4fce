import PeerExchange.Proofs.SetSemantics
import PeerExchange.Renaming
import PeerExchange.Substitution

namespace PeerExchange

variable {D : Type} {I : Interpretation D} {θ η : Valuation D}

namespace Term

@[elab_as_elim]
theorem structural {motive : Term → Prop} (onVariable : ∀ v, motive (.variable v))
    (onConstant : ∀ type value, motive (.constant type value))
    (onSkolem : ∀ function args, (∀ a ∈ args, motive a) → motive (.skolem function args))
    (t : Term) : motive t :=
  @Term.rec motive (fun args => ∀ a ∈ args, motive a)
    onVariable onConstant onSkolem nofun
    (fun _ _ here later => List.forall_mem_cons.mpr ⟨here, later⟩) t

theorem bind_variable (t : Term) : t.bind .variable = t := by
  induction t using structural with
  | onVariable v => rfl
  | onConstant type value => rfl
  | onSkolem function args ih =>
    rw [bind, bindAll_eq_map, List.map_congr_left ih, List.map_id']

theorem mem_vars_bind {f : Variable → Term} {t : Term} {v : Variable} :
    v ∈ (t.bind f).vars ↔ ∃ w ∈ t.vars, v ∈ (f w).vars := by
  induction t using structural with
  | onVariable w => simp [bind, vars]
  | onConstant type value => simp [bind, vars]
  | onSkolem function args ih =>
    simp only [bind, vars, bindAll_eq_map, variablesOf_eq_flatMap, List.mem_flatMap, List.mem_map]
    constructor
    · rintro ⟨_, ⟨a, member, rfl⟩, inside⟩
      obtain ⟨w, found, inside⟩ := (ih a member).mp inside
      exact ⟨w, ⟨a, member, found⟩, inside⟩
    · rintro ⟨w, ⟨a, member, found⟩, inside⟩
      exact ⟨_, ⟨a, member, rfl⟩, (ih a member).mpr ⟨w, found, inside⟩⟩

theorem denote_bind {f : Variable → Term} {t : Term}
    (replaced : ∀ v ∈ t.vars, (f v).denote I θ = η v.name) :
    (t.bind f).denote I θ = t.denote I η := by
  induction t using structural with
  | onVariable v => exact replaced v (by simp [vars])
  | onConstant type value => rfl
  | onSkolem function args ih =>
    rw [vars, variablesOf_eq_flatMap, List.forall_mem_flatMap] at replaced
    rw [bind, bindAll_eq_map, denote, denote, denoteAll_eq_map, denoteAll_eq_map, List.map_map]
    exact congrArg _ (List.map_congr_left fun a member => ih a member (replaced a member))

theorem denote_congr {t : Term} (agree : ∀ v ∈ t.vars, θ v.name = η v.name) :
    t.denote I θ = t.denote I η := by
  calc t.denote I θ = (t.bind .variable).denote I θ := by rw [bind_variable]
    _ = t.denote I η := denote_bind agree

theorem denote_plain (t : Term) : t.plain.denote I θ = t.denote I θ :=
  denote_bind fun _ _ => rfl

theorem denote_same {a b : Term} (same : a.same b = true) : a.denote I θ = b.denote I θ := by
  rw [← denote_plain a, ← denote_plain b, of_decide_eq_true same]

theorem denote_rename (f : String → String) (t : Term) :
    (t.rename f).denote I θ = t.denote I (θ ∘ f) := denote_bind fun _ _ => rfl

end Term

namespace Substitution

-- What a name stands for once the substitution is made.
def value (I : Interpretation D) (θ : Valuation D) (σ : Substitution) : Valuation D := fun name =>
  match σ.get? name with
  | some t => t.denote I θ
  | none => θ name

variable {σ : Substitution} {name : String}

theorem value_some {t : Term} (found : σ.get? name = some t) : σ.value I θ name = t.denote I θ := by
  rw [value, found]

theorem value_none (none : σ.get? name = none) : σ.value I θ name = θ name := by
  rw [value, none]

end Substitution

namespace Term

theorem denote_substitute (σ : Substitution) (t : Term) :
    (t.substitute σ).denote I θ = t.denote I (σ.value I θ) := by
  refine denote_bind fun v _ => ?_
  rw [Substitution.value]
  cases σ.get? v.name <;> rfl

theorem substitute_empty (t : Term) : t.substitute .empty = t := bind_variable t

theorem mem_vars_substitute {σ : Substitution} {t : Term} {v : Variable}
    (inside : v ∈ (t.substitute σ).vars) :
    v ∈ t.vars ∨ ∃ name image, σ.get? name = some image ∧ v ∈ image.vars := by
  obtain ⟨w, member, inside⟩ := mem_vars_bind.mp inside
  cases found : σ.get? w.name with
  | none =>
    rw [found] at inside
    obtain rfl : v = w := List.mem_singleton.mp inside
    exact .inl member
  | some image =>
    rw [found] at inside
    exact .inr ⟨w.name, image, found, inside⟩

theorem mem_vars_rename {f : String → String} {t : Term} {v : Variable}
    (inside : v ∈ (t.rename f).vars) : ∃ w ∈ t.vars, v.name = f w.name := by
  obtain ⟨w, member, inside⟩ := mem_vars_bind.mp inside
  obtain rfl := List.mem_singleton.mp inside
  exact ⟨w, member, rfl⟩

end Term

namespace Atom

variable {a : Atom}

theorem mem_variableNames {name : String} :
    name ∈ a.variableNames ↔ ∃ t ∈ a.args, ∃ v ∈ t.vars, v.name = name := by
  simp only [variableNames, vars, List.mem_map, List.mem_flatMap]
  constructor
  · rintro ⟨v, ⟨t, member, inside⟩, same⟩
    exact ⟨t, member, v, inside, same⟩
  · rintro ⟨t, member, v, inside, same⟩
    exact ⟨v, ⟨t, member, inside⟩, same⟩

theorem tuple_mapArgs {f : Term → Term}
    (replaced : ∀ t ∈ a.args, (f t).denote I θ = t.denote I η) :
    (a.mapArgs f).tuple I θ = a.tuple I η := by
  rw [tuple, tuple, mapArgs, List.map_map]
  exact List.map_congr_left replaced

theorem tuple_congr (agree : ∀ name ∈ a.variableNames, θ name = η name) :
    a.tuple I θ = a.tuple I η :=
  List.map_congr_left fun t member => Term.denote_congr fun v inside =>
    agree v.name (mem_variableNames.mpr ⟨t, member, v, inside, rfl⟩)

theorem tuple_substitute (σ : Substitution) :
    (a.substitute σ).tuple I θ = a.tuple I (σ.value I θ) :=
  tuple_mapArgs fun t _ => Term.denote_substitute σ t

theorem tuple_rename (f : String → String) :
    (a.mapArgs (Term.rename f)).tuple I θ = a.tuple I (θ ∘ f) :=
  tuple_mapArgs fun t _ => Term.denote_rename f t

theorem substitute_empty (a : Atom) : a.substitute .empty = a := by
  rw [substitute, mapArgs, funext Term.substitute_empty, List.map_id']

end Atom

theorem Rule.substitute_empty (r : Rule) : r.substitute .empty = r := by
  have terms : ∀ args : List Term, args.map (Term.substitute .empty) = args := fun args => by
    rw [funext Term.substitute_empty, List.map_id']
  simp only [substitute, funext Atom.substitute_empty, List.map_id', terms]

variable {M N : Facts D}

namespace Atom

variable {a : Atom} {name : String}

def Accepted (I : Interpretation D) (M : Facts D) (θ : Valuation D) (a : Atom) : Prop :=
  if a.negated then ¬ a.Holds I (.ofFacts M) θ none else a.Holds I (.ofFacts M) θ none

def IsBase (a : Atom) : Prop := a.relation?.isSome = true → a.negated = false ∧ a.kind = .base

instance (a : Atom) : Decidable a.IsBase :=
  inferInstanceAs (Decidable (a.relation?.isSome = true → a.negated = false ∧ a.kind = .base))

theorem IsBase.table_eq {b : Atom} (base : a.IsBase) (base' : b.IsBase)
    (named : a.relation? = some name) (named' : b.relation? = some name) :
    a.predicate = b.predicate ∧ a.kind = b.kind :=
  ⟨(predicate_of_relation named).trans (predicate_of_relation named').symm,
    (base (by rw [named]; rfl)).2.trans (base' (by rw [named']; rfl)).2.symm⟩

theorem accepted_relation (base : a.IsBase) (named : a.relation? = some name) :
    a.Accepted I M θ ↔ a.tuple I θ ∈ M name := by
  obtain ⟨positive, kind⟩ := base (by rw [named]; rfl)
  rw [Accepted, positive, if_neg Bool.false_ne_true, holds_unguarded named, kind,
    Tables.facts_ofFacts]

theorem accepted_mapArgs {f : Term → Term} (equal : (a.mapArgs f).tuple I θ = a.tuple I η) :
    (a.mapArgs f).Accepted I M θ ↔ a.Accepted I M η := by
  unfold Accepted Holds
  rw [equal]
  rfl

theorem accepted_congr (equal : a.tuple I θ = a.tuple I η) :
    a.Accepted I M θ ↔ a.Accepted I M η := by
  unfold Accepted Holds
  rw [equal]

theorem Accepted.mono (base : a.IsBase) (larger : ∀ name, M name ⊆ N name)
    (accepted : a.Accepted I M θ) : a.Accepted I N θ := by
  rcases Rule.relation_or_builtin a with ⟨name, named⟩ | ⟨op, called⟩
  · exact (accepted_relation base named).mpr (larger name ((accepted_relation base named).mp accepted))
  · unfold Accepted at accepted ⊢
    rwa [holds_builtin called] at accepted ⊢

end Atom

namespace Rule

variable {r : Rule} {k : Int}

def Defines (I : Interpretation D) (r : Rule) (θ : Valuation D) : Prop :=
  ∀ i ∈ r.inventions, θ i.variableName = i.term.denote I θ

structure Fires (I : Interpretation D) (M : Facts D) (r : Rule) (θ : Valuation D) : Prop where
  defines : r.Defines I θ
  accepted : ∀ a ∈ r.body, a.Accepted I M θ

theorem matches_iff_accepted :
    r.Matches I (.ofFacts M) k θ ↔ r.Invents I θ ∧ ∀ a ∈ r.body, a.Accepted I M θ := by
  -- Facts carry every stamp, so the guard asks for nothing.
  have unguarded : ∀ (a : Atom) (stamp : Option Int),
      a.Holds I (.ofFacts M) θ stamp ↔ a.Holds I (.ofFacts M) θ none := by
    intro a stamp
    rcases relation_or_builtin a with ⟨name, named⟩ | ⟨op, called⟩
    · rw [Atom.holds_relation named, Atom.holds_relation named]
      constructor
      · exact fun ⟨e, stored, same, _⟩ => ⟨e, stored, same, nofun⟩
      · exact fun ⟨e, stored, same, _⟩ => ⟨⟨e.tuple, stamp⟩, stored, same, fun _ given => given⟩
    · rw [Atom.holds_builtin called, Atom.holds_builtin called]
  refine and_congr_right fun _ => ⟨fun each a member => ?_, fun each position a found => ?_⟩
  · obtain ⟨position, found⟩ := List.mem_iff_getElem?.mp member
    have held := each position a found
    rwa [unguarded a (r.guardStamp k position)] at held
  · rw [unguarded a (r.guardStamp k position)]
    exact each a (List.mem_of_getElem? found)

theorem matches_iff_fires_of_plain (none : r.inventions = []) :
    r.Matches I (.ofFacts M) k θ ↔ r.Fires I M θ := by
  rw [matches_iff_accepted]
  have invents : r.Invents I θ := by
    intro v _ _ t invented
    obtain ⟨position, -, invented⟩ := Option.bind_eq_some_iff.mp invented
    simp [invention?, none] at invented
  have defines : r.Defines I θ := by
    intro i member
    rw [none] at member
    cases member
  exact ⟨fun both => ⟨defines, both.2⟩, fun fires => ⟨invents, fires.accepted⟩⟩

theorem Fires.mono (base : ∀ a ∈ r.body, a.IsBase) (larger : ∀ name, M name ⊆ N name)
    (fires : r.Fires I M θ) : r.Fires I N θ where
  defines := fires.defines
  accepted a member := (fires.accepted a member).mono (base a member) larger

end Rule

-- What rules derive from facts in one step.
def consequences (I : Interpretation D) (rules : List Rule) (M : Facts D) : Facts D := fun name =>
  {t | ∃ r ∈ rules, ∃ θ, r.Fires I M θ ∧ ∃ a ∈ r.head, a.relation? = some name ∧ a.tuple I θ = t}

section Evaluation

variable {rules : List Rule} {given : Facts D} {name : String}

theorem isModel_iff (none : ∀ r ∈ rules, r.inventions = []) :
    IsModel I rules M ↔ ∀ name, consequences I rules M name ⊆ M name := by
  constructor
  · rintro model name t ⟨r, member, θ, fires, a, head, named, rfl⟩
    exact model r member θ ((Rule.matches_iff_fires_of_plain (none r member)).mpr fires) a head name
      named
  · intro closed r member θ matched a head name named
    exact closed name ⟨r, member, θ,
      (Rule.matches_iff_fires_of_plain (none r member)).mp matched, a, head, named, rfl⟩

theorem consequences_mono (base : ∀ r ∈ rules, ∀ a ∈ r.body, a.IsBase)
    (larger : ∀ name, M name ⊆ N name) : consequences I rules M name ⊆ consequences I rules N name := by
  rintro t ⟨r, member, θ, fires, derived⟩
  exact ⟨r, member, θ, fires.mono (base r member) larger, derived⟩

theorem leastModel_eq (base : ∀ r ∈ rules, ∀ a ∈ r.body, a.IsBase)
    (none : ∀ r ∈ rules, r.inventions = []) :
    leastModel I rules given name =
      given name ∪ consequences I rules (leastModel I rules given) name := by
  have closed : ∀ other, given other ∪ consequences I rules (leastModel I rules given) other ⊆
      leastModel I rules given other := by
    intro other t inside M larger model
    rcases inside with start | derived
    · exact larger other start
    · exact (isModel_iff none).mp model other
        (consequences_mono base (fun name => leastModel_subset larger model) derived)
  refine Set.Subset.antisymm ?_ (closed name)
  apply leastModel_subset (fun other => Set.subset_union_left) ((isModel_iff none).mpr ?_)
  exact fun other => (consequences_mono base closed).trans Set.subset_union_right

end Evaluation

end PeerExchange
