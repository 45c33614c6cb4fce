import PeerExchange.Proofs.FittedHeads
import PeerExchange.Proofs.InventedValues

namespace PeerExchange

variable {D : Type} {I : Interpretation D} {M : Facts D} {θ η : Valuation D}

namespace Term

theorem isTyped_rename {f : String → String} {t : Term} (typed : t.IsTyped) : (t.rename f).IsTyped := by
  induction t using structural with
  | onVariable v => exact .variable _
  | onConstant type value => exact typed
  | onSkolem function args ih =>
    rw [rename, bind, bindAll_eq_map, isTyped_skolem, List.forall_mem_map]
    exact fun t inside => ih t inside (isTyped_skolem.mp typed t inside)

theorem rename_skolem {f : String → String} {function : String} {args : List Term} :
    (skolem function args).rename f = .skolem function (args.map (rename f)) := by
  rw [rename, bind, bindAll_eq_map]
  rfl

end Term

namespace Rule

variable {r d u : Rule} {position : Nat} {target head : Atom} {fresh before after : FreshNames}
  {f : String → String} {name : String} {t : Term} {m : Matching}

-- A rule with a flat head, where each variable that the body does not have stands for a Skolem term over
-- variables of the body, under a function of its own. The terms have one list of inputs, with the rest of
-- the head among them.
structure IsSkolemized (d : Rule) : Prop where
  head : ∃ a, d.head = [a] ∧ a.IsBase ∧ ∀ t ∈ a.args, t.IsTyped ∧ ¬ t.IsSkolem
  invented : ∀ i ∈ d.inventions, i.variableName ∉ d.bodyNames
  inputs : ∀ i ∈ d.inventions, ∀ t ∈ i.args, t.IsTyped ∧ ∀ v ∈ t.vars, v.name ∈ d.bodyNames
  names : (d.inventions.map Invention.variableName).Nodup
  functions : (d.inventions.map Invention.function).Nodup
  shared : ∀ i ∈ d.inventions, ∀ j ∈ d.inventions, i.args = j.args
  covered : ∀ a ∈ d.head, ∀ v, .variable v ∈ a.args → v.name ∉ d.inventions.map Invention.variableName →
    ∀ i ∈ d.inventions, ∃ w ∈ i.term.vars, w.name = v.name

theorem IsSkolemized.base_head (skolemized : d.IsSkolemized) (headed : d.head = [head]) : head.IsBase := by
  obtain ⟨a, single, base, -⟩ := skolemized.head
  obtain rfl : head = a := by simpa [headed] using single
  exact base

theorem name_of_bodyNames (inside : name ∈ d.bodyNames) : name ∈ d.allNames := by
  obtain ⟨a, member, named⟩ := List.mem_flatMap.mp inside
  exact name_of_body member named

theorem name_of_invention {i : Invention} (member : i ∈ d.inventions) : i.variableName ∈ d.allNames :=
  List.mem_append_right _ (List.mem_flatMap.mpr ⟨i, member, List.mem_cons_self⟩)

theorem mem_bodyNames_rename : name ∈ (d.rename f).bodyNames ↔ ∃ old ∈ d.bodyNames, f old = name := by
  simp only [bodyNames, rename, List.mem_flatMap, List.mem_map]
  constructor
  · rintro ⟨_, ⟨a, member, rfl⟩, shown⟩
    obtain ⟨_, placed, v, met, rfl⟩ := Atom.mem_variableNames.mp shown
    obtain ⟨t, arg, rfl⟩ := List.mem_map.mp placed
    obtain ⟨w, inside, same⟩ := Term.mem_vars_rename met
    exact ⟨w.name, ⟨a, member, Atom.mem_variableNames.mpr ⟨t, arg, w, inside, rfl⟩⟩, same.symm⟩
  · rintro ⟨old, ⟨a, member, shown⟩, rfl⟩
    obtain ⟨t, arg, v, inside, rfl⟩ := Atom.mem_variableNames.mp shown
    refine ⟨_, ⟨a, member, rfl⟩, Atom.mem_variableNames.mpr ⟨_, List.mem_map_of_mem arg,
      { v with name := f v.name }, ?_, rfl⟩⟩
    exact Term.mem_vars_bind.mpr ⟨v, inside, List.mem_singleton_self _⟩

theorem IsSkolemized.rename (skolemized : d.IsSkolemized) (apart : ApartOn f d.allNames before after) :
    (d.rename f).IsSkolemized where
  head := by
    obtain ⟨a, single, base, args⟩ := skolemized.head
    refine ⟨a.mapArgs (Term.rename f), by simp [Rule.rename, single], base, ?_⟩
    refine List.forall_mem_map.mpr fun t inside => ⟨Term.isTyped_rename (args t inside).1, ?_⟩
    exact Term.isSkolem_rename.not.mpr (args t inside).2
  invented := by
    refine List.forall_mem_map.mpr fun i member shown => ?_
    obtain ⟨old, inside, same⟩ := mem_bodyNames_rename.mp shown
    have equal := apart.injective old (name_of_bodyNames inside) _ (name_of_invention member) same
    exact skolemized.invented i member (equal ▸ inside)
  inputs := by
    refine List.forall_mem_map.mpr fun i member => List.forall_mem_map.mpr fun t arg => ?_
    obtain ⟨typed, bound⟩ := skolemized.inputs i member t arg
    refine ⟨Term.isTyped_rename typed, fun v inside => ?_⟩
    obtain ⟨w, met, same⟩ := Term.mem_vars_rename inside
    exact mem_bodyNames_rename.mpr ⟨w.name, bound w met, same.symm⟩
  names := by
    have renamed : (d.rename f).inventions.map Invention.variableName =
        (d.inventions.map Invention.variableName).map f := by
      simp [Rule.rename, Function.comp_def]
    rw [renamed]
    refine skolemized.names.map_on fun left first right second same => ?_
    obtain ⟨i, member, rfl⟩ := List.mem_map.mp first
    obtain ⟨j, member', rfl⟩ := List.mem_map.mp second
    exact apart.injective _ (name_of_invention member) _ (name_of_invention member') same
  functions := by
    have renamed : (d.rename f).inventions.map Invention.function =
        d.inventions.map Invention.function := by
      simp [Rule.rename, Function.comp_def]
    exact renamed ▸ skolemized.functions
  shared := by
    refine List.forall_mem_map.mpr fun i first => List.forall_mem_map.mpr fun j second => ?_
    exact congrArg (List.map (Term.rename f)) (skolemized.shared i first j second)
  covered := by
    refine List.forall_mem_map.mpr fun a head v arg free => List.forall_mem_map.mpr fun i member => ?_
    obtain ⟨t, inside, same⟩ := List.mem_map.mp arg
    cases t with
    | constant type value => cases same
    | skolem function args => rw [Term.rename_skolem] at same; cases same
    | «variable» u =>
      cases same
      have unbound : u.name ∉ d.inventions.map Invention.variableName := by
        intro bound
        obtain ⟨j, listed, same⟩ := List.mem_map.mp bound
        exact free (List.mem_map.mpr ⟨_, List.mem_map_of_mem listed, congrArg f same⟩)
      obtain ⟨w, met, same⟩ := skolemized.covered a head u inside unbound i member
      refine ⟨{ w with name := f w.name }, ?_, congrArg f same⟩
      change _ ∈ (Term.skolem i.function (i.args.map (Term.rename f))).vars
      rw [← Term.rename_skolem]
      exact Term.mem_vars_bind.mpr ⟨w, met, List.mem_singleton_self _⟩

theorem IsSkolemized.get?_inventionTerms (skolemized : d.IsSkolemized) :
    d.inventionTerms.get? name = some t ↔ ∃ i ∈ d.inventions, i.variableName = name ∧ i.term = t := by
  have distinct : ((d.inventions.map fun i => (i.variableName, i.term)).map Prod.fst).Nodup := by
    rw [List.map_map]
    exact skolemized.names
  rw [inventionTerms, NameMap.get?_ofList distinct, List.mem_map]
  simp only [Prod.mk.injEq]

section Skolemization

theorem head_skolemize {a : Atom} (single : r.head = [a]) (base : a.IsBase)
    (args : ∀ t ∈ a.args, t.IsTyped ∧ ¬ t.IsSkolem) : r.skolemize.body = r.body ∧
      ∃ b, r.skolemize.head = [b] ∧ b.IsBase ∧ (∀ t ∈ b.args, t.IsTyped ∧ ¬ t.IsSkolem) ∧
        ∀ v, .variable v ∈ b.args → ∃ w : Variable, .variable w ∈ a.args ∧ w.name = v.name := by
  refine skolemize_keeps (P := fun q => q.body = r.body ∧ ∃ b, q.head = [b] ∧ b.IsBase ∧
    (∀ t ∈ b.args, t.IsTyped ∧ ¬ t.IsSkolem) ∧
      ∀ v, .variable v ∈ b.args → ∃ w : Variable, .variable w ∈ a.args ∧ w.name = v.name)
    ⟨rfl, a, single, base, args, fun v inside => ⟨v, inside, rfl⟩⟩ ?_
  rintro q name ⟨body, b, headed, isBase, flat, named⟩ -
  have marked {t : Term} (inside : t ∈ b.args) : markInvented name q.inventions.length t = t ∨
      ∃ v w : Variable, t = .variable v ∧ w.name = v.name ∧
        markInvented name q.inventions.length t = .variable w := by
    cases t with
    | constant type value => exact .inl rfl
    | skolem function args => exact .inl rfl
    | «variable» v =>
      by_cases same : v.name = name
      · exact .inr ⟨v, ⟨v.name, true, some q.inventions.length⟩, rfl, rfl, if_pos same⟩
      · exact .inl (if_neg same)
  refine ⟨body, b.mapArgs (markInvented name q.inventions.length), by simp [invent, headed], isBase,
    List.forall_mem_map.mpr fun t inside => ?_, fun v inside => ?_⟩
  · rcases marked inside with same | ⟨v, w, -, -, same⟩
    · rw [same]
      exact flat t inside
    · rw [same]
      exact ⟨.variable w, nofun⟩
  · obtain ⟨t, arg, made⟩ := List.mem_map.mp inside
    rcases marked arg with same | ⟨u, w, rfl, renamed, same⟩
    · rw [same] at made
      exact named v (made ▸ arg)
    · cases same.symm.trans made
      obtain ⟨x, found, known⟩ := named u arg
      exact ⟨x, found, known.trans renamed.symm⟩

theorem isSkolemized_skolemize {a : Atom} (none : r.inventions = []) (single : r.head = [a])
    (base : a.IsBase) (args : ∀ t ∈ a.args, t.IsTyped ∧ ¬ t.IsSkolem)
    (unmarked : ∀ v ∈ a.vars, v.skolem = .none) : r.skolemize.IsSkolemized := by
  obtain ⟨body, b, headed, isBase, flat, named⟩ := head_skolemize single base args
  have names : r.skolemize.bodyNames = r.bodyNames := by rw [bodyNames, body, bodyNames]
  have inventions : r.skolemize.inventions =
      r.undefinedNames.map fun name => ⟨name, r.id ++ "_" ++ name, r.inventionInputs⟩ := by
    rw [inventions_skolemize, none, List.nil_append]
  constructor
  · exact ⟨b, headed, isBase, flat⟩
  · rw [names, inventions]
    exact List.forall_mem_map.mpr fun name undefined => outside_of_undefined undefined
  · rw [names, inventions]
    refine List.forall_mem_map.mpr fun name undefined t input => ?_
    obtain ⟨bound, inside, rfl⟩ := bodyNames_of_input input
    exact ⟨.variable _, List.forall_mem_singleton.mpr inside⟩
  · rw [inventions, List.map_map]
    exact (nodup_undefinedNames r).map fun _ _ same => same
  · rw [inventions, List.map_map]
    exact (nodup_undefinedNames r).map fun _ _ same => String.append_right_inj _ |>.mp same
  · rw [inventions]
    exact List.forall_mem_map.mpr fun _ _ => List.forall_mem_map.mpr fun _ _ => rfl
  · rw [headed, inventions]
    refine List.forall_mem_singleton.mpr fun v arg free => List.forall_mem_map.mpr fun name undefined => ?_
    obtain ⟨w, inside, same⟩ := named v arg
    have listed : w ∈ r.head.flatMap Atom.vars := by
      rw [single, List.flatMap_singleton]
      exact List.mem_flatMap.mpr ⟨_, inside, List.mem_singleton_self w⟩
    have plain : ∀ u ∈ r.head.flatMap Atom.vars, u.skolem = .none := by
      rw [single, List.flatMap_singleton]
      exact unmarked
    have defined : w.name ∉ r.undefinedNames := by
      rw [same]
      simpa [Function.comp_def] using free
    refine ⟨⟨w.name, false, .none⟩, ?_, same⟩
    rw [Invention.term, Term.vars, Term.variablesOf_eq_flatMap]
    exact List.mem_flatMap.mpr ⟨_, input_of_defined listed plain defined, List.mem_singleton_self _⟩

end Skolemization

section Inlined

variable (skolemized : d.IsSkolemized) (headed : d.head = [head])

include skolemized

theorem value_of_defines (defines : d.Defines I η) : d.inventionTerms.value I η = η := by
  funext name
  rw [Substitution.value]
  cases found : d.inventionTerms.get? name with
  | none => rfl
  | some t =>
    obtain ⟨i, member, rfl, rfl⟩ := skolemized.get?_inventionTerms.mp found
    exact (defines i member).symm

theorem value_bodyNames (inside : name ∈ d.bodyNames) : d.inventionTerms.value I η name = η name := by
  rw [Substitution.value]
  cases found : d.inventionTerms.get? name with
  | none => rfl
  | some t =>
    obtain ⟨i, member, rfl, -⟩ := skolemized.get?_inventionTerms.mp found
    exact absurd inside (skolemized.invented i member)

-- A valuation of the body makes the definition fire once its invented variables get their terms.
theorem fires_inventing (accepted : ∀ a ∈ d.body, a.Accepted I M η) :
    d.Fires I M (d.inventionTerms.value I η) where
  defines i member := by
    have term : i.term.denote I (d.inventionTerms.value I η) = i.term.denote I η := by
      refine Term.denote_congr fun v inside => value_bodyNames skolemized ?_
      rw [Invention.term, Term.vars, Term.variablesOf_eq_flatMap, List.mem_flatMap] at inside
      obtain ⟨t, arg, met⟩ := inside
      exact (skolemized.inputs i member t arg).2 v met
    rw [term, Substitution.value, skolemized.get?_inventionTerms.mpr ⟨i, member, rfl, rfl⟩]
  accepted a member := (Atom.accepted_congr (Atom.tuple_congr fun name shown =>
    value_bodyNames skolemized (List.mem_flatMap.mpr ⟨a, member, shown⟩))).mpr (accepted a member)

include headed

theorem inlined_cases (inside : t ∈ (head.substitute d.inventionTerms).args) :
    (t ∈ head.args ∧ ¬ t.IsSkolem) ∨ ∃ i ∈ d.inventions, t = i.term := by
  obtain ⟨a, single, -, args⟩ := skolemized.head
  obtain rfl : head = a := by simpa [headed] using single
  obtain ⟨old, arg, rfl⟩ := List.mem_map.mp inside
  cases old with
  | constant type value => exact .inl ⟨arg, False.elim⟩
  | skolem function inputs => exact absurd trivial (args _ arg).2
  | «variable» v =>
    rw [Term.substitute, Term.bind]
    cases found : d.inventionTerms.get? v.name with
    | none => exact .inl ⟨arg, False.elim⟩
    | some term =>
      obtain ⟨i, member, -, rfl⟩ := skolemized.get?_inventionTerms.mp found
      exact .inr ⟨i, member, rfl⟩

theorem variable_inlined {u : Variable}
    (inside : .variable u ∈ (head.substitute d.inventionTerms).args) {i : Invention}
    (member : i ∈ d.inventions) : ∃ w ∈ i.term.vars, w.name = u.name := by
  obtain ⟨old, arg, same⟩ := List.mem_map.mp inside
  cases old with
  | constant type value => cases same
  | skolem function args =>
    rw [Term.substitute, Term.bind] at same
    cases same
  | «variable» v =>
    rw [Term.substitute, Term.bind] at same
    cases found : d.inventionTerms.get? v.name with
    | none =>
      rw [found] at same
      cases same
      refine skolemized.covered head (headed ▸ List.mem_singleton_self head) u arg (fun bound => ?_) i member
      obtain ⟨j, listed, named⟩ := List.mem_map.mp bound
      have some := skolemized.get?_inventionTerms.mpr ⟨j, listed, named, rfl⟩
      rw [found] at some
      cases some
    | some term =>
      obtain ⟨j, -, -, rfl⟩ := skolemized.get?_inventionTerms.mp found
      rw [found] at same
      cases same

theorem typed_inlined : ∀ t ∈ (head.substitute d.inventionTerms).args, t.IsTyped := by
  intro t inside
  obtain ⟨a, single, -, args⟩ := skolemized.head
  obtain rfl : head = a := by simpa [headed] using single
  rcases inlined_cases skolemized headed inside with ⟨arg, -⟩ | ⟨i, member, rfl⟩
  · exact (args t arg).1
  · exact .skolem fun t arg => (skolemized.inputs i member t arg).1

theorem names_inlined : ∀ t ∈ (head.substitute d.inventionTerms).args, ∀ v ∈ t.vars,
    v.name ∈ d.allNames := by
  intro t inside v met
  rcases inlined_cases skolemized headed inside with ⟨arg, -⟩ | ⟨i, member, rfl⟩
  · exact name_of_head (headed ▸ List.mem_singleton_self head)
      (Atom.mem_variableNames.mpr ⟨t, arg, v, met, rfl⟩)
  · rw [Invention.term, Term.vars, Term.variablesOf_eq_flatMap, List.mem_flatMap] at met
    obtain ⟨t, arg, met⟩ := met
    exact name_of_bodyNames ((skolemized.inputs i member t arg).2 v met)

theorem determined_inlined : HeadFit.Determined (head.substitute d.inventionTerms).args := by
  have invention {function : String} {args : List Term}
      (inside : .skolem function args ∈ (head.substitute d.inventionTerms).args) :
      ∃ i ∈ d.inventions, i.function = function ∧ i.args = args := by
    rcases inlined_cases skolemized headed inside with ⟨-, flat⟩ | ⟨i, member, same⟩
    · exact absurd trivial flat
    · obtain ⟨rfl, rfl⟩ := Term.skolem.inj same
      exact ⟨i, member, rfl, rfl⟩
  intro function args args' left right
  obtain ⟨i, first, rfl, rfl⟩ := invention left
  obtain ⟨j, second, same, rfl⟩ := invention right
  rw [List.inj_on_of_nodup_map skolemized.functions second first same]

theorem inlined_rename (apart : ApartOn f d.allNames before after) :
    (head.mapArgs (Term.rename f)).substitute (d.rename f).inventionTerms =
      (head.substitute d.inventionTerms).mapArgs (Term.rename f) := by
  have renamed := skolemized.rename apart
  obtain ⟨a, single, -, args⟩ := skolemized.head
  obtain rfl : head = a := by simpa [headed] using single
  rw [Atom.substitute, Atom.substitute, Atom.mapArgs, Atom.mapArgs, Atom.mapArgs, Atom.mapArgs, List.map_map,
    List.map_map]
  refine congrArg (fun args => ({ head with args := args } : Atom)) (List.map_congr_left fun t arg => ?_)
  dsimp only [Function.comp]
  cases t with
  | constant type value => rfl
  | skolem function args' => exact absurd trivial (args _ arg).2
  | «variable» v =>
    have named : v.name ∈ d.allNames := name_of_head (headed ▸ List.mem_singleton_self head)
      (Atom.mem_variableNames.mpr ⟨_, arg, v, List.mem_singleton_self v, rfl⟩)
    change ((d.rename f).inventionTerms.get? (f v.name)).getD _ =
      ((d.inventionTerms.get? v.name).getD (.variable v)).rename f
    cases found : d.inventionTerms.get? v.name with
    | some term =>
      obtain ⟨i, member, same, rfl⟩ := skolemized.get?_inventionTerms.mp found
      have image : (d.rename f).inventionTerms.get? (f v.name) = some (i.term.rename f) :=
        renamed.get?_inventionTerms.mpr ⟨_, List.mem_map_of_mem member, congrArg f same,
          Term.rename_skolem.symm⟩
      rw [image]
      rfl
    | none =>
      have none : (d.rename f).inventionTerms.get? (f v.name) = none := by
        cases image : (d.rename f).inventionTerms.get? (f v.name) with
        | none => rfl
        | some term =>
          obtain ⟨_, listed, same, -⟩ := renamed.get?_inventionTerms.mp image
          obtain ⟨i, member, rfl⟩ := List.mem_map.mp listed
          have equal := apart.injective _ (name_of_invention member) _ named same
          have some := skolemized.get?_inventionTerms.mpr ⟨i, member, equal, rfl⟩
          rw [found] at some
          cases some
      rw [none]
      rfl

end Inlined

end Rule

end PeerExchange
