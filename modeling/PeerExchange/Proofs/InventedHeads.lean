import PeerExchange.Proofs.Composition
import PeerExchange.Proofs.SkolemizedRules

namespace PeerExchange

variable {D : Type} {I : Interpretation D} {M : Facts D} {θ η : Valuation D}

namespace Rule

variable {r d u : Rule} {position : Nat} {target head : Atom} {fresh before after : FreshNames}
  {f : String → String} {name : String} {t : Term} {m : Matching}

section Substituted

variable {σ : Substitution}

def derived (I : Interpretation D) (θ : Valuation D) (r : Rule) : List (Option String × List D) :=
  r.head.map fun a => (a.relation?, a.tuple I θ)

theorem mem_consequences_derived {tuple : List D} : tuple ∈ consequences I [r] M name ↔
    ∃ θ, r.Fires I M θ ∧ (some name, tuple) ∈ r.derived I θ := by
  simp [consequences, derived]

theorem derived_substitute : (r.substitute σ).derived I θ = r.derived I (σ.value I θ) := by
  unfold derived substitute
  rw [List.map_map]
  exact List.map_congr_left fun a _ => congrArg (Prod.mk a.relation?) (Atom.tuple_substitute σ)

theorem derived_congr (agree : ∀ n ∈ r.allNames, θ n = η n) : r.derived I θ = r.derived I η :=
  List.map_congr_left fun a inside => congrArg (Prod.mk a.relation?)
    (Atom.tuple_congr fun n shown => agree n (name_of_head inside shown))

theorem fires_substitute : (r.substitute σ).Fires I M θ ↔
    (∀ i ∈ r.inventions, θ i.variableName = i.term.denote I (σ.value I θ)) ∧
      ∀ a ∈ r.body, a.Accepted I M (σ.value I θ) := by
  have term (i : Invention) : (Invention.mk i.variableName i.function
      (i.args.map (Term.substitute σ))).term = i.term.substitute σ := by
    rw [Invention.term, Invention.term, Term.substitute, Term.bind, Term.bindAll_eq_map]
    rfl
  constructor
  · rintro ⟨defines, accepted⟩
    refine ⟨fun i member => ?_, fun a member => ?_⟩
    · rw [defines _ (List.mem_map_of_mem member), term, Term.denote_substitute]
    · exact (Atom.accepted_mapArgs (Atom.tuple_substitute σ)).mp
        (accepted _ (List.mem_map_of_mem member))
  · rintro ⟨defines, accepted⟩
    refine ⟨List.forall_mem_map.mpr fun i member => ?_, List.forall_mem_map.mpr fun a member => ?_⟩
    · rw [term, Term.denote_substitute]
      exact defines i member
    · exact (Atom.accepted_mapArgs (Atom.tuple_substitute σ)).mpr (accepted a member)

end Substituted

def fitted (d : Rule) (head target : Atom) (fresh : FreshNames) : HeadFit :=
  .steps { fresh := fresh } (head.substitute d.inventionTerms).args target.args

def fittedHead (d : Rule) (head target : Atom) (fresh : FreshNames) : Atom :=
  { head.substitute d.inventionTerms with args := (d.fitted head target fresh).args }

def imposed (d : Rule) (head target : Atom) (fresh : FreshNames) (m : Matching) : Substitution :=
  (d.fitted head target fresh).sigma.map (Term.substitute m.sigma)

theorem get?_imposed : (d.imposed head target fresh m).get? name =
    ((d.fitted head target fresh).sigma.get? name).map (Term.substitute m.sigma) := NameMap.get?_map ..

theorem value_imposed (none : (d.fitted head target fresh).sigma.get? name = none) :
    (d.imposed head target fresh m).value I θ name = θ name :=
  Substitution.value_none (by rw [get?_imposed, none]; rfl)

def opposite (d : Rule) (head target : Atom) : List (Term × Term) :=
  (head.substitute d.inventionTerms).args.zip target.args

theorem unfoldThrough_eq_some : (r.unfoldThrough position target d head fresh).1 = some u ↔
    (d.fitted head target fresh).clash = false ∧
      ∃ m, target.foldOnto? (d.fittedHead head target fresh) = some m ∧
        (r.through position d m).substitute (d.imposed head target fresh m) = u := by
  unfold unfoldThrough imposed fittedHead fitted
  dsimp only
  generalize HeadFit.steps { fresh := fresh } (head.substitute d.inventionTerms).args target.args = fit
  cases fit.clash with
  | true => simp
  | false =>
    cases target.foldOnto? { head.substitute d.inventionTerms with args := fit.args } with
    | none => simp
    | some m =>
      refine ⟨fun made => ⟨rfl, m, rfl, Option.some.inj made⟩, ?_⟩
      rintro ⟨-, _, same, made⟩
      cases same
      exact congrArg some made

-- A rule that reads an atom, whose variables were met before and none of which it invents.
structure Reads (r : Rule) (position : Nat) (target : Atom) (fresh : FreshNames) : Prop where
  found : r.body[position]? = some target
  base : target.IsBase
  typed : ∀ t ∈ target.args, t.IsTyped
  names : ∀ n ∈ r.allNames, fresh.Used n
  kept : ∀ i ∈ r.inventions, i.variableName ∉ target.variableNames

theorem Reads.mono (reads : r.Reads position target before) (later : before.next ≤ after.next) :
    r.Reads position target after :=
  { reads with names := fun n inside => (reads.names n inside).mono later }

theorem Reads.used (reads : r.Reads position target fresh) (inside : name ∈ target.variableNames) :
    fresh.Used name :=
  reads.names name (name_of_body (List.mem_of_getElem? reads.found) inside)

-- A definition renamed apart from what was met before, with as many arguments as the atom.
structure Offers (d : Rule) (head target : Atom) (before fresh : FreshNames) : Prop where
  skolemized : d.IsSkolemized
  headed : d.head = [head]
  length : head.args.length = target.args.length
  later : before.next ≤ fresh.next
  unused : ∀ n ∈ d.allNames, ¬ before.Used n
  used : ∀ n ∈ d.allNames, fresh.Used n

namespace Offers

variable (offers : d.Offers head target before fresh)

include offers

theorem length_inlined : (head.substitute d.inventionTerms).args.length = target.args.length :=
  (List.length_map ..).trans offers.length

theorem map_snd_opposite : (d.opposite head target).map Prod.snd = target.args :=
  List.map_snd_zip (Nat.le_of_eq offers.length_inlined.symm)

theorem map_fst_opposite :
    (d.opposite head target).map Prod.fst = (head.substitute d.inventionTerms).args :=
  List.map_fst_zip (Nat.le_of_eq offers.length_inlined)

theorem known : ∀ t ∈ (head.substitute d.inventionTerms).args, ∀ v ∈ t.vars, fresh.Used v.name :=
  fun t inside v met =>
    offers.used v.name (names_inlined offers.skolemized offers.headed t inside v met)

theorem fitted : HeadFit.Fitted fresh (d.opposite head target) (d.fitted head target fresh) :=
  (HeadFit.fitted_start fresh).steps offers.length_inlined offers.known

theorem settled {term : Term} (found : (d.fitted head target fresh).sigma.get? name = some term) :
    name ∈ HeadFit.settled (d.opposite head target) := by
  obtain ⟨skolem, v, same, member⟩ := offers.fitted.images name term found
  exact HeadFit.mem_settled.mpr ⟨_, member, skolem, v, rfl, same⟩

theorem named {term : Term} (found : (d.fitted head target fresh).sigma.get? name = some term) :
    name ∈ target.variableNames := by
  obtain ⟨-, v, same, member⟩ := offers.fitted.images name term found
  exact Atom.mem_variableNames.mpr
    ⟨_, (List.of_mem_zip member).2, v, List.mem_singleton_self v, same⟩

section Clear

variable (clear : (d.fitted head target fresh).clash = false)

include clear

theorem args_cases (inside : t ∈ (d.fittedHead head target fresh).args) :
    t ∈ (head.substitute d.inventionTerms).args ∨ ∃ name, t = .var name ∧ ¬ fresh.Used name := by
  obtain ⟨⟨h, s⟩, member, related⟩ := Compiled.forall₂_source (offers.fitted.opposed clear) inside
  have left := (List.of_mem_zip member).1
  cases related with
  | invented unused found same => exact .inr ⟨_, rfl, unused⟩
  | nested => exact .inl left
  | plain flat => exact .inl left

theorem typed : ∀ t ∈ (d.fittedHead head target fresh).args, t.IsTyped := by
  intro t inside
  rcases offers.args_cases clear inside with kept | ⟨name, rfl, -⟩
  · exact typed_inlined offers.skolemized offers.headed t kept
  · exact .variable _

theorem apart (reads : r.Reads position target before) :
    ∀ name ∈ target.variableNames, name ∉ (d.fittedHead head target fresh).variableNames := by
  intro name inside shown
  obtain ⟨t, arg, v, met, rfl⟩ := Atom.mem_variableNames.mp shown
  rcases offers.args_cases clear arg with kept | ⟨name, rfl, new⟩
  · exact offers.unused v.name (names_inlined offers.skolemized offers.headed t kept v met)
      (reads.used inside)
  · obtain rfl := List.mem_singleton.mp met
    exact new ((reads.used inside).mono offers.later)

end Clear

section Derives

variable (reads : r.Reads position target before)
  (clear : (d.fitted head target fresh).clash = false)
  (folded : target.foldOnto? (d.fittedHead head target fresh) = some m)
  (untangled : HeadFit.Untangled (d.opposite head target))

include reads clear folded untangled

-- A variable of the definition has one value before and after variables of the rule get their terms.
theorem value_eq (inside : name ∈ d.allNames) :
    m.sigma.value I ((d.imposed head target fresh m).value I θ) name = m.sigma.value I θ name := by
  obtain ⟨-, -, pairs, taken, rfl⟩ := Atom.foldOnto?_eq_some.mp folded
  rw [← offers.map_snd_opposite] at taken
  cases image : (pairs.foldl Matching.meet {}).sigma.get? name with
  | none =>
    rw [Substitution.value_none image, Substitution.value_none image]
    refine value_imposed (Option.eq_none_iff_forall_ne_some.mpr fun term found => ?_)
    exact offers.unused name inside (reads.used (offers.named found))
  | some t =>
    rw [Substitution.value_some image, Substitution.value_some image]
    refine Term.denote_congr fun v met => value_imposed ?_
    refine Option.eq_none_iff_forall_ne_some.mpr fun term found => ?_
    rcases Matching.image_of_meetAll image with none | ⟨w, pair, rfl⟩
    · cases none
    · exact HeadFit.settled_of_image untangled (offers.fitted.opposed clear) taken pair
        (offers.used w.name inside) met (offers.settled found)

theorem tuple_eq (free : I.IsTermFree) (solved : ∀ pair ∈ m.equalities,
      pair.1.denote I ((d.imposed head target fresh m).value I θ) =
        (pair.2.substitute m.sigma).denote I ((d.imposed head target fresh m).value I θ)) :
    (head.substitute d.inventionTerms).tuple I
        (m.sigma.value I ((d.imposed head target fresh m).value I θ)) =
      target.tuple I ((d.imposed head target fresh m).value I θ) := by
  have equal := (Atom.foldOnto?_solves free (offers.apart clear reads) reads.typed
    (offers.typed clear) folded).mp solved
  rw [Atom.tuple_substitute, Atom.tuple, Atom.tuple, ← offers.map_snd_opposite] at equal
  rw [Atom.tuple, Atom.tuple, ← offers.map_snd_opposite, ← offers.map_fst_opposite]
  refine HeadFit.map_eq_of_opposed (offers.fitted.opposed clear) equal fun pair member arg opposed same => ?_
  cases opposed with
  | nested => exact same
  | plain flat => exact same
  | @invented function name args v term unused found agrees =>
    have inside : .skolem function args ∈ (head.substitute d.inventionTerms).args :=
      (List.of_mem_zip member).1
    have image : (d.imposed head target fresh m).get? v.name = some (term.substitute m.sigma) := by
      rw [get?_imposed, found]
      rfl
    calc (Term.skolem function args).denote I (m.sigma.value I ((d.imposed head target fresh m).value I θ))
      _ = (Term.skolem function args).denote I (m.sigma.value I θ) :=
        Term.denote_congr fun w met => offers.value_eq reads clear folded untangled
          (names_inlined offers.skolemized offers.headed _ inside w met)
      _ = term.denote I (m.sigma.value I θ) := (Term.denote_same agrees).symm
      _ = (term.substitute m.sigma).denote I θ := (Term.denote_substitute m.sigma term).symm
      _ = (Term.variable v).denote I ((d.imposed head target fresh m).value I θ) :=
        (Substitution.value_some image).symm

theorem derives (free : I.IsTermFree) (named : target.relation? = some name)
    (held : ∀ η, d.Fires I M η → head.tuple I η ∈ M name)
    (fires : ((r.through position d m).substitute (d.imposed head target fresh m)).Fires I M θ) :
    r.Fires I M ((d.imposed head target fresh m).value I θ) := by
  obtain ⟨defines, accepted⟩ := fires_substitute.mp fires
  have tuple := offers.tuple_eq reads clear folded untangled free fun pair inside =>
    (free.equal _ _).mp (accepted _ (mem_body_through.mpr (.inr (.inr (.inl ⟨pair, inside, rfl⟩)))))
  refine ⟨fun i member => ?_, fun a inside => ?_⟩
  · rw [← defines i member]
    refine value_imposed (Option.eq_none_iff_forall_ne_some.mpr fun term found => ?_)
    exact reads.kept i member (offers.named found)
  · rcases (mem_body_iff reads.found).mp inside with earlier | rfl | rest
    · exact accepted a (mem_body_through.mpr (.inl earlier))
    · rw [Atom.accepted_relation reads.base named, ← tuple, Atom.tuple_substitute]
      refine held _ (fires_inventing offers.skolemized fun own listed => ?_)
      exact (Atom.accepted_mapArgs (Atom.tuple_substitute m.sigma)).mp
        (accepted _ (mem_body_through.mpr (.inr (.inl ⟨own, listed, rfl⟩))))
    · exact accepted a (mem_body_through.mpr (.inr (.inr (.inr rest))))

end Derives

section Covers

variable (reads : r.Reads position target before)

include reads

-- Under a valuation that makes head and atom equal, variables of the atom have the values of the Skolem
-- terms that they are opposite.
theorem imposed_eq {θ' : Valuation D} (kept : ∀ n, fresh.Used n → θ' n = θ n)
    (equal : (head.substitute d.inventionTerms).tuple I θ = target.tuple I θ)
    (image : m.sigma.value I θ' = θ') : (d.imposed head target fresh m).value I θ' = θ' := by
  funext n
  cases found : (d.fitted head target fresh).sigma.get? n with
  | none => exact value_imposed found
  | some term =>
    obtain ⟨-, v, rfl, member⟩ := offers.fitted.images n term found
    rw [Substitution.value_some (by rw [get?_imposed, found]; rfl), Term.denote_substitute, image]
    calc term.denote I θ' = term.denote I θ := Term.denote_congr fun w met =>
        kept w.name (offers.known term (List.of_mem_zip member).1 w met)
      _ = θ v.name := List.forall₂_zip (Atom.forall₂_of_tuple_eq equal) member
      _ = θ' v.name := (kept v.name ((reads.used (offers.named found)).mono offers.later)).symm

-- Where the head has the tuple of the atom, the head made ready has it too, once the fresh variables have
-- the values of what they are for.
theorem exists_fitting (free : I.IsTermFree)
    (equal : (head.substitute d.inventionTerms).tuple I θ = target.tuple I θ) :
    (d.fitted head target fresh).clash = false ∧ ∃ θ' : Valuation D, (∀ n, fresh.Used n → θ' n = θ n) ∧
      target.tuple I θ' = (d.fittedHead head target fresh).tuple I θ' := by
  have meant : HeadFit.Meant I θ fresh (d.opposite head target) (d.fitted head target fresh) :=
    (HeadFit.meant_start fresh).steps free (HeadFit.fitted_start fresh) offers.length_inlined
      offers.known reads.typed (determined_inlined offers.skolemized offers.headed)
      (List.forall_mem_nil _) equal
  obtain ⟨θ', kept, valued⟩ := meant.valued
  refine ⟨meant.clear, θ', kept, ?_⟩
  calc target.tuple I θ' = target.tuple I θ :=
        Atom.tuple_congr fun n inside => kept n ((reads.used inside).mono offers.later)
    _ = (head.substitute d.inventionTerms).tuple I θ := equal.symm
    _ = (d.opposite head target).map fun pair => pair.1.denote I θ := by
      rw [Atom.tuple, ← offers.map_fst_opposite, List.map_map]
      rfl
    _ = (d.fittedHead head target fresh).tuple I θ' := valued.symm

-- The unfolded rule fires where rule and definition do, if the images have the values of their variables.
theorem fires_unfolded (free : I.IsTermFree) (clear : (d.fitted head target fresh).clash = false)
    (folded : target.foldOnto? (d.fittedHead head target fresh) = some m)
    (fitted : target.tuple I θ = (d.fittedHead head target fresh).tuple I θ)
    (image : m.sigma.value I θ = θ) (imposed : (d.imposed head target fresh m).value I θ = θ)
    (fires : r.Fires I M θ) (derived : d.Fires I M θ) :
    ((r.through position d m).substitute (d.imposed head target fresh m)).Fires I M θ := by
  refine fires_substitute.mpr ⟨?_, fun a inside => ?_⟩ <;> rw [imposed]
  · exact fires.defines
  · rcases mem_body_through.mp inside with
      earlier | ⟨read, listed, rfl⟩ | ⟨pair, equation, rfl⟩ | rest
    · exact fires.accepted a (List.mem_of_mem_take earlier)
    · refine (Atom.accepted_mapArgs (Atom.tuple_substitute m.sigma)).mpr ?_
      rw [image]
      exact derived.accepted read listed
    · refine (free.equal _ _).mpr ?_
      refine (Atom.foldOnto?_solves free (offers.apart clear reads) reads.typed (offers.typed clear)
        folded).mpr ?_ pair equation
      rw [Atom.tuple_substitute, image, fitted]
    · exact fires.accepted a (List.mem_of_mem_drop rest)

theorem covers (free : I.IsTermFree) (predicate : target.predicate = head.predicate)
    (kind : target.kind = head.kind) (fires : r.Fires I M θ) (derived : d.Fires I M θ)
    (equal : head.tuple I θ = target.tuple I θ) :
    ∃ u, (r.unfoldThrough position target d head fresh).1 = some u ∧
      ∃ θ', u.Fires I M θ' ∧ u.derived I θ' = r.derived I θ := by
  have inlined : (head.substitute d.inventionTerms).tuple I θ = target.tuple I θ := by
    rw [Atom.tuple_substitute, value_of_defines offers.skolemized derived.defines, equal]
  obtain ⟨clear, θ', kept, fitted⟩ := offers.exists_fitting reads free inlined
  have old (n : String) (inside : n ∈ r.allNames) : θ' n = θ n :=
    kept n ((reads.names n inside).mono offers.later)
  have own (n : String) (inside : n ∈ d.allNames) : θ' n = θ n := kept n (offers.used n inside)
  have typed := offers.typed clear
  cases folded : target.foldOnto? (d.fittedHead head target fresh) with
  | none => exact absurd fitted (Atom.foldOnto?_none free reads.typed typed folded predicate kind)
  | some m =>
    have image : m.sigma.value I θ' = θ' :=
      Atom.value_of_foldOnto? free reads.typed typed folded fitted
    have imposed := offers.imposed_eq reads kept inlined image
    refine ⟨_, unfoldThrough_eq_some.mpr ⟨clear, m, folded, rfl⟩, θ', ?_, ?_⟩
    · exact offers.fires_unfolded reads free clear folded fitted image imposed
        (fires_congr (fun n inside => (old n inside).symm) fires)
        (fires_congr (fun n inside => (own n inside).symm) derived)
    · rw [derived_substitute, imposed]
      exact (derived_congr old : r.derived I θ' = r.derived I θ)

end Covers

end Offers

end Rule

end PeerExchange
