import PeerExchange.Minimization
import PeerExchange.Proofs.BoundNames
import PeerExchange.Proofs.Homomorphisms

namespace PeerExchange

variable {D : Type} {I : Interpretation D} {θ : Valuation D}

-- A constant has the value of its literal, whatever type it is declared with.
def Interpretation.ReadsLiterals (I : Interpretation D) : Prop :=
  ∀ s t value, I.constant s value = I.constant t value

namespace Term

variable {a b : Term}

theorem map_eq_of_forall₂ {α β : Type} {R : α → α → Prop} {f g : α → β} {as bs : List α}
    (each : ∀ a ∈ as, ∀ b, R a b → f a = g b) (all : List.Forall₂ R as bs) : as.map f = bs.map g := by
  induction all with
  | nil => rfl
  | cons here _ ih =>
    obtain ⟨first, rest⟩ := List.forall_mem_cons.mp each
    rw [List.map_cons, List.map_cons, first _ here, ih rest]

theorem Agrees.names (agrees : a.Agrees b) : a.vars.map Variable.name = b.vars.map Variable.name := by
  induction a using structural generalizing b with
  | onVariable v =>
    cases agrees with
    | «variable» same => simpa [vars] using same
  | onConstant type value =>
    cases agrees
    rfl
  | onSkolem function args ih =>
    cases agrees with
    | skolem each =>
      rw [vars, vars, variablesOf_eq_flatMap, variablesOf_eq_flatMap, List.map_flatMap, List.map_flatMap,
        List.flatMap_def, List.flatMap_def,
        map_eq_of_forall₂ (R := Agrees) (fun a inside _ => ih a inside) each]

theorem Agrees.denote_eq (literal : I.ReadsLiterals)
    (agrees : a.Agrees b) : a.denote I θ = b.denote I θ := by
  induction a using structural generalizing b with
  | onVariable v =>
    cases agrees with
    | «variable» same => exact congrArg θ same
  | onConstant type value =>
    cases agrees
    exact literal _ _ value
  | onSkolem function args ih =>
    cases agrees with
    | skolem each =>
      rw [denote, denote, denoteAll_eq_map, denoteAll_eq_map,
        map_eq_of_forall₂ (R := Agrees) (fun a inside _ => ih a inside) each]

end Term

namespace Atom

variable {a b : Atom}

theorem Agrees.variableNames_eq (agrees : a.Agrees b) : a.variableNames = b.variableNames := by
  unfold variableNames vars
  rw [List.map_flatMap, List.map_flatMap, List.flatMap_def, List.flatMap_def,
    Term.map_eq_of_forall₂ (R := Term.Agrees) (fun _ _ _ same => same.names) agrees.args]

theorem Agrees.tuple_eq (literal : I.ReadsLiterals)
    (agrees : a.Agrees b) : a.tuple I θ = b.tuple I θ :=
  Term.map_eq_of_forall₂ (R := Term.Agrees) (fun _ _ _ same => same.denote_eq literal) agrees.args

end Atom

namespace Rule

variable {r : Rule} {isProvenance : String → Bool} {i j : Nat} {name : String} {a b : Atom}
  {σ : Substitution}

theorem mem_inputNames : (∃ v ∈ (r.inventions.flatMap Invention.args).flatMap Term.vars, v.name = name) ↔
    ∃ i ∈ r.inventions, ∃ v ∈ i.term.vars, v.name = name := by
  simp only [Invention.term, Term.vars, Term.variablesOf_eq_flatMap, List.mem_flatMap]
  constructor
  · rintro ⟨v, ⟨t, ⟨i, member, arg⟩, within⟩, same⟩
    exact ⟨i, member, v, ⟨t, arg, within⟩, same⟩
  · rintro ⟨i, member, v, ⟨t, arg, within⟩, same⟩
    exact ⟨v, ⟨t, ⟨i, member, arg⟩, within⟩, same⟩

theorem occursOutside_iff : r.occursOutside j name = true ↔
    (∃ a ∈ r.head, name ∈ a.variableNames) ∨ (∃ a ∈ r.body.eraseIdx j, name ∈ a.variableNames) ∨
      ∃ i ∈ r.inventions, ∃ v ∈ i.term.vars, v.name = name := by
  unfold occursOutside
  rw [Bool.or_eq_true, Bool.or_eq_true, List.any_eq_true, List.any_eq_true, List.any_eq_true, or_assoc]
  simp only [List.contains_iff_mem, decide_eq_true_eq, mem_inputNames]

-- The atom at one position folds onto the one at another, and moves no name used elsewhere.
structure Subsumes (r : Rule) (i j : Nat) (a b : Atom) (σ : Substitution) : Prop where
  left : r.body[i]? = some a
  right : r.body[j]? = some b
  positive : a.isPositive = true
  positiveRight : b.isPositive = true
  folds : a.homomorphism? b = some σ
  moves : ∀ name image, σ.get? name = some image → r.occursOutside j name = true →
    image.same (.var name) = true

theorem subsumes_parts (subsumed : r.subsumes isProvenance i j = true) : ∃ a b σ, r.Subsumes i j a b σ := by
  unfold subsumes at subsumed
  split at subsumed
  · rename_i a b first second
    simp only [Bool.and_eq_true] at subsumed
    obtain ⟨⟨⟨left, right⟩, -⟩, folds⟩ := subsumed
    split at folds
    · rename_i σ found
      refine ⟨a, b, σ, first, second, left, right, found, fun name image given outside => ?_⟩
      have each := List.all_eq_true.mp folds _ (NameMap.mem_of_lookup given)
      simpa [outside] using each
    · cases folds
  · cases subsumed

theorem firstSubsumed_some (found : r.firstSubsumed? isProvenance = some j) :
    ∃ i, i ≠ j ∧ ∃ a b σ, r.Subsumes i j a b σ := by
  obtain ⟨⟨i, j'⟩, first, rfl⟩ := Option.map_eq_some_iff.mp found
  have chosen := List.find?_some first
  simp only [Bool.and_eq_true, decide_eq_true_eq] at chosen
  exact ⟨i, chosen.1, subsumes_parts chosen.2⟩

namespace Subsumes

theorem mem_eraseIdx (subsumes : r.Subsumes i j a b σ) (differ : i ≠ j) : a ∈ r.body.eraseIdx j := by
  obtain ⟨bound, rfl⟩ := List.getElem?_eq_some_iff.mp subsumes.left
  exact List.mem_eraseIdx_iff_getElem.mpr ⟨i, bound, differ, rfl⟩

theorem kept_or (subsumes : r.Subsumes i j a b σ) {c : Atom} (inside : c ∈ r.body) :
    c ∈ r.body.eraseIdx j ∨ c = b := by
  obtain ⟨k, bound, rfl⟩ := List.getElem_of_mem inside
  by_cases same : k = j
  · subst same
    exact .inr (Option.some.inj ((List.getElem?_eq_getElem bound).symm.trans subsumes.right))
  · exact .inl (List.mem_eraseIdx_iff_getElem.mpr ⟨k, bound, same, rfl⟩)

theorem value_eq (subsumes : r.Subsumes i j a b σ) (outside : r.occursOutside j name = true) :
    σ.value I θ name = θ name := by
  rw [Substitution.value]
  cases found : σ.get? name with
  | none => rfl
  | some image => exact Term.denote_same (subsumes.moves name image found outside)

theorem mem_variableNames (subsumes : r.Subsumes i j a b σ) (outside : r.occursOutside j name = true)
    (inside : name ∈ b.variableNames) : name ∈ a.variableNames := by
  obtain ⟨domain, agrees⟩ := Atom.homomorphism?_sound subsumes.folds
  obtain ⟨image, found⟩ := Option.isSome_iff_exists.mp ((domain name).mpr inside)
  have plain : image.plain = .var name := by
    have same := of_decide_eq_true (subsumes.moves name image found outside)
    simpa [Term.var] using same
  obtain ⟨v, rfl, same⟩ : ∃ v, image = .variable v ∧ v.name = name := by
    cases image with
    | «variable» v => exact ⟨v, rfl, (Variable.mk.inj (Term.variable.inj plain)).1⟩
    | constant type value => cases plain
    | skolem function args => simp [Term.var] at plain
  obtain ⟨t, arg, w, within, rfl⟩ := Atom.mem_variableNames.mp inside
  rw [← agrees.variableNames_eq]
  refine Atom.mem_variableNames.mpr ⟨t.substitute σ, List.mem_map_of_mem arg, v, ?_, same⟩
  exact Term.mem_vars_bind.mpr ⟨w, within, by rw [found]; exact List.mem_singleton_self v⟩

theorem binds_eraseIdx (subsumes : r.Subsumes i j a b σ) (differ : i ≠ j)
    (outside : r.occursOutside j name = true) (binds : Binds r.body name) :
    Binds (r.body.eraseIdx j) name := by
  intro names closed
  -- Names of the subsumed atom alone are free.
  have wider : Closed r.body fun name => r.occursOutside j name = true → names name := by
    constructor
    · intro c inside positive name named outside
      rcases subsumes.kept_or inside with rest | rfl
      · exact closed.joined c rest positive name named
      · exact closed.joined a (subsumes.mem_eraseIdx differ) subsumes.positive name
          (subsumes.mem_variableNames outside named)
    · intro c inside plain inputs name determines known outside
      rcases subsumes.kept_or inside with rest | rfl
      · refine closed.determined c rest plain inputs name determines fun t input v within =>
          known t input v within (occursOutside_iff.mpr (.inr (.inl ⟨c, rest, ?_⟩)))
        exact Atom.mem_variableNames.mpr ⟨t, determines.inputs_subset input, v, within, rfl⟩
      · have called := determines.builtin
        rw [Atom.builtin?_of_isPositive subsumes.positiveRight] at called
        cases called
  exact wider.binds binds outside

end Subsumes

end Rule

end PeerExchange
