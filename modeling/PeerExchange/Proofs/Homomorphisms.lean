import PeerExchange.Proofs.Composition
import PeerExchange.Proofs.OppositeTerms

namespace PeerExchange

variable {D : Type} {I : Interpretation D} {θ η : Valuation D}

namespace Term

variable {a b : Term} {function : String}

@[simp] theorem plain_skolem (function : String) (args : List Term) :
    (skolem function args).plain = skolem function (args.map plain) := by
  rw [plain, bind, bindAll_eq_map]
  rfl

@[simp] theorem plain_constant (type : Option ColumnType) (value : Literal) :
    (constant type value).plain = constant type value := rfl

@[simp] theorem plain_variable (v : Variable) : (Term.variable v).plain = var v.name := rfl

theorem plain_eq_skolem {args : List Term} :
    a.plain = skolem function args ↔ ∃ as, a = skolem function as ∧ as.map plain = args := by
  cases a with
  | «variable» v => simp [var]
  | constant type value => simp
  | skolem function' as => simp

theorem plain_eq_constant {type : Option ColumnType} {value : Literal} :
    a.plain = constant type value ↔ a = constant type value := by
  cases a with
  | «variable» v => simp [var]
  | constant type value => simp
  | skolem function' as => simp

theorem agrees_of_plain (same : a.plain = b.plain) : a.Agrees b := by
  induction a using structural generalizing b with
  | onVariable v =>
    cases b with
    | «variable» w =>
      have bare : (⟨v.name, false, none⟩ : Variable) = ⟨w.name, false, none⟩ := variable.inj same
      exact .variable (Variable.mk.inj bare).1
    | constant type value => cases same
    | skolem function args => simp [var] at same
  | onConstant type value =>
    obtain rfl := plain_eq_constant.mp same.symm
    exact .constant (Matching.typesAgree_self type)
  | onSkolem function args ih =>
    rw [plain_skolem] at same
    obtain ⟨bs, rfl, each⟩ := plain_eq_skolem.mp same.symm
    rw [← List.forall₂_eq_eq_eq, List.forall₂_map_left_iff, List.forall₂_map_right_iff] at each
    have inside : List.Forall₂ (fun a b => a ∈ args ∧ b.plain = a.plain) args bs :=
      (List.forall₂_and_left args bs).mpr ⟨fun _ member => member, each.flip⟩
    exact .skolem (inside.imp fun a b both => ih a both.1 both.2.symm)

-- Where every pair has a variable on its right with the left side for image, the image is the left side.
theorem agrees_of_opposites {σ : Substitution} {pairs : List (Term × Term)}
    (taken : Matching.opposites a b = some pairs)
    (images : ∀ pair ∈ pairs, ∃ v image, pair.2 = .variable v ∧ σ.get? v.name = some image ∧
      image.same pair.1 = true) : (b.substitute σ).Agrees a := by
  induction b using structural generalizing a pairs with
  | onVariable v =>
    obtain rfl := Matching.opposites_variable.mp taken
    obtain ⟨_, image, here, found, same⟩ := images _ (List.mem_singleton_self _)
    cases here
    rw [substitute, bind, found]
    exact agrees_of_plain (of_decide_eq_true same)
  | onConstant type value =>
    rcases Matching.opposites_constant.mp taken with ⟨_, rfl, rfl⟩ | ⟨type', rfl, types, -⟩
    · obtain ⟨_, _, other, -⟩ := images _ (List.mem_singleton_self _)
      cases other
    · exact .constant types
  | onSkolem function args ih =>
    rcases Matching.opposites_skolem.mp taken with ⟨_, rfl, rfl⟩ | ⟨as, rfl, all⟩
    · obtain ⟨_, _, other, -⟩ := images _ (List.mem_singleton_self _)
      cases other
    · rw [substitute, bind, bindAll_eq_map]
      have each : List.Forall₂ (fun a b => (b.substitute σ).Agrees a) as args :=
        Matching.forall_oppositesAll (fun b inside a _ pairs taken images => ih b inside taken images)
          all images
      exact .skolem (List.forall₂_map_left_iff.mpr each.flip)

theorem opposites_of_plain {τ : Substitution} (same : a.plain = (b.substitute τ).plain) :
    ∃ pairs, Matching.opposites a b = some pairs ∧ ∀ pair ∈ pairs, ∃ v, pair.2 = .variable v ∧
      pair.1.plain = ((var v.name).substitute τ).plain := by
  induction b using structural generalizing a with
  | onVariable v =>
    refine ⟨_, Matching.opposites_variable.mpr rfl, List.forall_mem_singleton.mpr ⟨v, rfl, ?_⟩⟩
    rw [same, var, substitute, substitute, bind, bind]
    cases τ.get? v.name <;> rfl
  | onConstant type value =>
    obtain rfl := plain_eq_constant.mp same
    exact ⟨[], Matching.opposites_constant.mpr (.inr ⟨type, rfl, Matching.typesAgree_self type, rfl⟩),
      List.forall_mem_nil _⟩
  | onSkolem function args ih =>
    rw [substitute, bind, bindAll_eq_map, plain_skolem, List.map_map] at same
    obtain ⟨as, rfl, each⟩ := plain_eq_skolem.mp same
    rw [← List.forall₂_eq_eq_eq, List.forall₂_map_left_iff, List.forall₂_map_right_iff] at each
    obtain ⟨pairs, taken, settled⟩ := Matching.exists_oppositesAll
      (fun b inside a _ equal => ih b inside equal) each
    exact ⟨pairs, Matching.opposites_skolem.mpr (.inr ⟨as, rfl, taken⟩), settled⟩

end Term

namespace Matching

variable {m : Matching} {pair : Term × Term} {pairs : List (Term × Term)} {name : String} {t : Term}
  {σ τ : Substitution}

-- Meeting a pair gives its variable an image, finds the image it has, or leaves an equation over.
inductive Meets (m : Matching) : Term × Term → Matching → Prop
  | bind {a : Term} {v : Variable} (new : m.sigma.get? v.name = none) :
    Meets m (a, .variable v) { m with sigma := m.sigma.insert v.name a }
  | again {a : Term} {v : Variable} {image : Term} (found : m.sigma.get? v.name = some image)
    (same : image.same a = true) : Meets m (a, .variable v) m
  | equate {a : Term} {v : Variable} {image : Term} (found : m.sigma.get? v.name = some image)
    (differ : ¬ image.same a = true) : Meets m (a, .variable v) (m.assume a image)
  | fix {a b : Term} (other : ∀ v, b ≠ .variable v) : Meets m (a, b) (m.assume a b)

theorem meets {met : Matching} (made : m.meet pair = met) : Meets m pair met := by
  obtain ⟨a, b⟩ := pair
  subst made
  cases b with
  | «variable» v =>
    cases found : m.sigma.get? v.name with
    | none =>
      have met : m.meet (a, .variable v) = { m with sigma := m.sigma.insert v.name a } := by
        simp only [meet, found]
      exact met ▸ .bind found
    | some image =>
      by_cases same : image.same a = true
      · have met : m.meet (a, .variable v) = m := by simp only [meet, found, if_pos same]
        rw [met]
        exact .again found same
      · have met : m.meet (a, .variable v) = m.assume a image := by
          simp only [meet, found, if_neg same]
        exact met ▸ .equate found same
  | constant type value => exact .fix nofun
  | skolem function args => exact .fix nofun

theorem extends_insert {v : Variable} {a : Term} (new : m.sigma.get? v.name = none) :
    Extends m { m with sigma := m.sigma.insert v.name a } := by
  refine ⟨fun name t found => ?_, fun _ inside => inside⟩
  rw [NameMap.get?_insert, if_neg]
  · exact found
  · rintro rfl
    rw [new] at found
    cases found

theorem extends_meet (m : Matching) (pair : Term × Term) : Extends m (m.meet pair) := by
  generalize made : m.meet pair = met
  cases meets made with
  | bind new => exact extends_insert new
  | again => exact .refl m
  | equate => exact extends_assume
  | fix => exact extends_assume

theorem extends_meetAll (m : Matching) (pairs : List (Term × Term)) :
    Extends m (pairs.foldl meet m) := by
  induction pairs generalizing m with
  | nil => exact .refl m
  | cons pair rest ih => exact (extends_meet m pair).trans (ih _)

theorem image_of_meetAll (found : (pairs.foldl meet m).sigma.get? name = some t) :
    m.sigma.get? name = some t ∨ ∃ v, (t, Term.variable v) ∈ pairs ∧ v.name = name := by
  induction pairs generalizing m with
  | nil => exact .inl found
  | cons pair rest ih =>
    rcases ih found with before | ⟨v, later, same⟩
    · generalize made : m.meet pair = met at before
      cases meets made with
      | @bind a v new =>
        rw [NameMap.get?_insert] at before
        split at before
        · rename_i same
          cases before
          exact .inr ⟨v, List.mem_cons_self, same⟩
        · exact .inl before
      | again => exact .inl before
      | equate => exact .inl before
      | fix => exact .inl before
    · exact .inr ⟨v, List.mem_cons_of_mem _ later, same⟩

def Solves (I : Interpretation D) (θ : Valuation D) (σ : Substitution) (pairs : List (Term × Term)) :
    Prop := ∀ pair ∈ pairs, pair.1.denote I θ = (pair.2.substitute σ).denote I θ

theorem solves_cons : Solves I θ σ (pair :: pairs) ↔
    pair.1.denote I θ = (pair.2.substitute σ).denote I θ ∧ Solves I θ σ pairs := List.forall_mem_cons

theorem solves_assume {a b : Term} : Solves I θ σ (m.assume a b).equalities ↔
    Solves I θ σ m.equalities ∧ a.denote I θ = (b.substitute σ).denote I θ := by
  simp [Solves, assume, or_imp, forall_and]

theorem solves_meet (fixed : ∀ name t, σ.get? name = some t → (t.substitute σ).denote I θ = t.denote I θ)
    (later : ∀ name t, (m.meet pair).sigma.get? name = some t → σ.get? name = some t) :
    Solves I θ σ (m.meet pair).equalities ↔
      Solves I θ σ m.equalities ∧ pair.1.denote I θ = (pair.2.substitute σ).denote I θ := by
  have image {v : Variable} {t : Term} (found : σ.get? v.name = some t) :
      ((Term.variable v).substitute σ).denote I θ = t.denote I θ := by
    rw [Term.substitute, Term.bind, found]
    rfl
  generalize made : m.meet pair = met at later ⊢
  cases meets made with
  | @bind a v new =>
    refine (and_iff_left ?_).symm
    exact (image (later v.name a (by rw [NameMap.get?_insert, if_pos rfl]))).symm
  | @again a v t found same =>
    refine (and_iff_left ?_).symm
    rw [image (later v.name t found), Term.denote_same same]
  | @equate a v t found differ =>
    have found := later v.name t found
    rw [solves_assume, image found, fixed v.name t found]
  | fix => exact solves_assume

theorem solves_meetAll
    (fixed : ∀ name t, σ.get? name = some t → (t.substitute σ).denote I θ = t.denote I θ)
    (later : ∀ name t, (pairs.foldl meet m).sigma.get? name = some t → σ.get? name = some t) :
    Solves I θ σ (pairs.foldl meet m).equalities ↔ Solves I θ σ m.equalities ∧ Solves I θ σ pairs := by
  induction pairs generalizing m with
  | nil => exact (and_iff_left (List.forall_mem_nil _)).symm
  | cons pair rest ih =>
    rw [List.foldl_cons, ih later, solves_meet fixed fun name t found =>
      later name t ((extends_meetAll _ rest).images name t found), and_assoc, ← solves_cons]

-- Nothing is left over when each pair has a variable on its right with the left side for image.
theorem images_of_meetAll (none : (pairs.foldl meet m).equalities = []) :
    ∀ pair ∈ pairs, ∃ v image, pair.2 = .variable v ∧
      (pairs.foldl meet m).sigma.get? v.name = some image ∧ image.same pair.1 = true := by
  induction pairs generalizing m with
  | nil => exact List.forall_mem_nil _
  | cons pair rest ih =>
    refine List.forall_mem_cons.mpr ⟨?_, ih none⟩
    have grown := extends_meetAll (m.meet pair) rest
    have empty : (m.meet pair).equalities = [] := by
      refine List.eq_nil_iff_forall_not_mem.mpr fun kept inside => ?_
      have member := grown.equalities kept inside
      rw [show (rest.foldl meet (m.meet pair)).equalities = [] from none] at member
      cases member
    change ∃ (v : Variable) (image : Term), _ ∧ (rest.foldl meet (m.meet pair)).sigma.get? v.name = some image ∧ _
    generalize made : m.meet pair = met at grown empty ⊢
    cases meets made with
    | @bind a v new =>
      exact ⟨v, a, rfl, grown.images v.name a (by rw [NameMap.get?_insert, if_pos rfl]),
        decide_eq_true rfl⟩
    | @again a v image found same => exact ⟨v, image, rfl, grown.images v.name image found, same⟩
    | equate => simp [assume] at empty
    | fix => simp [assume] at empty

-- Images that a substitution gives too, and no equations.
structure Follows (τ : Substitution) (m : Matching) : Prop where
  none : m.equalities = []
  images : ∀ name t, m.sigma.get? name = some t → t.plain = ((Term.var name).substitute τ).plain

theorem follows_meetAll (follows : m.Follows τ) (settled : ∀ pair ∈ pairs, ∃ v, pair.2 = .variable v ∧
      pair.1.plain = ((Term.var v.name).substitute τ).plain) : (pairs.foldl meet m).Follows τ := by
  induction pairs generalizing m with
  | nil => exact follows
  | cons pair rest ih =>
    obtain ⟨⟨v, right, left⟩, settled⟩ := List.forall_mem_cons.mp settled
    refine ih ?_ settled
    generalize made : m.meet pair = met
    cases meets made with
    | @bind a w new =>
      cases right
      refine ⟨follows.none, fun name t found => ?_⟩
      rw [NameMap.get?_insert] at found
      split at found
      · rename_i same
        cases found
        exact same ▸ left
      · exact follows.images name t found
    | again => exact follows
    | @equate a w image found differ =>
      cases right
      refine absurd ?_ differ
      exact decide_eq_true ((follows.images _ image found).trans left.symm)
    | fix other => exact absurd right (other v)

end Matching

namespace Atom

variable {a b : Atom} {m : Matching} {σ τ : Substitution}

theorem foldOnto?_eq_some : a.foldOnto? b = some m ↔ a.predicate = b.predicate ∧ a.kind = b.kind ∧
    ∃ pairs, Matching.oppositesAll a.args b.args = some pairs ∧ pairs.foldl Matching.meet {} = m := by
  unfold foldOnto?
  rw [Matching.foldAll_eq_meet]
  split
  · rename_i agree
    rw [Bool.and_eq_true, decide_eq_true_iff, decide_eq_true_iff] at agree
    simp [agree.1, agree.2]
  · rename_i differ
    refine ⟨nofun, fun ⟨predicate, kind, _⟩ => absurd ?_ differ⟩
    rw [Bool.and_eq_true, decide_eq_true_iff, decide_eq_true_iff]
    exact ⟨predicate, kind⟩

theorem homomorphism?_eq_some : a.homomorphism? b = some σ ↔
    ∃ m, a.foldOnto? b = some m ∧ m.equalities = [] ∧ m.sigma = σ := by
  unfold homomorphism?
  cases a.foldOnto? b with
  | none => simp
  | some m => simp [List.isEmpty_iff]

-- The same predicate and table, and arguments that agree.
structure Agrees (a b : Atom) : Prop where
  predicate : a.predicate = b.predicate
  kind : a.kind = b.kind
  args : List.Forall₂ Term.Agrees a.args b.args

theorem mem_vars_pairs {pairs : List (Term × Term)} {v : Variable}
    (taken : Matching.oppositesAll a.args b.args = some pairs) :
    v ∈ b.vars ↔ ∃ pair ∈ pairs, v ∈ pair.2.vars :=
  Matching.mem_vars_oppositesAll (fun _ _ _ _ => Matching.mem_vars_opposites) taken

theorem homomorphism?_sound (found : a.homomorphism? b = some σ) :
    (∀ name, (σ.get? name).isSome = true ↔ name ∈ b.variableNames) ∧ (b.substitute σ).Agrees a := by
  obtain ⟨m, folded, none, rfl⟩ := homomorphism?_eq_some.mp found
  obtain ⟨predicate, kind, pairs, taken, rfl⟩ := foldOnto?_eq_some.mp folded
  have images := Matching.images_of_meetAll none
  refine ⟨fun name => ⟨fun bound => ?_, fun mentioned => ?_⟩, predicate.symm, kind.symm, ?_⟩
  · obtain ⟨t, image⟩ := Option.isSome_iff_exists.mp bound
    rcases Matching.image_of_meetAll image with none | ⟨v, member, rfl⟩
    · cases none
    · exact List.mem_map_of_mem ((mem_vars_pairs taken).mpr ⟨_, member, by simp [Term.vars]⟩)
  · obtain ⟨v, inside, rfl⟩ := List.mem_map.mp mentioned
    obtain ⟨pair, member, right⟩ := (mem_vars_pairs taken).mp inside
    obtain ⟨w, image, same, found, -⟩ := images pair member
    rw [same] at right
    cases List.mem_singleton.mp right
    exact Option.isSome_iff_exists.mpr ⟨image, found⟩
  · refine List.forall₂_map_left_iff.mpr (List.Forall₂.flip ?_)
    exact Matching.forall_oppositesAll (fun b _ a _ pairs taken images =>
      Term.agrees_of_opposites taken images) taken images

theorem homomorphism?_complete (predicate : b.predicate = a.predicate) (kind : b.kind = a.kind)
    (same : Term.sameList (b.substitute τ).args a.args = true) :
    ∃ σ, a.homomorphism? b = some σ ∧ ∀ v ∈ b.vars,
      ((Term.variable v).substitute σ).same ((Term.variable v).substitute τ) = true := by
  have equal : (b.args.map (Term.substitute τ)).map Term.plain = a.args.map Term.plain :=
    of_decide_eq_true same
  rw [List.map_map, ← List.forall₂_eq_eq_eq, List.forall₂_map_left_iff, List.forall₂_map_right_iff] at equal
  obtain ⟨pairs, taken, settled⟩ := Matching.exists_oppositesAll
    (fun b _ a _ equal => Term.opposites_of_plain equal) (equal.flip.imp fun _ _ same => same.symm)
  have follows : (pairs.foldl Matching.meet {}).Follows τ :=
    Matching.follows_meetAll ⟨rfl, nofun⟩ settled
  refine ⟨_, homomorphism?_eq_some.mpr ⟨_, foldOnto?_eq_some.mpr ⟨predicate.symm, kind.symm, pairs, taken,
    rfl⟩, follows.none, rfl⟩, fun v inside => ?_⟩
  obtain ⟨pair, member, right⟩ := (mem_vars_pairs taken).mp inside
  obtain ⟨w, image, here, found, -⟩ := Matching.images_of_meetAll follows.none pair member
  rw [here] at right
  cases List.mem_singleton.mp right
  refine decide_eq_true ?_
  rw [Term.substitute, Term.bind, found, Option.getD_some, follows.images v.name image found]
  rw [Term.var, Term.substitute, Term.substitute, Term.bind, Term.bind]
  cases τ.get? v.name <;> rfl

variable {pairs : List (Term × Term)}

theorem tuple_eq_iff (free : I.IsTermFree) (typed : ∀ t ∈ a.args, t.IsTyped)
    (typedRight : ∀ t ∈ b.args, t.IsTyped) : a.tuple I θ = b.tuple I η ↔
      ∃ pairs, Matching.oppositesAll a.args b.args = some pairs ∧
        ∀ pair ∈ pairs, pair.1.denote I θ = pair.2.denote I η :=
  Term.map_denote_eq_iff fun t right s left => Term.denote_eq_iff free (typed s left) (typedRight t right)

theorem image_fixed (apart : ∀ name ∈ a.variableNames, name ∉ b.variableNames)
    (taken : Matching.oppositesAll a.args b.args = some pairs) {name : String} {t : Term}
    (found : (pairs.foldl Matching.meet {}).sigma.get? name = some t) :
    (t.substitute (pairs.foldl Matching.meet {}).sigma).denote I θ = t.denote I θ := by
  rw [Term.denote_substitute]
  refine Term.denote_congr fun w inside => ?_
  rcases Matching.image_of_meetAll found with none | ⟨v, member, -⟩
  · cases none
  · have left : w ∈ a.vars :=
      Matching.left_vars_oppositesAll (fun _ _ _ _ => Matching.left_vars_opposites) taken _ member inside
    rw [Substitution.value]
    cases image : (pairs.foldl Matching.meet {}).sigma.get? w.name with
    | none => rfl
    | some s =>
      rcases Matching.image_of_meetAll image with none | ⟨u, opposite, same⟩
      · cases none
      · refine absurd (same ▸ List.mem_map_of_mem ?_) (apart w.name (List.mem_map_of_mem left))
        exact (mem_vars_pairs taken).mpr ⟨_, opposite, by simp [Term.vars]⟩

theorem foldOnto?_solves (free : I.IsTermFree)
    (apart : ∀ name ∈ a.variableNames, name ∉ b.variableNames) (typed : ∀ t ∈ a.args, t.IsTyped)
    (typedRight : ∀ t ∈ b.args, t.IsTyped) (folded : a.foldOnto? b = some m) :
    (∀ pair ∈ m.equalities, pair.1.denote I θ = (pair.2.substitute m.sigma).denote I θ) ↔
      (b.substitute m.sigma).tuple I θ = a.tuple I θ := by
  obtain ⟨-, -, pairs, taken, rfl⟩ := foldOnto?_eq_some.mp folded
  have left := @Matching.solves_meetAll _ I θ {} pairs (pairs.foldl Matching.meet {}).sigma
    (fun _ _ => image_fixed apart taken) fun _ _ found => found
  have none : Matching.Solves I θ (pairs.foldl Matching.meet {}).sigma ({} : Matching).equalities :=
    List.forall_mem_nil _
  rw [tuple_substitute, eq_comm, tuple_eq_iff free typed typedRight]
  refine (left.trans (and_iff_right none)).trans ?_
  unfold Matching.Solves
  simp only [Term.denote_substitute, taken, Option.some.injEq, exists_eq_left']

theorem foldOnto?_none (free : I.IsTermFree) (typed : ∀ t ∈ a.args, t.IsTyped)
    (typedRight : ∀ t ∈ b.args, t.IsTyped) (none : a.foldOnto? b = none)
    (predicate : a.predicate = b.predicate) (kind : a.kind = b.kind) : a.tuple I θ ≠ b.tuple I η := by
  intro same
  obtain ⟨pairs, taken, -⟩ := (tuple_eq_iff free typed typedRight).mp same
  have some := foldOnto?_eq_some.mpr ⟨predicate, kind, pairs, taken, rfl⟩
  rw [none] at some
  cases some

-- Homomorphisms are found exactly where there are any, and with equations left over atoms are
-- unified, or cannot be.
theorem homomorphism_exact {D : Type} (I : Interpretation D) (free : I.IsTermFree) (a b : Atom) :
    (∀ σ, a.homomorphism? b = some σ →
      (∀ name, (σ.get? name).isSome = true ↔ name ∈ b.variableNames) ∧ (b.substitute σ).Agrees a) ∧
    (∀ τ, (b.substitute τ).predicate = a.predicate → (b.substitute τ).kind = a.kind →
      Term.sameList (b.substitute τ).args a.args = true →
        ∃ σ, a.homomorphism? b = some σ ∧ ∀ v ∈ b.vars,
          ((Term.variable v).substitute σ).same ((Term.variable v).substitute τ) = true) ∧
    ((∀ name ∈ a.variableNames, name ∉ b.variableNames) → (∀ t ∈ a.args ++ b.args, t.IsTyped) →
      (∀ m, a.foldOnto? b = some m → b.predicate = a.predicate ∧ b.kind = a.kind ∧
        ∀ θ, (∀ pair ∈ m.equalities, pair.1.denote I θ = (pair.2.substitute m.sigma).denote I θ) ↔
          (b.substitute m.sigma).tuple I θ = a.tuple I θ) ∧
      (a.foldOnto? b = none → ∀ θ η : Valuation D,
        ¬ (a.predicate = b.predicate ∧ a.kind = b.kind ∧ a.tuple I θ = b.tuple I η))) := by
  refine ⟨fun σ found => homomorphism?_sound found,
    fun τ predicate kind same => homomorphism?_complete predicate kind same, fun apart typed => ?_⟩
  obtain ⟨typed, typedRight⟩ := List.forall_mem_append.mp typed
  refine ⟨fun m folded => ?_, fun none θ η ⟨predicate, kind, same⟩ =>
    foldOnto?_none free typed typedRight none predicate kind same⟩
  obtain ⟨predicate, kind, -⟩ := foldOnto?_eq_some.mp folded
  exact ⟨predicate.symm, kind.symm, fun θ => foldOnto?_solves free apart typed typedRight folded⟩

end Atom

section Nested

open Unfolding in
theorem termValues_isTermFree : termValues.IsTermFree where
  toIsFree := termValues_isFree
  injective _ _ _ _ same := Term.skolem.inj same

def nestedAtom : Atom :=
  .ofRelation "R" [.var "x", .skolem "f" [.var "x", .lit (.integer 2)], .var "z"]

def patternAtom : Atom :=
  .ofRelation "R" [.var "u", .skolem "f" [.var "u", .var "w"], .skolem "g" [.var "w"]]

def instanceAtom : Atom :=
  .ofRelation "R" [.var "x", .skolem "f" [.var "x", .lit (.integer 2)], .skolem "g" [.lit (.integer 2)]]

open Unfolding in
-- The pattern becomes its instance, and the nested atom where one equation holds.
theorem homomorphism_exact_nested : termValues.IsTermFree ∧
    (∃ σ, instanceAtom.homomorphism? patternAtom = some σ ∧ (patternAtom.substitute σ).Agrees instanceAtom) ∧
    nestedAtom.homomorphism? patternAtom = none ∧ ∃ m, nestedAtom.foldOnto? patternAtom = some m ∧
      m.equalities = [(.var "z", .skolem "g" [.var "w"])] ∧
      ∀ θ, θ "z" = .skolem "g" [.lit (.integer 2)] ↔
        (patternAtom.substitute m.sigma).tuple termValues θ = nestedAtom.tuple termValues θ := by
  obtain ⟨sound, complete, -⟩ :=
    Atom.homomorphism_exact termValues termValues_isTermFree instanceAtom patternAtom
  obtain ⟨-, -, unified⟩ := Atom.homomorphism_exact termValues termValues_isTermFree nestedAtom patternAtom
  obtain ⟨σ, found, -⟩ := complete (.ofList [("u", .var "x"), ("w", .lit (.integer 2))]) rfl rfl (by decide)
  have typed : ∀ t ∈ nestedAtom.args ++ patternAtom.args, t.IsTyped := by
    simp [nestedAtom, patternAtom, Atom.ofRelation, Term.var, Term.lit]
  obtain ⟨folds, -⟩ := unified (by decide) typed
  have folded : nestedAtom.foldOnto? patternAtom = some {
      sigma := .ofList [("u", .var "x"), ("w", .lit (.integer 2))]
      equalities := [(.var "z", .skolem "g" [.var "w"])] } := by decide
  obtain ⟨-, -, solves⟩ := folds _ folded
  refine ⟨termValues_isTermFree, ⟨σ, found, (sound σ found).2⟩, by decide, _, folded, rfl, fun θ => ?_⟩
  rw [← solves θ, List.forall_mem_singleton]
  rfl

end Nested

end PeerExchange
