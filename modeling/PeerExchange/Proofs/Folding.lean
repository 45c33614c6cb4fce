import PeerExchange.Proofs.Denotation

namespace PeerExchange

variable {D : Type} {I : Interpretation D} {θ : Valuation D}

namespace Interpretation

-- Constants and Skolem functions give different values, and equality tells values apart.
structure IsFree (I : Interpretation D) : Prop where
  equal : ∀ a b, I.holds .eq [a, b] ↔ a = b
  constant : ∀ v w, I.constant v.type? v = I.constant w.type? w → v = w
  invented : ∀ function args v, I.invented function args ≠ I.constant v.type? v

end Interpretation

namespace Term

def OwnType (t : Term) : Prop := ∀ type value, t = .constant type value → type = value.type?

instance (t : Term) : Decidable t.OwnType :=
  match t with
  | .constant type value =>
    decidable_of_iff (type = value.type?) ⟨fun own _ _ same => by cases same; exact own,
      fun own => own type value rfl⟩
  | .variable _ => isTrue nofun
  | .skolem _ _ => isTrue nofun

def IsSkolem : Term → Prop
  | .skolem _ _ => True
  | _ => False

instance (t : Term) : Decidable t.IsSkolem :=
  match t with
  | .skolem _ _ => isTrue trivial
  | .variable _ => isFalse id
  | .constant _ _ => isFalse id

end Term

namespace Matching

variable {m m' : Matching} {a b : Term} {as bs : List Term}

structure Extends (m m' : Matching) : Prop where
  images : ∀ name t, m.sigma.get? name = some t → m'.sigma.get? name = some t
  equalities : ∀ pair ∈ m.equalities, pair ∈ m'.equalities

theorem Extends.refl (m : Matching) : Extends m m := ⟨fun _ _ found => found, fun _ inside => inside⟩

theorem Extends.trans {m'' : Matching} (first : Extends m m') (second : Extends m' m'') :
    Extends m m'' :=
  ⟨fun name t found => second.images name t (first.images name t found),
    fun pair inside => second.equalities pair (first.equalities pair inside)⟩

theorem extends_assume : Extends m (m.assume a b) :=
  ⟨fun _ _ found => found, fun _ inside => List.mem_append_left _ inside⟩

inductive Folds (a : Term) (m : Matching) : Term → Matching → Prop
  | bind {v : Variable} (new : m.sigma.get? v.name = none) :
      Folds a m (.variable v) { m with sigma := m.sigma.insert v.name a }
  | again {v : Variable} {image : Term} (found : m.sigma.get? v.name = some image)
      (same : image.same a = true) : Folds a m (.variable v) m
  | equate {v : Variable} {image : Term} (found : m.sigma.get? v.name = some image) :
      Folds a m (.variable v) (m.assume a image)
  | constant {type type' : Option ColumnType} {value : Literal} (same : a = .constant type' value) :
      Folds a m (.constant type value) m
  | fix {v : Variable} {type : Option ColumnType} {value : Literal} (same : a = .variable v) :
      Folds a m (.constant type value) (m.assume a (.constant type value))

theorem fold_folds (flat : ¬ b.IsSkolem) (folded : fold a b m = some m') : Folds a m b m' := by
  cases b with
  | «variable» v =>
    unfold fold at folded
    split at folded
    · rename_i new
      cases folded
      exact .bind new
    · rename_i image found
      split at folded
      · rename_i same
        cases folded
        exact .again found same
      · cases folded
        exact .equate found
  | constant type value =>
    unfold fold at folded
    split at folded
    · rename_i type' value'
      split at folded
      · rename_i agree
        cases folded
        exact @Folds.constant _ _ _ type' _ (by simp_all)
      · cases folded
    · cases folded
      exact .fix rfl
    · cases folded
  | skolem function args => exact absurd trivial flat

namespace Folds

theorem extends_ (folds : Folds a m b m') : Extends m m' := by
  cases folds with
  | bind new =>
    refine ⟨fun name t found => ?_, fun _ inside => inside⟩
    rw [NameMap.get?_insert, if_neg]
    · exact found
    · rintro rfl
      rw [new] at found
      cases found
  | again _ _ => exact .refl m
  | equate _ => exact extends_assume
  | constant _ => exact .refl m
  | fix _ => exact extends_assume

theorem images (folds : Folds a m b m') {name : String} {t : Term}
    (found : m'.sigma.get? name = some t) :
    m.sigma.get? name = some t ∨ (name ∈ b.vars.map Variable.name ∧ t = a) := by
  cases folds with
  | bind new =>
    rw [NameMap.get?_insert] at found
    split at found
    · rename_i same
      cases found
      exact .inr ⟨by simp [Term.vars, same], rfl⟩
    · exact .inl found
  | again _ _ => exact .inl found
  | equate _ => exact .inl found
  | constant _ => exact .inl found
  | fix _ => exact .inl found

theorem equations (folds : Folds a m b m') {pair : Term × Term} (inside : pair ∈ m'.equalities) :
    pair ∈ m.equalities ∨
      pair.1 = a ∧ ((∃ name, m.sigma.get? name = some pair.2) ∨ pair.2 = b ∧ b.vars = []) := by
  have split : ∀ {c d : Term}, pair ∈ (m.assume c d).equalities →
      pair ∈ m.equalities ∨ pair = (c, d) := by
    intro c d inside
    simpa [assume] using inside
  cases folds with
  | bind _ => exact .inl inside
  | again _ _ => exact .inl inside
  | @equate v image found =>
    refine (split inside).imp_right ?_
    rintro rfl
    exact ⟨rfl, .inl ⟨v.name, found⟩⟩
  | constant _ => exact .inl inside
  | fix _ =>
    refine (split inside).imp_right ?_
    rintro rfl
    exact ⟨rfl, .inr ⟨rfl, rfl⟩⟩

end Folds

-- Under a valuation that solves what is left, the images denote themselves after substitution.
structure Solved (I : Interpretation D) (θ : Valuation D) (m : Matching) : Prop where
  kept : ∀ name t, m.sigma.get? name = some t → (t.substitute m.sigma).denote I θ = t.denote I θ
  equations : ∀ pair ∈ m.equalities, pair.1.denote I θ = (pair.2.substitute m.sigma).denote I θ

theorem denote_of_folds {final : Matching} (folds : Folds a m b m') (later : Extends m' final)
    (typed : a.OwnType) (typedRight : b.OwnType) (solved : final.Solved I θ) :
    a.denote I θ = (b.substitute final.sigma).denote I θ := by
  have image : ∀ {v : Variable} {t : Term}, final.sigma.get? v.name = some t →
      (Term.substitute final.sigma (.variable v)).denote I θ = t.denote I θ := by
    intro v t found
    rw [Term.denote_substitute, Term.denote, Substitution.value, found]
  cases folds with
  | @bind v new =>
    refine (image (later.images v.name a ?_)).symm
    rw [NameMap.get?_insert, if_pos rfl]
  | again found same => rw [image (later.images _ _ found), Term.denote_same same]
  | @equate v t found =>
    have kept := later.images v.name t found
    have equal := solved.equations (a, t) (later.equalities _ (by simp [assume]))
    rw [equal, solved.kept v.name t kept, image kept]
  | constant same =>
    subst same
    rw [typed _ _ rfl, typedRight _ _ rfl]
    rfl
  | @fix v type value same =>
    exact solved.equations (a, .constant type value) (later.equalities _ (by simp [assume]))

theorem foldAll_parts (flat : ∀ b ∈ bs, ¬ b.IsSkolem) (folded : foldAll as bs m = some m') :
    Extends m m' ∧
      (∀ name t, m'.sigma.get? name = some t → m.sigma.get? name = some t ∨
        name ∈ (bs.flatMap Term.vars).map Variable.name ∧ t ∈ as) ∧
      ∀ pair ∈ m'.equalities, pair ∈ m.equalities ∨
        pair.1 ∈ as ∧
          ((∃ name, m'.sigma.get? name = some pair.2) ∨ pair.2 ∈ bs ∧ pair.2.vars = []) := by
  induction as generalizing bs m with
  | nil =>
    cases bs with
    | nil =>
      cases folded
      exact ⟨.refl _, fun _ _ found => .inl found, fun _ inside => .inl inside⟩
    | cons b rest => cases folded
  | cons a as ih =>
    cases bs with
    | nil => cases folded
    | cons b rest =>
      obtain ⟨flat, flatRest⟩ := List.forall_mem_cons.mp flat
      obtain ⟨middle, first, folded⟩ := Option.bind_eq_some_iff.mp folded
      have here := fold_folds flat first
      obtain ⟨later, images, equations⟩ := ih flatRest folded
      refine ⟨here.extends_.trans later, fun name t found => ?_, fun pair inside => ?_⟩
      · rcases images name t found with before | ⟨inside, listed⟩
        · rcases here.images before with before | ⟨inside, rfl⟩
          · exact .inl before
          · exact .inr ⟨by simp only [List.flatMap_cons, List.map_append]
                           exact List.mem_append_left _ inside, List.mem_cons_self⟩
        · exact .inr ⟨by simp only [List.flatMap_cons, List.map_append]
                         exact List.mem_append_right _ inside, List.mem_cons_of_mem _ listed⟩
      · rcases equations pair inside with before | ⟨listed, right⟩
        · rcases here.equations before with before | ⟨same, right⟩
          · exact .inl before
          · refine .inr ⟨same ▸ List.mem_cons_self, ?_⟩
            rcases right with ⟨name, found⟩ | ⟨same, closed⟩
            · exact .inl ⟨name, (here.extends_.trans later).images _ _ found⟩
            · exact .inr ⟨same ▸ List.mem_cons_self, same ▸ closed⟩
        · exact .inr ⟨List.mem_cons_of_mem _ listed,
            right.imp_right (And.imp_left (List.mem_cons_of_mem _))⟩

theorem denote_of_foldAll {final : Matching} (flat : ∀ b ∈ bs, ¬ b.IsSkolem)
    (typed : ∀ a ∈ as, a.OwnType) (typedRight : ∀ b ∈ bs, b.OwnType)
    (folded : foldAll as bs m = some m') (later : Extends m' final) (solved : final.Solved I θ) :
    as.map (Term.denote I θ) = bs.map fun b => (b.substitute final.sigma).denote I θ := by
  induction as generalizing bs m with
  | nil =>
    cases bs with
    | nil => rfl
    | cons b rest => cases folded
  | cons a as ih =>
    cases bs with
    | nil => cases folded
    | cons b rest =>
      obtain ⟨flat, flatRest⟩ := List.forall_mem_cons.mp flat
      obtain ⟨typed, typedRest⟩ := List.forall_mem_cons.mp typed
      obtain ⟨typedRight, typedRightRest⟩ := List.forall_mem_cons.mp typedRight
      obtain ⟨middle, first, folded⟩ := Option.bind_eq_some_iff.mp folded
      have grown := (foldAll_parts flatRest folded).1.trans later
      rw [List.map_cons, List.map_cons, ih flatRest typedRest typedRightRest folded,
        denote_of_folds (fold_folds flat first) grown typed typedRight solved]

-- A valuation under which the images have the values of their names.
structure Fits (I : Interpretation D) (θ : Valuation D) (m : Matching) : Prop where
  images : ∀ name t, m.sigma.get? name = some t → θ name = t.denote I θ
  equations : ∀ pair ∈ m.equalities, pair.1.denote I θ = pair.2.denote I θ

theorem Fits.assume (fits : m.Fits I θ) (equal : a.denote I θ = b.denote I θ) :
    (m.assume a b).Fits I θ where
  images := fits.images
  equations := by
    intro pair inside
    rcases List.mem_append.mp inside with before | here
    · exact fits.equations pair before
    · rw [List.mem_singleton.mp here]
      exact equal

theorem typesAgree_self (type : Option ColumnType) : typesAgree type type = true := by
  cases type with
  | none => rfl
  | some type => exact decide_eq_true rfl

theorem fold_of_denote (free : I.IsFree) (flat : ¬ b.IsSkolem) (typed : a.OwnType)
    (typedRight : b.OwnType) (equal : a.denote I θ = b.denote I θ) (fits : m.Fits I θ) :
    ∃ m', fold a b m = some m' ∧ m'.Fits I θ := by
  cases b with
  | «variable» v =>
    unfold fold
    cases found : m.sigma.get? v.name with
    | none =>
      refine ⟨_, rfl, fun name t kept => ?_, fits.equations⟩
      rw [NameMap.get?_insert] at kept
      split at kept
      · rename_i same
        cases kept
        exact same ▸ equal.symm
      · exact fits.images name t kept
    | some image =>
      dsimp only
      split
      · exact ⟨m, rfl, fits⟩
      · exact ⟨_, rfl, fits.assume (equal.trans (fits.images v.name image found))⟩
  | constant type value =>
    obtain rfl := typedRight type value rfl
    cases a with
    | «variable» v => exact ⟨_, rfl, fits.assume equal⟩
    | constant type' value' =>
      obtain rfl := typed type' value' rfl
      obtain rfl := free.constant value' value equal
      exact ⟨m, by simp [fold, typesAgree_self], fits⟩
    | skolem function args => exact absurd equal (free.invented function _ value)
  | skolem function args => exact absurd trivial flat

theorem foldAll_of_denote (free : I.IsFree) (flat : ∀ b ∈ bs, ¬ b.IsSkolem)
    (typed : ∀ a ∈ as, a.OwnType) (typedRight : ∀ b ∈ bs, b.OwnType)
    (equal : as.map (Term.denote I θ) = bs.map (Term.denote I θ)) (fits : m.Fits I θ) :
    ∃ m', foldAll as bs m = some m' ∧ m'.Fits I θ := by
  induction as generalizing bs m with
  | nil =>
    cases bs with
    | nil => exact ⟨m, rfl, fits⟩
    | cons b rest => cases equal
  | cons a as ih =>
    cases bs with
    | nil => cases equal
    | cons b rest =>
      obtain ⟨flat, flatRest⟩ := List.forall_mem_cons.mp flat
      obtain ⟨typed, typedRest⟩ := List.forall_mem_cons.mp typed
      obtain ⟨typedRight, typedRightRest⟩ := List.forall_mem_cons.mp typedRight
      obtain ⟨here, later⟩ := List.cons.inj equal
      obtain ⟨middle, first, fits⟩ := fold_of_denote free flat typed typedRight here fits
      obtain ⟨m', folded, fits⟩ := ih flatRest typedRest typedRightRest later fits
      exact ⟨m', by rw [foldAll, first]; exact folded, fits⟩

theorem Fits.value_eq (fits : m.Fits I θ) : m.sigma.value I θ = θ := by
  funext name
  rw [Substitution.value]
  cases found : m.sigma.get? name with
  | none => rfl
  | some t => exact (fits.images name t found).symm

end Matching

end PeerExchange
