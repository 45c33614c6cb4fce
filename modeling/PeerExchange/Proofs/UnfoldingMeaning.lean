import Mathlib.Data.List.TakeWhile
import PeerExchange.Proofs.Denotation
import PeerExchange.Proofs.Folding
import PeerExchange.Proofs.NameMap
import PeerExchange.Proofs.Unfoldings
import PeerExchange.Renaming

namespace PeerExchange

namespace FreshNames

variable {f g h : FreshNames} {name base : String}

def tailOf (name : String) : List Char := name.toList.dropWhile (· ≠ '$')

def numbered (n : Nat) : List Char := '$' :: Nat.toDigits 10 n

theorem numbered_injective {m n : Nat} (same : numbered m = numbered n) : m = n := by
  rw [← @Nat.ofDigitChars_ten_toDigits m, (List.cons.inj same).2, Nat.ofDigitChars_ten_toDigits]

theorem tailOf_fresh : tailOf (f.fresh base).1 = numbered f.next := by
  have plain : ∀ c ∈ base.toList.takeWhile (· ≠ '$'), decide (c ≠ '$') = true :=
    fun _ inside => List.mem_takeWhile_imp (p := fun c => decide (c ≠ '$')) inside
  have parts : (f.fresh base).1.toList =
      base.toList.takeWhile (· ≠ '$') ++ ('$' :: Nat.toDigits 10 f.next) := by
    simp [fresh, baseOf]
  rw [tailOf, parts, List.dropWhile_append_of_pos plain]
  rfl

def Used (f : FreshNames) (name : String) : Prop :=
  tailOf name = [] ∨ ∃ n < f.next, tailOf name = numbered n

theorem used_of_plain (plain : '$' ∉ name.toList) : f.Used name := by
  refine .inl (List.dropWhile_eq_nil_iff.mpr fun c inside => ?_)
  exact decide_eq_true fun same => plain (same ▸ inside)

theorem Used.mono (used : f.Used name) (later : f.next ≤ g.next) : g.Used name :=
  used.imp_right fun ⟨n, below, same⟩ => ⟨n, Nat.lt_of_lt_of_le below later, same⟩

theorem not_used_of_tailOf {n : Nat} (given : tailOf name = numbered n) (later : f.next ≤ n) :
    ¬ f.Used name := by
  rintro (plain | ⟨m, below, same⟩)
  · rw [plain] at given
    cases given
  · obtain rfl := numbered_injective (given.symm.trans same)
    omega

end FreshNames

-- New names for some old ones: different for different names, and none of them used before.
structure ApartOn (rename : String → String) (names : List String) (fresh fresh' : FreshNames) :
    Prop where
  unused : ∀ n ∈ names, ¬ fresh.Used (rename n)
  used : ∀ n ∈ names, fresh'.Used (rename n)
  injective : ∀ a ∈ names, ∀ b ∈ names, rename a = rename b → a = b

namespace Renaming

-- The new names so far carry different numbers, all given out since the start.
structure Extends (start : FreshNames) (state : Renaming × FreshNames) : Prop where
  started : start.next ≤ state.2.next
  given : ∀ old new, state.1.get? old = some new → ∃ n, start.next ≤ n ∧ n < state.2.next ∧
    FreshNames.tailOf new = FreshNames.numbered n
  injective : ∀ a b new, state.1.get? a = some new → state.1.get? b = some new → a = b

variable {start : FreshNames} {state : Renaming × FreshNames} {name : String} {names : List String}

theorem Extends.extend (extended : Extends start state) (name : String) :
    Extends start (extend [] state name) ∧ (Renaming.extend [] state name).1.contains name = true ∧
      ∀ n, state.1.contains n = true → (Renaming.extend [] state name).1.contains n = true := by
  unfold Renaming.extend
  split
  · rename_i present
    exact ⟨extended, by simpa using present, fun _ inside => inside⟩
  · have tail : FreshNames.tailOf (state.2.fresh name).1 = FreshNames.numbered state.2.next :=
      FreshNames.tailOf_fresh
    -- Its number is beyond all numbers given out, so no other name has it.
    have other : ∀ old, state.1.get? old ≠ some (state.2.fresh name).1 := by
      intro old found
      obtain ⟨n, -, below, same⟩ := extended.given old _ found
      have := FreshNames.numbered_injective (tail.symm.trans same)
      omega
    refine ⟨⟨Nat.le_succ_of_le extended.started, ?_, ?_⟩, ?_, ?_⟩
    · intro old new found
      rw [NameMap.get?_insert] at found
      split at found
      · cases found
        exact ⟨state.2.next, extended.started, Nat.lt_succ_self _, tail⟩
      · obtain ⟨n, above, below, same⟩ := extended.given old new found
        exact ⟨n, above, Nat.lt_succ_of_lt below, same⟩
    · intro a b new foundA foundB
      rw [NameMap.get?_insert] at foundA foundB
      split at foundA <;> split at foundB
      · rename_i sameA sameB
        exact sameA.symm.trans sameB
      · cases foundA
        exact absurd foundB (other b)
      · cases foundB
        exact absurd foundA (other a)
      · exact extended.injective a b new foundA foundB
    · exact NameMap.contains_insert.mpr (.inl rfl)
    · exact fun n inside => NameMap.contains_insert.mpr (.inr inside)

theorem Extends.foldl (extended : Extends start state) (names : List String) :
    Extends start (names.foldl (Renaming.extend []) state) ∧
      (∀ n ∈ names, (names.foldl (Renaming.extend []) state).1.contains n = true) ∧
      ∀ n, state.1.contains n = true →
        (names.foldl (Renaming.extend []) state).1.contains n = true := by
  induction names generalizing state with
  | nil => exact ⟨extended, nofun, fun _ inside => inside⟩
  | cons name rest ih =>
    obtain ⟨next, here, kept⟩ := extended.extend name
    obtain ⟨last, there, keptLater⟩ := ih next
    exact ⟨last, List.forall_mem_cons.mpr ⟨keptLater name here, there⟩,
      fun n inside => keptLater n (kept n inside)⟩

end Renaming

theorem Rule.renamedApart_eq (r : Rule) (fresh : FreshNames) :
    ∃ f, (r.renamedApart fresh).1 = r.rename f ∧
      ApartOn f r.allNames fresh (r.renamedApart fresh).2 := by
  have start : Renaming.Extends fresh (.empty, fresh) := ⟨Nat.le_refl _, nofun, nofun⟩
  obtain ⟨extended, covered, -⟩ := start.foldl r.allNames
  let names := (r.allNames.foldl (Renaming.extend []) (.empty, fresh)).1
  have found : ∀ n ∈ r.allNames, names.get? n = some (names.apply [] n) := by
    intro n member
    obtain ⟨new, found⟩ := NameMap.get?_of_contains (covered n member)
    have found : names.get? n = some new := found
    rw [found, Renaming.apply, found]
    rfl
  refine ⟨names.apply [], rfl, fun n member => ?_, fun n member => ?_, fun a memberA b memberB same => ?_⟩
  · obtain ⟨i, above, -, tail⟩ := extended.given n _ (found n member)
    exact FreshNames.not_used_of_tailOf tail above
  · obtain ⟨i, -, below, tail⟩ := extended.given n _ (found n member)
    exact .inr ⟨i, below, tail⟩
  · exact extended.injective a b _ (found a memberA) (same ▸ found b memberB)

variable {D : Type} {I : Interpretation D} {M : Facts D} {θ η : Valuation D}

namespace Term

theorem ownType_substitute {σ : Substitution} {t : Term} (typed : t.OwnType)
    (images : ∀ name image, σ.get? name = some image → image.OwnType) :
    (t.substitute σ).OwnType := by
  cases t with
  | «variable» v =>
    intro type value same
    have same : (σ.get? v.name).getD (.variable v) = .constant type value := same
    cases found : σ.get? v.name with
    | none =>
      rw [found] at same
      cases same
    | some image =>
      rw [found] at same
      exact images v.name image found type value same
  | constant type value => exact typed
  | skolem function args => exact nofun

theorem ownType_rename {f : String → String} {t : Term} (typed : t.OwnType) :
    (t.rename f).OwnType := by
  cases t with
  | «variable» v => exact nofun
  | constant type value => exact typed
  | skolem function args => exact nofun

theorem isSkolem_rename {f : String → String} {t : Term} : (t.rename f).IsSkolem ↔ t.IsSkolem := by
  cases t <;> exact Iff.rfl

end Term

namespace Atom

def OwnTypes (a : Atom) : Prop := ∀ t ∈ a.args, t.OwnType

instance (a : Atom) : Decidable a.OwnTypes := inferInstanceAs (Decidable (∀ t ∈ a.args, t.OwnType))

variable {a : Atom} {f : Term → Term}

theorem ownTypes_mapArgs (typed : a.OwnTypes) (kept : ∀ t ∈ a.args, t.OwnType → (f t).OwnType) :
    (a.mapArgs f).OwnTypes := by
  intro t member
  obtain ⟨old, inside, rfl⟩ := List.mem_map.mp member
  exact kept old inside (typed old inside)

end Atom

theorem HeadFit.steps_flat {fit : HeadFit} {args opposites : List Term}
    (flat : ∀ t ∈ args, ¬ t.IsSkolem) :
    fit.steps args opposites = { fit with args := fit.args ++ args } := by
  have one : ∀ (fit : HeadFit) {t : Term} {opposite : Option Term}, ¬ t.IsSkolem →
      fit.step t opposite = { fit with args := fit.args ++ [t] } := by
    intro fit t opposite flat
    cases t with
    | skolem function args => exact absurd trivial flat
    | «variable» v => cases opposite <;> rfl
    | constant type value => cases opposite <;> rfl
  induction args generalizing fit opposites with
  | nil => simp [HeadFit.steps]
  | cons t rest ih =>
    obtain ⟨here, later⟩ := List.forall_mem_cons.mp flat
    cases opposites with
    | nil => rw [HeadFit.steps, one fit here, ih later]; simp
    | cons opposite others => rw [HeadFit.steps, one fit here, ih later]; simp

namespace Rule

variable {r definition : Rule} {position : Nat} {target head : Atom} {m : Matching}
  {fresh fresh' : FreshNames}

def through (r : Rule) (position : Nat) (definition : Rule) (m : Matching) : Rule :=
  { r with
    id := r.id ++ "_" ++ definition.id
    body := r.body.take position ++ definition.body.map (Atom.substitute m.sigma) ++
      (m.equalities.map fun (a, b) => Atom.ofBuiltin .eq [a, b.substitute m.sigma]) ++
      r.body.drop (position + 1)
    parent := some (r.parent.getD r.id) }

theorem inventionTerms_none (none : definition.inventions = []) :
    definition.inventionTerms = .empty := by
  simp [inventionTerms, none, NameMap.ofList]

theorem unfoldThrough_flat (none : definition.inventions = [])
    (flat : ∀ t ∈ head.args, ¬ t.IsSkolem) :
    (r.unfoldThrough position target definition head fresh).1 =
      (target.foldOnto? head).map (r.through position definition) := by
  have kept : ({ head with args := [] ++ head.args } : Atom) = head := by cases head; rfl
  unfold unfoldThrough
  simp only [inventionTerms_none none, Atom.substitute_empty, HeadFit.steps_flat flat, kept]
  cases target.foldOnto? head with
  | none => rfl
  | some m => exact congrArg some (substitute_empty _)

theorem mem_body_through {a : Atom} : a ∈ (r.through position definition m).body ↔
    a ∈ r.body.take position ∨ (∃ own ∈ definition.body, own.substitute m.sigma = a) ∨
      (∃ pair ∈ m.equalities, Atom.ofBuiltin .eq [pair.1, pair.2.substitute m.sigma] = a) ∨
      a ∈ r.body.drop (position + 1) := by
  simp only [through, List.mem_append, List.mem_map, or_assoc]

theorem mem_body_iff (found : r.body[position]? = some target) {a : Atom} :
    a ∈ r.body ↔ a ∈ r.body.take position ∨ a = target ∨ a ∈ r.body.drop (position + 1) := by
  obtain ⟨inside, rfl⟩ := List.getElem?_eq_some_iff.mp found
  conv_lhs => rw [← List.take_append_drop position r.body, List.drop_eq_getElem_cons inside]
  simp only [List.mem_append, List.mem_cons]

section Names

variable {a : Atom} {name : String}

theorem name_of_head (member : a ∈ r.head) (inside : name ∈ a.variableNames) :
    name ∈ r.allNames :=
  List.mem_append_left _ (List.mem_flatMap.mpr ⟨a, List.mem_append_left _ member, inside⟩)

theorem name_of_body (member : a ∈ r.body) (inside : name ∈ a.variableNames) :
    name ∈ r.allNames :=
  List.mem_append_left _ (List.mem_flatMap.mpr ⟨a, List.mem_append_right _ member, inside⟩)

theorem name_of_through (inside : name ∈ (r.through position definition m).allNames) :
    name ∈ r.allNames ∨ ∃ a ∈ (r.through position definition m).body, name ∈ a.variableNames := by
  rcases List.mem_append.mp inside with atoms | invented
  · obtain ⟨a, member, inside⟩ := List.mem_flatMap.mp atoms
    rcases List.mem_append.mp member with head | body
    · exact .inl (name_of_head head inside)
    · exact .inr ⟨a, body, inside⟩
  · exact .inl (List.mem_append_right _ invented)

theorem name_of_rename {f : String → String} (inside : name ∈ (r.rename f).allNames) :
    ∃ old ∈ r.allNames, name = f old := by
  rcases List.mem_append.mp inside with atoms | invented
  · obtain ⟨b, member, shown⟩ := List.mem_flatMap.mp atoms
    obtain ⟨_, placed, v, met, rfl⟩ := Atom.mem_variableNames.mp shown
    have renamed : b ∈ (r.head ++ r.body).map (Atom.mapArgs (Term.rename f)) := by
      rw [List.map_append]
      exact member
    obtain ⟨a, listed, rfl⟩ := List.mem_map.mp renamed
    obtain ⟨t, arg, rfl⟩ := List.mem_map.mp placed
    obtain ⟨w, met, same⟩ := Term.mem_vars_rename met
    exact ⟨w.name, List.mem_append_left _ (List.mem_flatMap.mpr ⟨a, listed,
      Atom.mem_variableNames.mpr ⟨t, arg, w, met, rfl⟩⟩), same⟩
  · obtain ⟨_, renamed, met⟩ := List.mem_flatMap.mp invented
    obtain ⟨i, listed, rfl⟩ := List.mem_map.mp renamed
    have old : ∀ n ∈ i.variableName :: (i.args.flatMap Term.vars).map Variable.name,
        n ∈ r.allNames := fun n inside =>
      List.mem_append_right _ (List.mem_flatMap.mpr ⟨i, listed, inside⟩)
    rcases List.mem_cons.mp met with rfl | met
    · exact ⟨_, old _ List.mem_cons_self, rfl⟩
    · obtain ⟨v, shown, rfl⟩ := List.mem_map.mp met
      obtain ⟨_, placed, shown⟩ := List.mem_flatMap.mp shown
      obtain ⟨t, arg, rfl⟩ := List.mem_map.mp placed
      obtain ⟨w, met, same⟩ := Term.mem_vars_rename shown
      exact ⟨w.name, old _ (List.mem_cons_of_mem _ (List.mem_map_of_mem
        (List.mem_flatMap.mpr ⟨t, arg, met⟩))), same⟩

theorem defines_congr (agree : ∀ n ∈ r.allNames, θ n = η n) (defines : r.Defines I θ) :
    r.Defines I η := by
  intro i member
  have named : ∀ n ∈ i.variableName :: (i.args.flatMap Term.vars).map Variable.name,
      θ n = η n := fun n inside =>
    agree n (List.mem_append_right _ (List.mem_flatMap.mpr ⟨i, member, inside⟩))
  rw [← named _ List.mem_cons_self, defines i member]
  refine Term.denote_congr fun v inside => named v.name (List.mem_cons_of_mem _ ?_)
  rw [Invention.term, Term.vars, Term.variablesOf_eq_flatMap] at inside
  exact List.mem_map_of_mem inside

theorem fires_congr (agree : ∀ n ∈ r.allNames, θ n = η n) (fires : r.Fires I M θ) : r.Fires I M η where
  defines := defines_congr agree fires.defines
  accepted a member := (Atom.accepted_congr (Atom.tuple_congr fun n shown =>
    agree n (name_of_body member shown))).mp (fires.accepted a member)

theorem fires_rename {f : String → String} : (r.rename f).Fires I M θ ↔ r.Fires I M (θ ∘ f) := by
  have term (i : Invention) : (Invention.mk (f i.variableName) i.function
      (i.args.map (Term.rename f))).term.denote I θ = i.term.denote I (θ ∘ f) := by
    rw [← Term.denote_rename, Invention.term, Invention.term, Term.rename, Term.bind,
      Term.bindAll_eq_map]
    rfl
  constructor
  · rintro ⟨defines, accepted⟩
    refine ⟨fun i member => ?_, fun a member => ?_⟩
    · exact (defines _ (List.mem_map_of_mem member)).trans (term i)
    · exact (Atom.accepted_mapArgs (Atom.tuple_rename f)).mp (accepted _ (List.mem_map_of_mem member))
  · rintro ⟨defines, accepted⟩
    refine ⟨List.forall_mem_map.mpr fun i member => ?_, List.forall_mem_map.mpr fun a member => ?_⟩
    · exact (defines i member).trans (term i).symm
    · exact (Atom.accepted_mapArgs (Atom.tuple_rename f)).mpr (accepted a member)

end Names

-- What unfolding needs of a rule and keeps: its variables were met before the next fresh one.
structure IsPending (fresh : FreshNames) (r : Rule) : Prop where
  base : ∀ a ∈ r.body, a.IsBase
  typed : ∀ a ∈ r.body, a.OwnTypes
  names : ∀ n ∈ r.allNames, fresh.Used n

theorem IsPending.mono (pending : r.IsPending fresh) (later : fresh.next ≤ fresh'.next) :
    r.IsPending fresh' :=
  { pending with names := fun n inside => (pending.names n inside).mono later }

structure IsDefinition (d : Rule) : Prop where
  head : ∃ a, d.head = [a] ∧ a.IsBase ∧ a.OwnTypes ∧ ∀ t ∈ a.args, ¬ t.IsSkolem
  base : ∀ a ∈ d.body, a.IsBase
  typed : ∀ a ∈ d.body, a.OwnTypes
  plain : d.inventions = []

theorem IsDefinition.rename {f : String → String} (defined : definition.IsDefinition) :
    (definition.rename f).IsDefinition where
  head := by
    obtain ⟨a, single, base, typed, flat⟩ := defined.head
    refine ⟨a.mapArgs (Term.rename f), by simp [Rule.rename, single], base,
      Atom.ownTypes_mapArgs typed fun t _ => Term.ownType_rename, ?_⟩
    intro t member
    obtain ⟨old, inside, rfl⟩ := List.mem_map.mp member
    exact Term.isSkolem_rename.not.mpr (flat old inside)
  base a member := by
    obtain ⟨old, inside, rfl⟩ := List.mem_map.mp member
    exact defined.base old inside
  typed a member := by
    obtain ⟨old, inside, rfl⟩ := List.mem_map.mp member
    exact Atom.ownTypes_mapArgs (defined.typed old inside) fun t _ => Term.ownType_rename
  plain := by simp [Rule.rename, defined.plain]

theorem foldOnto?_some (folded : target.foldOnto? head = some m) :
    target.predicate = head.predicate ∧ target.kind = head.kind ∧
      Matching.foldAll target.args head.args {} = some m := by
  unfold Atom.foldOnto? at folded
  split at folded
  · rename_i same
    simpa [and_assoc, folded] using same
  · cases folded

section Folded

variable (found : r.body[position]? = some target) (pending : r.IsPending fresh)
  (defined : definition.IsDefinition) (headed : definition.head = [head])
  (unused : ∀ n ∈ definition.allNames, ¬ fresh.Used n)
  (folded : target.foldOnto? head = some m)

include defined headed folded

theorem image_of_fold {name : String} {t : Term} (image : m.sigma.get? name = some t) :
    name ∈ head.variableNames ∧ t ∈ target.args := by
  obtain ⟨a, single, -, -, flat⟩ := defined.head
  obtain rfl : a = head := by simpa [single] using headed
  have parts := (Matching.foldAll_parts flat (foldOnto?_some folded).2.2).2.1 name t image
  simpa [Atom.variableNames, Atom.vars] using parts

include found pending

theorem typed_image {name : String} {t : Term} (image : m.sigma.get? name = some t) :
    t.OwnType :=
  pending.typed target (List.mem_of_getElem? found) t
    (image_of_fold defined headed folded image).2

theorem isPending_through (later : fresh.next ≤ fresh'.next)
    (given : ∀ n ∈ definition.allNames, fresh'.Used n) :
    (r.through position definition m).IsPending fresh' := by
  have member : target ∈ r.body := List.mem_of_getElem? found
  obtain ⟨a, single, -, typedHead, flat⟩ := defined.head
  obtain rfl : a = head := by simpa [single] using headed
  obtain ⟨-, -, equations⟩ := Matching.foldAll_parts flat (foldOnto?_some folded).2.2
  have targetNames : ∀ t ∈ target.args, ∀ v ∈ t.vars, fresh'.Used v.name := fun t listed v inside =>
    (pending.names v.name (name_of_body member
      (Atom.mem_variableNames.mpr ⟨t, listed, v, inside, rfl⟩))).mono later
  have images : ∀ n t, m.sigma.get? n = some t → ∀ v ∈ t.vars, fresh'.Used v.name :=
    fun n t image => targetNames t (image_of_fold defined headed folded image).2
  have typedImages : ∀ n t, m.sigma.get? n = some t → t.OwnType := fun n t image =>
    typed_image found pending defined headed folded image
  have substituted : ∀ {t : Term}, (∀ v ∈ t.vars, fresh'.Used v.name) →
      ∀ v ∈ (t.substitute m.sigma).vars, fresh'.Used v.name := by
    intro t known v inside
    rcases Term.mem_vars_substitute inside with own | ⟨n, image, found, inside⟩
    · exact known v own
    · exact images n image found v inside
  -- The left side of an equation is an argument, the right side an image or a constant of the head.
  have sides : ∀ pair ∈ m.equalities, pair.1 ∈ target.args ∧ pair.2.OwnType ∧
      ∀ v ∈ pair.2.vars, fresh'.Used v.name := by
    intro pair inside
    rcases equations pair inside with before | ⟨listed, ⟨n, image⟩ | ⟨constant, closed⟩⟩
    · cases before
    · exact ⟨listed, typedImages n pair.2 image, images n pair.2 image⟩
    · exact ⟨listed, typedHead pair.2 constant, by simp [closed]⟩
  have own : ∀ b ∈ r.body, b.IsBase ∧ b.OwnTypes ∧ ∀ n ∈ b.variableNames, fresh'.Used n :=
    fun b inside => ⟨pending.base b inside, pending.typed b inside, fun n shown =>
      (pending.names n (name_of_body inside shown)).mono later⟩
  have each : ∀ b ∈ (r.through position definition m).body,
      b.IsBase ∧ b.OwnTypes ∧ ∀ n ∈ b.variableNames, fresh'.Used n := by
    intro b inside
    rcases mem_body_through.mp inside with
      before | ⟨read, listed, rfl⟩ | ⟨pair, equation, rfl⟩ | after
    · exact own b (List.mem_of_mem_take before)
    · refine ⟨defined.base read listed, Atom.ownTypes_mapArgs (defined.typed read listed)
        fun t _ typed => Term.ownType_substitute typed typedImages, fun n shown => ?_⟩
      obtain ⟨_, placed, v, met, rfl⟩ := Atom.mem_variableNames.mp shown
      obtain ⟨t, arg, rfl⟩ := List.mem_map.mp placed
      exact substituted (fun w met => given w.name (name_of_body listed
        (Atom.mem_variableNames.mpr ⟨t, arg, w, met, rfl⟩))) v met
    · obtain ⟨left, typed, known⟩ := sides pair equation
      refine ⟨nofun, ?_, fun n shown => ?_⟩
      · exact List.forall_mem_cons.mpr ⟨pending.typed target member pair.1 left,
          List.forall_mem_singleton.mpr (Term.ownType_substitute typed typedImages)⟩
      · obtain ⟨t, placed, v, met, rfl⟩ := Atom.mem_variableNames.mp shown
        rcases List.mem_cons.mp placed with rfl | placed
        · exact targetNames _ left v met
        · exact substituted known v (List.mem_singleton.mp placed ▸ met)
    · exact own b (List.mem_of_mem_drop after)
  refine ⟨fun b inside => (each b inside).1, fun b inside => (each b inside).2.1, fun n inside => ?_⟩
  rcases name_of_through inside with old | ⟨b, inside, shown⟩
  · exact (pending.names n old).mono later
  · exact (each b inside).2.2 n shown

include unused

-- A rule that reads through a definition fires only where the rule fires that reads the relation.
theorem fires_of_through {name : String} (reads : target.relation? = some name)
    (held : ∀ η, definition.Fires I M η → head.tuple I η ∈ M name) (free : I.IsFree)
    (fires : (r.through position definition m).Fires I M θ) : r.Fires I M θ := by
  obtain ⟨a, single, -, typedHead, flat⟩ := defined.head
  obtain rfl : a = head := by simpa [single] using headed
  have member : target ∈ r.body := List.mem_of_getElem? found
  obtain ⟨-, -, foldedArgs⟩ := foldOnto?_some folded
  obtain ⟨-, -, equations⟩ := Matching.foldAll_parts flat foldedArgs
  have solved : m.Solved I θ := by
    constructor
    · -- Images are terms of the rule, whose names the substitution leaves alone.
      intro n t image
      have listed := (image_of_fold defined headed folded image).2
      rw [Term.denote_substitute]
      refine Term.denote_congr fun v inside => ?_
      have used := pending.names v.name (name_of_body member
        (Atom.mem_variableNames.mpr ⟨t, listed, v, inside, rfl⟩))
      rw [Substitution.value]
      cases moved : m.sigma.get? v.name with
      | none => rfl
      | some t' =>
        have inHead := (image_of_fold defined headed folded moved).1
        exact absurd used (unused v.name (name_of_head (by simp [single]) inHead))
    · intro pair inside
      have accepted := fires.accepted _ (mem_body_through.mpr (.inr (.inr (.inl ⟨pair, inside, rfl⟩))))
      exact (free.equal _ _).mp accepted
  have body : definition.Fires I M (m.sigma.value I θ) := by
    refine ⟨by simp [Defines, defined.plain], fun own inside => ?_⟩
    have accepted := fires.accepted _ (mem_body_through.mpr (.inr (.inl ⟨own, inside, rfl⟩)))
    exact (Atom.accepted_mapArgs (Atom.tuple_substitute m.sigma)).mp accepted
  have equal : target.tuple I θ = a.tuple I (m.sigma.value I θ) := by
    rw [Atom.tuple, Atom.tuple, Matching.denote_of_foldAll flat (pending.typed target member)
      typedHead foldedArgs (.refl m) solved]
    exact List.map_congr_left fun t _ => Term.denote_substitute m.sigma t
  refine ⟨fires.defines, fun b inside => ?_⟩
  rcases (mem_body_iff found).mp inside with before | rfl | after
  · exact fires.accepted b (mem_body_through.mpr (.inl before))
  · rw [Atom.accepted_relation (pending.base b inside) reads, equal]
    exact held _ body
  · exact fires.accepted b (mem_body_through.mpr (.inr (.inr (.inr after))))

end Folded

section Carried

variable {f : String → String} {names : List String} {name : String}

open Classical in
noncomputable def carried (f : String → String) (names : List String) (η θ : Valuation D) :
    Valuation D := fun n => if new : ∃ m ∈ names, f m = n then η new.choose else θ n

theorem carried_new (apart : ApartOn f names fresh fresh') (member : name ∈ names) :
    carried f names η θ (f name) = η name := by
  have new : ∃ m ∈ names, f m = f name := ⟨name, member, rfl⟩
  obtain ⟨inside, same⟩ := new.choose_spec
  rw [carried, dif_pos new, apart.injective _ inside _ member same]

theorem carried_old (apart : ApartOn f names fresh fresh') (used : fresh.Used name) :
    carried f names η θ name = θ name := by
  have old : ¬ ∃ m ∈ names, f m = name := by
    rintro ⟨m, member, rfl⟩
    exact apart.unused m member used
  rw [carried, dif_neg old]

theorem tuple_carried_old {a : Atom} (apart : ApartOn f names fresh fresh')
    (known : ∀ n ∈ a.variableNames, fresh.Used n) :
    a.tuple I (carried f names η θ) = a.tuple I θ :=
  Atom.tuple_congr fun n shown => carried_old apart (known n shown)

theorem tuple_carried_new {a : Atom} (apart : ApartOn f names fresh fresh')
    (known : ∀ n ∈ a.variableNames, n ∈ names) :
    (a.mapArgs (Term.rename f)).tuple I (carried f names η θ) = a.tuple I η := by
  rw [Atom.tuple_rename]
  exact Atom.tuple_congr fun n shown => carried_new apart (known n shown)

theorem fires_carried_old (apart : ApartOn f names fresh fresh') (known : ∀ n ∈ r.allNames, fresh.Used n)
    (fires : r.Fires I M θ) : r.Fires I M (carried f names η θ) :=
  fires_congr (fun n shown => (carried_old apart (known n shown)).symm) fires

theorem fires_carried_new (apart : ApartOn f definition.allNames fresh fresh')
    (derived : definition.Fires I M η) :
    (definition.rename f).Fires I M (carried f definition.allNames η θ) :=
  fires_rename.mpr (fires_congr (fun _ shown => (carried_new apart shown).symm) derived)

end Carried

theorem fires_through {f : String → String} {name : String}
    (found : r.body[position]? = some target) (pending : r.IsPending fresh)
    (defined : definition.IsDefinition) (headed : definition.head = [head])
    (apart : ApartOn f definition.allNames fresh fresh') (reads : target.relation? = some name)
    (same : head.relation? = some name) (free : I.IsFree) (fires : r.Fires I M θ)
    (derived : definition.Fires I M η) (equal : head.tuple I η = target.tuple I θ) :
    ∃ m θ', target.foldOnto? (head.mapArgs (Term.rename f)) = some m ∧
      (∀ n ∈ r.allNames, θ' n = θ n) ∧
      (r.through position (definition.rename f) m).Fires I M θ' := by
  have member : target ∈ r.body := List.mem_of_getElem? found
  obtain ⟨a, single, base, typedHead, flat⟩ := defined.head
  obtain rfl : a = head := by simpa [single] using headed
  let θ' := carried f definition.allNames η θ
  have own : r.Fires I M θ' := fires_carried_old apart pending.names fires
  have theirs : (definition.rename f).Fires I M θ' := fires_carried_new apart derived
  have sides : target.args.map (Term.denote I θ') =
      (a.mapArgs (Term.rename f)).args.map (Term.denote I θ') := by
    calc target.args.map (Term.denote I θ') = target.tuple I θ :=
        tuple_carried_old apart fun n shown => pending.names n (name_of_body member shown)
      _ = a.tuple I η := equal.symm
      _ = (a.mapArgs (Term.rename f)).tuple I θ' :=
        (tuple_carried_new apart fun n shown => name_of_head (by simp [single]) shown).symm
  obtain ⟨b, single', -, typedRight, flatRight⟩ := (defined.rename (f := f)).head
  obtain rfl : a.mapArgs (Term.rename f) = b := by simpa [Rule.rename, single] using single'
  obtain ⟨m, folded, fits⟩ := Matching.foldAll_of_denote (m := {}) free flatRight
    (pending.typed target member) typedRight sides ⟨nofun, nofun⟩
  have onto : target.foldOnto? (a.mapArgs (Term.rename f)) = some m := by
    have tables : target.predicate = (a.mapArgs (Term.rename f)).predicate ∧
        target.kind = (a.mapArgs (Term.rename f)).kind :=
      (pending.base target member).table_eq base reads same
    simp [Atom.foldOnto?, tables, folded]
  refine ⟨m, θ', onto, fun n inside => carried_old apart (pending.names n inside), own.defines, ?_⟩
  intro b inside
  rcases mem_body_through.mp inside with
    before | ⟨read, listed, rfl⟩ | ⟨pair, equation, rfl⟩ | after
  · exact own.accepted b (List.mem_of_mem_take before)
  · refine (Atom.accepted_mapArgs (Atom.tuple_substitute m.sigma)).mpr ?_
    rw [fits.value_eq]
    exact theirs.accepted read listed
  · refine (free.equal _ _).mpr ?_
    rw [Term.denote_substitute, fits.value_eq]
    exact fits.equations pair equation
  · exact own.accepted b (List.mem_of_mem_drop after)

end Rule

end PeerExchange
