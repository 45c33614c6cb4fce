import PeerExchange.Proofs.Composition
import PeerExchange.Proofs.LoweringTotality
import PeerExchange.Proofs.RuleAtoms
import PeerExchange.Proofs.SubsumedAtoms

namespace PeerExchange

open Lowering (Resolved)

-- A joined atom over a known relation, or a built-in with as many arguments as it takes.
structure Atom.IsRead (catalog : Catalog) (a : Atom) : Prop where
  plain : a.negated = false
  required : a.optional = false
  unmarked : ∀ t ∈ a.args, t.IsUnmarked
  known : a.builtin? = none → a.IsKnown catalog
  arity : ∀ op, a.builtin? = some op → a.args.length = op.arity

structure Rule.IsSafe (catalog : Catalog) (r : Rule) : Prop where
  body : r.body ≠ []
  read : ∀ a ∈ r.body, a.IsRead catalog
  resolved : ∀ a ∈ r.head, ∀ v ∈ a.vars, Resolved r (Binds r.body) v
  computed : ∀ a ∈ r.body, a.builtin?.isSome = true → ∀ name ∈ a.variableNames, Binds r.body name

def Rule.Fills (catalog : Catalog) (r : Rule) : Prop :=
  ∃ head, r.head = [head] ∧ head.relation?.isSome = true ∧ head.optional = false ∧
    head.IsKnown catalog

namespace Term

variable {t s : Term}

theorem IsUnmarked.plain_eq (unmarked : t.IsUnmarked) : t.plain = t := by
  cases t with
  | «variable» v =>
    obtain ⟨name, existential, skolem⟩ := v
    obtain ⟨rfl, rfl⟩ := unmarked
    rfl
  | constant type value => rfl
  | skolem function args => exact unmarked.elim

theorem IsUnmarked.eq_of_same (unmarked : t.IsUnmarked) (other : s.IsUnmarked)
    (same : t.same s = true) : t = s := by
  rw [← unmarked.plain_eq, ← other.plain_eq]
  exact of_decide_eq_true same

theorem IsUnmarked.not_isSkolem (unmarked : t.IsUnmarked) : ¬ t.IsSkolem := by
  cases t with
  | skolem function args => exact unmarked.elim
  | «variable» v => exact id
  | constant type value => exact id

theorem isUnmarked_rename {f : String → String} (unmarked : t.IsUnmarked) :
    (t.rename f).IsUnmarked := by
  cases t with
  | «variable» v => exact unmarked
  | constant type value => trivial
  | skolem function args => exact unmarked.elim

theorem isUnmarked_substitute {σ : Substitution} (unmarked : t.IsUnmarked)
    (images : ∀ name image, σ.get? name = some image → image.IsUnmarked) :
    (t.substitute σ).IsUnmarked := by
  cases t with
  | «variable» v =>
    change ((σ.get? v.name).getD (.variable v)).IsUnmarked
    cases found : σ.get? v.name with
    | none => exact unmarked
    | some image => exact images v.name image found
  | constant type value => trivial
  | skolem function args => exact unmarked.elim

end Term

namespace Atom

variable {catalog : Catalog} {a b : Atom}

theorem builtin?_of_relation (related : a.relation?.isSome = true) : a.builtin? = none := by
  cases found : a.predicate with
  | relation name => rw [builtin?, found]
  | builtin op => simp [relation?, found] at related

theorem relation?_of_builtin (called : a.builtin? = none) : a.relation?.isSome = true := by
  cases found : a.predicate with
  | relation name => simp [relation?, found]
  | builtin op => simp [builtin?, found] at called

theorem IsRead.isPositive (read : a.IsRead catalog) (called : a.builtin? = none) :
    a.isPositive = true := by
  simp [Atom.isPositive, read.plain, relation?_of_builtin called]

theorem IsRead.eq_of_same (read : a.IsRead catalog) (other : b.IsRead catalog)
    (same : a.same b = true) : a = b := by
  simp only [Atom.same, Bool.and_eq_true, decide_eq_true_eq, Term.sameList] at same
  obtain ⟨⟨⟨⟨predicate, kind⟩, args⟩, negated⟩, optional⟩ := same
  have equal : a.args = b.args := by
    have left : a.args.map Term.plain = a.args :=
      (List.map_congr_left fun t inside => (read.unmarked t inside).plain_eq).trans (List.map_id' _)
    have right : b.args.map Term.plain = b.args :=
      (List.map_congr_left fun t inside => (other.unmarked t inside).plain_eq).trans (List.map_id' _)
    rw [← left, ← right, args]
  cases a
  cases b
  cases predicate
  cases kind
  cases equal
  cases negated
  cases optional
  rfl

end Atom

namespace Matching

variable {as bs : List Term} {m m' : Matching}

theorem covered_of_foldAll (flat : ∀ b ∈ bs, ¬ b.IsSkolem) (folded : foldAll as bs m = some m') :
    ∀ a ∈ as, (∃ name image, m'.sigma.get? name = some image ∧ image.same a = true) ∨
      (∃ right, (a, right) ∈ m'.equalities) ∨ a.vars = [] := by
  induction as generalizing bs m with
  | nil => exact List.forall_mem_nil _
  | cons a as ih =>
    cases bs with
    | nil => cases folded
    | cons b rest =>
      obtain ⟨flat, flatRest⟩ := List.forall_mem_cons.mp flat
      obtain ⟨middle, first, folded⟩ := Option.bind_eq_some_iff.mp folded
      have extends_ := (foldAll_parts flatRest folded).1
      refine List.forall_mem_cons.mpr ⟨?_, ih flatRest folded⟩
      cases fold_folds flat first with
      | @bind v new =>
        refine .inl ⟨v.name, a, extends_.images _ _ ?_, decide_eq_true rfl⟩
        exact (NameMap.get?_insert ..).trans (if_pos rfl)
      | again found same => exact .inl ⟨_, _, extends_.images _ _ found, same⟩
      | equate found =>
        exact .inr (.inl ⟨_, extends_.equalities _ (List.mem_append_right _ (List.mem_singleton_self _))⟩)
      | constant same =>
        subst same
        exact .inr (.inr rfl)
      | fix same =>
        exact .inr (.inl ⟨_, extends_.equalities _ (List.mem_append_right _ (List.mem_singleton_self _))⟩)

end Matching

theorem Rule.IsSafe.binds_of_unjoined {catalog : Catalog} {r : Rule} {a : Atom}
    (safe : r.IsSafe catalog) (inside : a ∈ r.body) (unjoined : a.isPositive = false) :
    ∀ v ∈ a.vars, Binds r.body v.name := by
  have called : a.builtin?.isSome = true := by
    cases none : a.builtin? with
    | some op => rfl
    | none => exact nomatch ((safe.read a inside).isPositive none).symm.trans unjoined
  exact fun v within => safe.computed a inside called _ (List.mem_map_of_mem within)

section Minimization

namespace Rule

variable {catalog : Catalog} {isProvenance : String → Bool} {r : Rule} {i j : Nat} {name : String}

theorem IsSafe.congr {body : List Atom} (safe : r.IsSafe catalog) (some : body ≠ [])
    (within : body ⊆ r.body) (binds : ∀ name, (∃ a ∈ r.head, name ∈ a.variableNames) ∨
      (∃ a ∈ body, a.builtin?.isSome = true ∧ name ∈ a.variableNames) ∨
      (∃ i ∈ r.inventions, ∃ v ∈ i.term.vars, v.name = name) →
        Binds r.body name → Binds body name) :
    ({ r with body := body } : Rule).IsSafe catalog where
  body := some
  read a inside := safe.read a (within inside)
  resolved a head v inside := by
    rcases safe.resolved a head v inside with bound | ⟨term, invented, inputs⟩
    · exact .inl (binds _ (.inl ⟨a, head, List.mem_map_of_mem inside⟩) bound)
    · refine .inr ⟨term, invented, fun u within => binds _ (.inr (.inr ?_)) (inputs u within)⟩
      obtain ⟨k, -, invented⟩ := Option.bind_eq_some_iff.mp invented
      obtain ⟨i, placed, rfl⟩ := Option.map_eq_some_iff.mp invented
      exact ⟨i, List.mem_of_getElem? placed, u, within, rfl⟩
  computed a inside called name named :=
    binds _ (.inr (.inl ⟨a, inside, called, named⟩)) (safe.computed a (within inside) called name named)

theorem IsSafe.dropRepeats (safe : r.IsSafe catalog) :
    ({ r with body := (dropRepeats r.body).1 } : Rule).IsSafe catalog := by
  obtain ⟨within, covered⟩ := dropRepeats_keeps r.body
  have all : r.body ⊆ (Rule.dropRepeats r.body).1 := by
    intro a inside
    obtain ⟨kept, member, same⟩ := covered a inside
    exact (safe.read kept (within member)).eq_of_same (safe.read a inside) same ▸ member
  refine safe.congr (fun none => safe.body ?_) within fun name _ =>
    Binds.mono fun a inside _ => all inside
  exact List.eq_nil_of_subset_nil (none ▸ all)

theorem IsSafe.eraseIdx (safe : r.IsSafe catalog) (found : r.firstSubsumed? isProvenance = some j) :
    ({ r with body := r.body.eraseIdx j } : Rule).IsSafe catalog := by
  obtain ⟨i, differ, a, b, σ, subsumes⟩ := firstSubsumed_some found
  refine safe.congr (List.ne_nil_of_mem (subsumes.mem_eraseIdx differ))
    (fun c => List.mem_of_mem_eraseIdx) fun name needed => ?_
  refine subsumes.binds_eraseIdx differ (occursOutside_iff.mpr ?_)
  rcases needed with head | ⟨c, inside, -, named⟩ | invented
  · exact .inl head
  · exact .inr (.inl ⟨c, inside, named⟩)
  · exact .inr (.inr invented)

theorem IsSafe.dropSubsumed {rounds : Nat} {dropped : List Atom} (safe : r.IsSafe catalog) :
    (dropSubsumed isProvenance rounds r dropped).1.IsSafe catalog := by
  induction rounds generalizing r dropped with
  | zero => exact safe
  | succ rounds ih =>
    unfold Rule.dropSubsumed
    split
    · exact safe
    · rename_i j found
      exact ih (safe.eraseIdx found)

theorem IsSafe.minimize (safe : r.IsSafe catalog) :
    (r.minimize isProvenance).1.IsSafe catalog := safe.dropRepeats.dropSubsumed

end Rule

end Minimization

section Unfolding

variable {catalog : Catalog} {r r' d : Rule} {definitions pending pending' : List Rule}
  {position n : Nat} {target head : Atom} {m : Matching} {fresh fresh' : FreshNames}

theorem Atom.IsRead.mapArgs {a : Atom} {f : Term → Term} (read : a.IsRead catalog)
    (kept : ∀ t ∈ a.args, (f t).IsUnmarked) : (a.mapArgs f).IsRead catalog where
  plain := read.plain
  required := read.required
  unmarked := List.forall_mem_map.mpr kept
  known called := by
    obtain ⟨r, found, arity⟩ := read.known called
    exact ⟨r, found, (List.length_map _).trans arity⟩
  arity op called := (List.length_map _).trans (read.arity op called)

-- A definition that joins relations and derives what stands there.
structure Rule.IsProjection (catalog : Catalog) (d : Rule) : Prop where
  definition : d.IsDefinition
  body : d.body ≠ []
  read : ∀ a ∈ d.body, a.IsRead catalog ∧ a.isPositive = true
  unmarked : ∀ a ∈ d.head, ∀ t ∈ a.args, t.IsUnmarked
  joined : ∀ a ∈ d.head, ∀ name ∈ a.variableNames, ∃ b ∈ d.body, name ∈ b.variableNames

theorem Rule.IsProjection.rename {f : String → String} (projection : d.IsProjection catalog) :
    (d.rename f).IsProjection catalog where
  definition := projection.definition.rename
  body := by simpa [Rule.rename] using projection.body
  read := List.forall_mem_map.mpr fun a inside =>
    ⟨(projection.read a inside).1.mapArgs fun t arg =>
      Term.isUnmarked_rename ((projection.read a inside).1.unmarked t arg),
      (projection.read a inside).2⟩
  unmarked := List.forall_mem_map.mpr fun a inside => List.forall_mem_map.mpr fun t arg =>
    Term.isUnmarked_rename (projection.unmarked a inside t arg)
  joined := List.forall_mem_map.mpr fun a inside name named => by
    obtain ⟨_, placed, v, met, rfl⟩ := Atom.mem_variableNames.mp named
    obtain ⟨t, arg, rfl⟩ := List.mem_map.mp placed
    obtain ⟨w, within, same⟩ := Term.mem_vars_rename met
    obtain ⟨b, listed, named⟩ := projection.joined a inside w.name
      (Atom.mem_variableNames.mpr ⟨t, arg, w, within, rfl⟩)
    obtain ⟨s, arg, u, within, other⟩ := Atom.mem_variableNames.mp named
    refine ⟨_, List.mem_map_of_mem listed, Atom.mem_variableNames.mpr
      ⟨_, List.mem_map_of_mem arg, { u with name := f u.name }, ?_, by rw [same, ← other]⟩⟩
    exact Term.mem_vars_bind.mpr ⟨u, within, List.mem_singleton_self _⟩

namespace Rule

section Folded

variable (safe : r.IsSafe catalog) (found : r.body[position]? = some target)
  (projection : d.IsProjection catalog) (headed : d.head = [head])
  (folded : target.foldOnto? head = some m)

include projection headed folded

theorem image_joined {names : String → Prop} (closed : Closed (r.through position d m).body names)
    {name : String} {image : Term} (given : m.sigma.get? name = some image) :
    ∀ v ∈ image.vars, names v.name := by
  intro v within
  obtain ⟨b, listed, named⟩ := projection.joined head (headed ▸ List.mem_singleton_self _) name
    (image_of_fold projection.definition headed folded given).1
  obtain ⟨t, arg, w, met, rfl⟩ := Atom.mem_variableNames.mp named
  refine closed.joined (b.substitute m.sigma) (mem_body_through.mpr (.inr (.inl ⟨b, listed, rfl⟩)))
    (projection.read b listed).2 v.name ?_
  refine Atom.mem_variableNames.mpr ⟨_, List.mem_map_of_mem arg, v, ?_, rfl⟩
  exact Term.mem_vars_bind.mpr ⟨w, met, by rw [given]; exact within⟩

theorem equation_parts {pair : Term × Term} (inside : pair ∈ m.equalities) :
    pair.1 ∈ target.args ∧
      ((∃ name, m.sigma.get? name = some pair.2) ∨ pair.2 ∈ head.args ∧ pair.2.vars = []) := by
  have member : head ∈ d.head := headed ▸ List.mem_singleton_self _
  have flat : ∀ t ∈ head.args, ¬ t.IsSkolem := fun t arg =>
    (projection.unmarked head member t arg).not_isSkolem
  exact ((Matching.foldAll_parts flat (foldOnto?_some folded).2.2).2.2 pair inside).resolve_left
    nofun

theorem equation_joined {names : String → Prop}
    (closed : Closed (r.through position d m).body names) {pair : Term × Term}
    (inside : pair ∈ m.equalities) : ∀ v ∈ (pair.2.substitute m.sigma).vars, names v.name := by
  have joined := fun name image => @image_joined _ _ _ _ _ _ _ projection headed folded _ closed name image
  intro v within
  rcases Term.mem_vars_substitute within with own | ⟨name, image, given, within⟩
  · rcases (equation_parts projection headed folded inside).2 with ⟨name, given⟩ | ⟨-, without⟩
    · exact joined name pair.2 given v own
    · rw [without] at own
      cases own
  · exact joined name image given v within

include safe found

theorem target_joined {names : String → Prop}
    (closed : Closed (r.through position d m).body names) :
    ∀ name ∈ target.variableNames, names name := by
  intro name named
  obtain ⟨t, arg, v, within, rfl⟩ := Atom.mem_variableNames.mp named
  have unmarked := (safe.read target (List.mem_of_getElem? found)).unmarked
  have member : head ∈ d.head := headed ▸ List.mem_singleton_self _
  have flat : ∀ t ∈ head.args, ¬ t.IsSkolem := fun t arg =>
    (projection.unmarked head member t arg).not_isSkolem
  rcases Matching.covered_of_foldAll flat (foldOnto?_some folded).2.2 t arg with
    ⟨name, image, given, same⟩ | ⟨right, equated⟩ | without
  · have listed := (image_of_fold projection.definition headed folded given).2
    obtain rfl := (unmarked image listed).eq_of_same (unmarked t arg) same
    exact image_joined projection headed folded closed given v within
  · cases t with
    | «variable» w =>
      obtain rfl := List.mem_singleton.mp within
      refine closed.determined _ (mem_body_through.mpr (.inr (.inr (.inl ⟨_, equated, rfl⟩)))) rfl
        [right.substitute m.sigma] v.name (.left rfl rfl) (List.forall_mem_singleton.mpr ?_)
      exact equation_joined projection headed folded closed equated
    | constant type value => cases within
    | skolem function args => exact (unmarked _ arg).elim
  · rw [without] at within
    cases within

theorem binds_through {name : String} (binds : Binds r.body name) :
    Binds (r.through position d m).body name := by
  intro names closed
  have reads : ∀ a ∈ r.body, a ∈ (r.through position d m).body ∨ a = target := by
    intro a inside
    rcases (mem_body_iff found).mp inside with before | same | after
    · exact .inl (mem_body_through.mpr (.inl before))
    · exact .inr same
    · exact .inl (mem_body_through.mpr (.inr (.inr (.inr after))))
  have joined := target_joined safe found projection headed folded closed
  refine binds names ⟨fun a inside positive name named => ?_,
    fun a inside plain inputs name determines known => ?_⟩
  · rcases reads a inside with kept | rfl
    · exact closed.joined a kept positive name named
    · exact joined name named
  · rcases reads a inside with kept | rfl
    · exact closed.determined a kept plain inputs name determines known
    · exact joined name determines.mem_variableNames

theorem IsSafe.through : (r.through position d m).IsSafe catalog := by
  have target_ := List.mem_of_getElem? found
  have unmarked := (safe.read target target_).unmarked
  have images : ∀ name image, m.sigma.get? name = some image → image.IsUnmarked :=
    fun name image given => unmarked image (image_of_fold projection.definition headed folded given).2
  have wider : ∀ name, Binds r.body name → Binds (r.through position d m).body name :=
    fun _ => binds_through safe found projection headed folded
  have old (a : Atom) (listed : a ∈ r.body.take position ∨ a ∈ r.body.drop (position + 1)) :
      a ∈ r.body := listed.elim List.mem_of_mem_take List.mem_of_mem_drop
  refine ⟨?_, fun a inside => ?_, fun a head v inside => ?_, fun a inside called name named => ?_⟩
  · obtain ⟨b, listed⟩ := List.exists_mem_of_ne_nil _ projection.body
    exact List.ne_nil_of_mem (mem_body_through.mpr (.inr (.inl ⟨b, listed, rfl⟩)))
  · rcases mem_body_through.mp inside with before | ⟨b, listed, rfl⟩ | ⟨pair, equated, rfl⟩ | after
    · exact safe.read a (old a (.inl before))
    · have read := (projection.read b listed).1
      exact read.mapArgs fun t arg => Term.isUnmarked_substitute (read.unmarked t arg) images
    · obtain ⟨left, right⟩ := equation_parts projection headed folded equated
      have member : head ∈ d.head := headed ▸ List.mem_singleton_self _
      have rightUnmarked : pair.2.IsUnmarked := by
        rcases right with ⟨name, given⟩ | ⟨arg, -⟩
        · exact images name pair.2 given
        · exact projection.unmarked head member _ arg
      refine ⟨rfl, rfl, List.forall_mem_cons.mpr ⟨unmarked _ left, List.forall_mem_singleton.mpr
        (Term.isUnmarked_substitute rightUnmarked images)⟩, nofun, fun op called => ?_⟩
      cases called
      rfl
    · exact safe.read a (old a (.inr after))
  · exact (safe.resolved a head v inside).mono wider
  · rcases mem_body_through.mp inside with before | ⟨b, listed, rfl⟩ | ⟨pair, equated, rfl⟩ | after
    · exact wider name (safe.computed a (old a (.inl before)) called name named)
    · have none := Atom.builtin?_of_isPositive (projection.read b listed).2
      rw [show (b.substitute m.sigma).builtin? = b.builtin? from rfl, none] at called
      cases called
    · intro names closed
      obtain ⟨t, arg, v, within, rfl⟩ := Atom.mem_variableNames.mp named
      rcases List.mem_cons.mp arg with rfl | arg
      · exact target_joined safe found projection headed folded closed v.name
          (Atom.mem_variableNames.mpr ⟨_, (equation_parts projection headed folded equated).1, v,
            within, rfl⟩)
      · rw [List.mem_singleton.mp arg] at within
        exact equation_joined projection headed folded closed equated v within
    · exact wider name (safe.computed a (old a (.inr after)) called name named)

end Folded

theorem IsSafe.unfoldDefinitions (safe : r.IsSafe catalog)
    (found : Unfolding.virtualAtom? catalog r = some (position, target))
    (projections : ∀ d ∈ definitions, d.IsProjection catalog)
    (made : r' ∈ (r.unfoldDefinitions position target definitions fresh).1) :
    r'.head = r.head ∧ r'.IsSafe catalog := by
  obtain ⟨placed, -⟩ := Unfolding.virtualAtom?_found found
  obtain ⟨d, listed, head, f, before, after, m, -, -, -, -, -, -, headed, folded, rfl⟩ :=
    unfolded_parts (fun d listed => (projections d listed).definition) made
  exact ⟨rfl, safe.through placed (projections d listed).rename headed folded⟩

end Rule

namespace Unfolding

theorem safe_rounds (projections : ∀ d ∈ definitions, d.IsProjection catalog)
    (safe : ∀ r ∈ pending, r.IsSafe catalog ∧ r.Fills catalog)
    (ran : rounds catalog definitions n pending fresh = .ok (pending', fresh')) :
    ∀ r ∈ pending', r.IsSafe catalog ∧ r.Fills catalog := by
  refine rounds_keep (P := fun r => r.IsSafe catalog ∧ r.Fills catalog) ?_ safe ran
  intro r position target fresh r' ⟨safe, fills⟩ found made
  obtain ⟨heads, safe⟩ := safe.unfoldDefinitions found projections made
  exact ⟨safe, by rw [Rule.Fills, heads]; exact fills⟩

end Unfolding

end Unfolding

end PeerExchange
