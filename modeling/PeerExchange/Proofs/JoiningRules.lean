import PeerExchange.Proofs.SafePrograms

namespace PeerExchange

-- Some atom of the body is joined, so that changes reach the rule.
def Rule.Joins (r : Rule) : Prop := ∃ a ∈ r.body, a.isPositive = true

instance (r : Rule) : Decidable r.Joins :=
  inferInstanceAs (Decidable (∃ a ∈ r.body, a.isPositive = true))

namespace Rule

variable {catalog : Catalog} {isProvenance : String → Bool} {r r' : Rule} {definitions : List Rule}
  {position : Nat} {target : Atom} {fresh : FreshNames}

theorem joins_congr {q : Rule} (same : q.body = r.body) : q.Joins ↔ r.Joins := by
  rw [Joins, Joins, same]

section Minimization

theorem isPositive_of_same {a b : Atom} (same : a.same b = true) : a.isPositive = b.isPositive := by
  simp only [Atom.same, Bool.and_eq_true, decide_eq_true_eq] at same
  simp only [Atom.isPositive, Atom.relation?, same.1.1.1.1, same.1.2]

theorem joins_dropSubsumed {rounds : Nat} {dropped : List Atom} :
    (dropSubsumed isProvenance rounds r dropped).1.Joins ↔ r.Joins := by
  induction rounds generalizing r dropped with
  | zero => exact Iff.rfl
  | succ rounds ih =>
    unfold dropSubsumed
    split
    · exact Iff.rfl
    · rename_i j found
      rw [ih]
      -- What makes an atom go is joined itself, and stays.
      obtain ⟨i, differ, a, b, σ, subsumes⟩ := firstSubsumed_some found
      refine iff_of_true ⟨a, subsumes.mem_eraseIdx differ, subsumes.positive⟩ ⟨a, ?_, subsumes.positive⟩
      exact List.mem_of_getElem? subsumes.left

theorem joins_minimize : (r.minimize isProvenance).1.Joins ↔ r.Joins := by
  refine joins_dropSubsumed.trans ⟨?_, ?_⟩
  · rintro ⟨a, inside, positive⟩
    exact ⟨a, (dropRepeats_keeps r.body).1 inside, positive⟩
  · rintro ⟨a, inside, positive⟩
    obtain ⟨kept, left, same⟩ := (dropRepeats_keeps r.body).2 a inside
    exact ⟨kept, left, (isPositive_of_same same).trans positive⟩

end Minimization

section Unfolding

theorem joins_unfoldDefinitions (projections : ∀ d ∈ definitions, d.IsProjection catalog)
    (made : r' ∈ (r.unfoldDefinitions position target definitions fresh).1) : r'.Joins := by
  obtain ⟨d, listed, head, f, before, after, m, -, -, -, -, -, -, -, -, rfl⟩ :=
    unfolded_parts (fun d listed => (projections d listed).definition) made
  have renamed := (projections d listed).rename (f := f)
  obtain ⟨b, inside⟩ := List.exists_mem_of_ne_nil _ renamed.body
  exact ⟨b.substitute m.sigma, mem_body_through.mpr (.inr (.inl ⟨b, inside, rfl⟩)),
    (renamed.read b inside).2⟩

theorem IsSafe.virtualAtom?_none (safe : r.IsSafe catalog) (idle : ¬ r.Joins) :
    Unfolding.virtualAtom? catalog r = none := by
  refine Unfolding.virtualAtom?_eq_none.mpr fun a inside => ?_
  cases called : a.builtin? with
  | none => exact absurd ⟨a, inside, (safe.read a inside).isPositive called⟩ idle
  | some op =>
    cases named : a.relation? with
    | none => rfl
    | some name =>
      rw [Atom.builtin?_of_relation (by rw [named]; rfl)] at called
      cases called

end Unfolding

end Rule

namespace Unfolding

variable {catalog : Catalog} {definitions pending pending' : List Rule} {fresh fresh' : FreshNames}
  {r : Rule} {n : Nat}

theorem mem_round_of_real (ran : round catalog definitions pending fresh = .ok (pending', fresh'))
    (listed : r ∈ pending) (real : virtualAtom? catalog r = none) : r ∈ pending' := by
  obtain ⟨-, pieces, rfl, each⟩ := round_parts ran
  obtain ⟨piece, member, ⟨-, rfl⟩ | ⟨position, target, before, found, -⟩⟩ :=
    Compiled.forall₂_result each listed
  · exact List.mem_flatten.mpr ⟨_, member, List.mem_singleton_self r⟩
  · cases real.symm.trans found

theorem mem_rounds_of_real (ran : rounds catalog definitions n pending fresh = .ok (pending', fresh'))
    (listed : r ∈ pending) (real : virtualAtom? catalog r = none) : r ∈ pending' := by
  induction n generalizing pending fresh with
  | zero =>
    cases ran
    exact listed
  | succ n ih =>
    unfold rounds at ran
    split at ran
    · cases ran
      exact listed
    · obtain ⟨⟨next, between⟩, first, ran⟩ := Compiled.bind_ok.mp ran
      exact ih ran (mem_round_of_real first listed real)

theorem rounds_join_iff (projections : ∀ d ∈ definitions, d.IsProjection catalog)
    (safe : ∀ r ∈ pending, r.IsSafe catalog)
    (ran : rounds catalog definitions n pending fresh = .ok (pending', fresh')) :
    (∀ r ∈ pending', r.Joins) ↔ ∀ r ∈ pending, r.Joins := by
  constructor
  · intro joins r listed
    by_contra idle
    exact idle (joins r (mem_rounds_of_real ran listed ((safe r listed).virtualAtom?_none idle)))
  · exact fun joins => rounds_keep (P := Rule.Joins)
      (fun _ _ _ _ _ _ _ made => Rule.joins_unfoldDefinitions projections made) joins ran

end Unfolding

namespace Mapping

variable {declared : Catalog} {config : Config} {trust : TrustPolicy} {m : Rule} {rules : List Rule}

theorem toRules_bodies : (∀ r ∈ toRules declared config m, r.body = m.body) ∧
    (m.head ≠ [] → toRules declared config m ≠ []) := by
  obtain ⟨body, heads⟩ : m.skolemize.body = m.body ∧ (m.head ≠ [] → m.skolemize.head ≠ []) :=
    Rule.skolemize_keeps (P := fun q => q.body = m.body ∧ (m.head ≠ [] → q.head ≠ [])) ⟨rfl, id⟩
      fun q name held _ => ⟨held.1, fun some none => held.2 some (List.map_eq_nil_iff.mp none)⟩
  refine ⟨toRules_keep body fun _ _ _ _ => body, fun some => ?_⟩
  unfold toRules
  split
  · unfold Rule.split
    split
    · exact List.cons_ne_nil _ _
    · exact fun none => heads some (List.mapIdx_eq_nil_iff.mp none)
  · exact List.cons_ne_nil _ _

theorem headed_of_valid (valid : declared.validate = .ok ()) (member : m ∈ declared.mappings) :
    m.head ≠ [] := by
  have checked := Catalog.validateRule_of_validate valid member
  unfold Catalog.validateRule at checked
  split at checked
  · cases checked
  · rename_i some
    exact fun none => some (List.isEmpty_iff.mpr none)

theorem joins_inverse {inverse : Rule} (made : m.inverse? = some inverse) : inverse.Joins := by
  unfold Rule.inverse? at made
  split at made
  · split at made
    · cases made
      exact ⟨_, List.mem_singleton_self _, rfl⟩
    · cases made
  · cases made

theorem rules_join_iff (valid : declared.validate = .ok ())
    (given : Mapping.rules declared config trust = .ok rules) :
    (∀ r ∈ rules, r.Joins) ↔ ∀ m ∈ trusted declared trust, m.Joins := by
  obtain ⟨⟨⟩, -, given⟩ := Compiled.bind_ok.mp given
  obtain ⟨⟨⟩, -, given⟩ := Compiled.bind_ok.mp given
  obtain ⟨⟨⟩, -, given⟩ := Compiled.bind_ok.mp given
  cases given
  constructor
  · intro joins m direct
    have headed := headed_of_valid valid (mem_trusted.mp direct).1
    obtain ⟨r, inside⟩ := List.exists_mem_of_ne_nil (toRules declared config m) (toRules_bodies.2 headed)
    refine (Rule.joins_congr (toRules_bodies.1 r inside)).mp (joins r ?_)
    exact List.mem_flatMap.mpr ⟨m, mem_withInverses.mpr (.inl direct), inside⟩
  · intro joins r inside
    obtain ⟨m, member, inside⟩ := List.mem_flatMap.mp inside
    refine (Rule.joins_congr (toRules_bodies.1 r inside)).mpr ?_
    rcases mem_withInverses.mp member with direct | ⟨-, source, -, made⟩
    · exact joins m direct
    · exact joins_inverse made

end Mapping

namespace Build

variable {declared : Catalog} {trust : TrustPolicy} {rules : List Rule} {b b' : Build} {y : Exchange}

theorem Composed.joins_iff (composed : Composed declared trust rules b y b')
    (safe : ∀ r ∈ rules, r.IsSafe declared) :
    (∀ r ∈ b'.exchange.rules, r.Joins) ↔ ∀ r ∈ rules, r.Joins := by
  obtain ⟨grouped, stages, staged⟩ := composed.staged
  have projections : ∀ q ∈ b.exchange.provenanceToTarget, q.IsProjection b.catalog := fun q inside =>
    (projection_of_staged staged inside).1
  have unfolded : (∀ r ∈ y.sourceToProvenance, r.Joins) ↔
      ∀ r ∈ b.exchange.sourceToProvenance, r.Joins := by
    obtain same | ⟨definitions, pending, n, fresh, defined, pended, ran⟩ :=
      Exchange.composeVirtual_rounds composed.composed fun r => real_of_staged staged
    · rw [same]
    · simp only [← pended]
      exact Unfolding.rounds_join_iff (fun d inside => projections d (defined d inside))
        (fun r inside => (safe_of_staged staged safe ((pended r).mp inside)).1) ran
  calc (∀ r ∈ b'.exchange.rules, r.Joins)
      ↔ ∀ r ∈ y.sourceToProvenance, r.Joins := by
        constructor
        · intro joins r inside
          refine Rule.joins_minimize.mp (joins (r.minimize b.catalog.isProvenance).1 ?_)
          refine List.mem_append_right _ (List.mem_append_left _ ?_)
          rw [composed.localized.sources]
          exact Exchange.mem_minimize_sources.mpr ⟨r, inside, rfl⟩
        · intro joins r inside
          obtain ⟨relation, rfl, -⟩ | ⟨q, source | target, rfl⟩ := composed.mem_rules inside
          · exact ⟨_, List.mem_singleton_self _, rfl⟩
          · exact Rule.joins_minimize.mpr (joins q source)
          · refine Rule.joins_minimize.mpr ?_
            obtain ⟨a, inside⟩ := List.exists_mem_of_ne_nil _ (projections q target).body
            exact ⟨a, inside, ((projections q target).read a inside).2⟩
    _ ↔ ∀ r ∈ b.exchange.sourceToProvenance, r.Joins := unfolded
    _ ↔ ∀ r ∈ rules, r.Joins := staged.bodies_iff (Q := fun body => ∃ a ∈ body, a.isPositive = true)

end Build

end PeerExchange
