import PeerExchange.Proofs.Distrust
import PeerExchange.Proofs.RuleAtoms

namespace PeerExchange

variable {catalog : Catalog} {config : Config} {trust : TrustPolicy} {r rule : Rule} {a : Atom}

def Rule.IsInner (r : Rule) : Prop := ∀ a ∈ r.body, a.optional = false

namespace Mapping

theorem inner_toRules {m : Rule} (inner : m.IsInner) : ∀ r ∈ toRules catalog config m, r.IsInner := by
  have has : m.Has (fun _ => True) (·.optional = false) := ⟨fun _ _ => trivial, inner⟩
  exact fun r inside => (has_toRules (fun _ _ _ => trivial) has r inside).body

theorem inner_rules {rules : List Rule} (given : Mapping.rules catalog config trust = .ok rules) :
    ∀ r ∈ rules, r.IsInner := by
  obtain ⟨⟨⟩, supported, given⟩ := Compiled.bind_ok.mp given
  obtain ⟨⟨⟩, _, given⟩ := Compiled.bind_ok.mp given
  obtain ⟨⟨⟩, _, given⟩ := Compiled.bind_ok.mp given
  cases given
  rw [List.forall_mem_flatMap]
  exact fun m inside => inner_toRules fun a body =>
    (checkSupported_ok (Compiled.forM_ok supported m inside)).2 a (List.mem_append_left _ body)

end Mapping

theorem Unfolding.inner_compose {rules rules' : List Rule} {fresh fresh' : FreshNames}
    (inner : ∀ r ∈ rules, r.IsInner) (ran : compose catalog rules fresh = .ok (rules', fresh')) :
    ∀ r ∈ rules', r.IsInner := by
  have has := has_compose (H := fun _ => True) (B := (·.optional = false)) (fun _ _ _ => trivial)
    (fun _ _ inner => inner) (fun _ => rfl) (fun d listed => inner d (List.mem_of_mem_filter listed))
    (fun r member _ => ⟨fun _ _ => trivial, inner r member⟩) ran
  exact fun r inside => (has r inside).body

theorem Rule.inner_minimize {isProvenance : String → Bool} (inner : r.IsInner) :
    (r.minimize isProvenance).1.IsInner :=
  fun a inside => inner a (minimize_keeps.2.1 inside)

def Exchange.IsInner (x : Exchange) : Prop := ∀ r ∈ x.rules, r.IsInner

namespace Exchange

variable {x : Exchange}

theorem isInner_iff : x.IsInner ↔ (∀ r ∈ x.localRules, r.IsInner) ∧
    (∀ r ∈ x.sourceToProvenance, r.IsInner) ∧ ∀ r ∈ x.provenanceToTarget, r.IsInner := by
  unfold IsInner rules mappingRules
  rw [List.forall_mem_append, List.forall_mem_append]

theorem inner_composeVirtual {fresh : FreshNames} {y : Exchange} (inner : x.IsInner)
    (ran : x.composeVirtual catalog fresh = (y, .ok ())) : y.IsInner := by
  obtain ⟨locals_, sources, targets⟩ := isInner_iff.mp inner
  unfold composeVirtual at ran
  rw [List.partition_eq_filter_filter] at ran
  have left : ∀ r ∈ x.provenanceToTarget.filter (not ∘ fun r => catalog.isVirtual r.headRelation),
      r.IsInner := fun r inside => targets r (List.mem_of_mem_filter inside)
  dsimp only at ran
  split at ran
  · cases ran
    exact isInner_iff.mpr ⟨locals_, sources, left⟩
  · split at ran
    · rename_i composed
      cases ran
      refine isInner_iff.mpr ⟨locals_, Unfolding.inner_compose ?_ composed, left⟩
      exact List.forall_mem_append.mpr ⟨sources, fun r inside => targets r (List.mem_of_mem_filter inside)⟩
    · cases ran

theorem inner_minimize (inner : x.IsInner) : (x.minimize catalog).IsInner := by
  obtain ⟨locals_, sources, targets⟩ := isInner_iff.mp inner
  have minimized (rules : List Rule) (all : ∀ r ∈ rules, r.IsInner) :
      ∀ r ∈ (minimizeRules catalog.isProvenance rules).1, r.IsInner := by
    intro r inside
    obtain ⟨pair, listed, rfl⟩ := List.mem_map.mp inside
    obtain ⟨old, member, rfl⟩ := List.mem_map.mp listed
    exact Rule.inner_minimize (all old member)
  exact isInner_iff.mpr ⟨locals_, minimized _ sources, minimized _ targets⟩

end Exchange

namespace Build

variable {b b' : Build}

theorem inOrder_keeps {P : Build → Prop} {steps : List Build.Step}
    (keeps : ∀ step ∈ steps, ∀ b b', P b → step b = (b', .ok ()) → P b') (holds : P b)
    (ran : inOrder steps b = (b', .ok ())) : P b' := by
  induction steps generalizing b with
  | nil =>
    cases ran
    exact holds
  | cons step rest ih =>
    obtain ⟨here, later⟩ := List.forall_mem_cons.mp keeps
    rw [inOrder] at ran
    split at ran
    · rename_i middle first
      exact ih later (here b middle holds first) ran
    · rename_i failed
      exact absurd ran (failed b')

theorem inner_addGroup {g : Synthesis.Group} (members : ∀ r ∈ g.members, r.IsInner)
    (inner : b.exchange.IsInner) (ran : Synthesis.addGroup trust g b = (b', .ok ())) :
    b'.exchange.IsInner := by
  obtain ⟨locals_, sources, targets⟩ := Exchange.isInner_iff.mp inner
  unfold Synthesis.addGroup at ran
  split at ran
  · cases congrArg Prod.snd ran
  · rename_i p added
    split at ran
    · cases congrArg Prod.snd ran
    · rename_i middle registered
      have same := Build.exchange_addRelation p.relation b
      rw [registered] at same
      change middle.exchange = b.exchange at same
      simp only at ran
      split at ran
      · cases congrArg Prod.snd ran
      · rename_i read made
        cases ran
        rw [Exchange.isInner_iff]
        simp only [same]
        refine ⟨locals_, List.forall_mem_append.mpr ⟨sources, fun r inside => ?_⟩,
          List.forall_mem_append.mpr ⟨targets, fun r inside => ?_⟩⟩
        · obtain ⟨i, bound, rfl⟩ := List.mem_mapIdx.mp inside
          have own := members g.members[i] (List.getElem_mem bound)
          exact own
        · obtain ⟨target, _, built⟩ :=
            Compiled.forall₂_source (Compiled.forall₂_of_mapM made) inside
          obtain ⟨_, _, built⟩ := Compiled.bind_ok.mp built
          obtain ⟨_, _, built⟩ := Compiled.bind_ok.mp built
          cases built
          exact List.forall_mem_singleton.mpr rfl

theorem inner_addView {members : List ProvenanceRelation} {target : String}
    (inner : b.exchange.IsInner) (ran : Synthesis.addView members target b = (b', .ok ())) :
    b'.exchange.IsInner := by
  unfold Synthesis.addView at ran
  split at ran
  · cases congrArg Prod.snd ran
  · rename_i r _
    simp only at ran
    split at ran
    · have same := Build.exchange_addRelation
        (OuterJoinView.build r (members.filter (·.targets.contains target))).2 b
      split at ran
      · cases congrArg Prod.snd ran
      · rename_i middle registered
        rw [registered] at same
        change middle.exchange = b.exchange at same
        cases ran
        have kept : middle.exchange.IsInner := same ▸ inner
        exact kept
    · cases ran
      exact inner

theorem inner_addLocal {relation : Relation} (inner : b.exchange.IsInner)
    (ran : Synthesis.addLocal relation b = (b', .ok ())) : b'.exchange.IsInner := by
  obtain ⟨locals_, sources, targets⟩ := Exchange.isInner_iff.mp inner
  unfold Synthesis.addLocal at ran
  dsimp only at ran
  have same := congrArg (fun result : Build × Compiled Unit => result.1.exchange) ran
  dsimp only at same
  rw [Build.exchange_addRelation] at same
  rw [← same, Exchange.isInner_iff]
  refine ⟨List.forall_mem_append.mpr ⟨locals_, List.forall_mem_singleton.mpr ?_⟩, sources, targets⟩
  exact List.forall_mem_singleton.mpr rfl

theorem inner_ofCatalog (made : Build.ofCatalog catalog config trust = .ok b) :
    b.exchange.IsInner := by
  obtain ⟨rules, given, made⟩ := Compiled.bind_ok.mp made
  obtain ⟨synthesized, ran, made⟩ := Compiled.bind_ok.mp made
  simp only at made
  obtain ⟨⟨⟩, composed, made⟩ := Compiled.bind_ok.mp made
  have inner := Mapping.inner_rules given
  have synthesis : synthesized.exchange.IsInner := by
    have ran := Build.run_ok ran
    unfold Synthesis.synthesize at ran
    split at ran
    · cases congrArg Prod.snd ran
    · rename_i groups grouped
      have parts := (groups_parts grouped).2
      split at ran
      · rename_i filled added
        have first : filled.exchange.IsInner := by
          refine @inOrder_keeps _ _ (fun b => b.exchange.IsInner) _ ?_ ?_ added
          · intro step listed b b' held stepped
            obtain ⟨g, member, rfl⟩ := List.mem_map.mp listed
            refine inner_addGroup (fun r inside => inner r ?_) held stepped
            exact (parts r).mp (List.mem_flatMap.mpr ⟨g, member, inside⟩)
          · exact fun r inside => nomatch inside
        split at ran
        · refine @inOrder_keeps _ _ (fun b => b.exchange.IsInner) _ ?_ first ran
          intro step listed b b' held stepped
          obtain ⟨target, _, rfl⟩ := List.mem_map.mp listed
          exact inner_addView held stepped
        · cases ran
          exact first
      · rename_i failed
        exact absurd ran (failed synthesized)
  have unfolded : (synthesized.exchange.composeVirtual synthesized.catalog {}).1.IsInner := by
    refine Exchange.inner_composeVirtual synthesis (Prod.ext rfl composed)
  refine @inOrder_keeps _ _ (fun b => b.exchange.IsInner) _ ?_ ?_ (Build.run_ok made)
  · intro step listed b b' held stepped
    obtain ⟨relation, _, rfl⟩ := List.mem_map.mp listed
    exact inner_addLocal held stepped
  · exact Exchange.inner_minimize unfolded

end Build

end PeerExchange
