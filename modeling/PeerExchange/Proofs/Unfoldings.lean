import PeerExchange.Proofs.Compiled
import PeerExchange.Unfolding

namespace PeerExchange

variable {r r' definition : Rule} {definitions : List Rule} {position : Nat} {target head : Atom}
  {fresh fresh' : FreshNames}

theorem Renaming.le_extend {kept : List String} {state : Renaming × FreshNames} {name : String} :
    state.2.next ≤ (Renaming.extend kept state name).2.next := by
  unfold Renaming.extend
  split
  · exact Nat.le_refl _
  · exact Nat.le_succ _

theorem Renaming.le_foldl_extend {kept names : List String} {state : Renaming × FreshNames} :
    state.2.next ≤ (names.foldl (Renaming.extend kept) state).2.next := by
  induction names generalizing state with
  | nil => exact Nat.le_refl _
  | cons name rest ih => exact Nat.le_trans le_extend ih

theorem HeadFit.le_step {fit : HeadFit} {arg : Term} {opposite : Option Term} :
    fit.fresh.next ≤ (fit.step arg opposite).fresh.next := by
  unfold HeadFit.step
  split
  · exact Nat.le_succ _
  all_goals exact Nat.le_refl _

theorem HeadFit.le_steps {fit : HeadFit} {args opposites : List Term} :
    fit.fresh.next ≤ (fit.steps args opposites).fresh.next := by
  induction args generalizing fit opposites with
  | nil => exact Nat.le_refl _
  | cons arg rest ih =>
    cases opposites with
    | nil => exact Nat.le_trans le_step ih
    | cons opposite others => exact Nat.le_trans le_step ih

namespace Rule

theorem le_renamedApart : fresh.next ≤ (r.renamedApart fresh).2.next :=
  @Renaming.le_foldl_extend [] r.allNames (.empty, fresh)

theorem le_unfoldThrough :
    fresh.next ≤ (r.unfoldThrough position target definition head fresh).2.next :=
  @HeadFit.le_steps { fresh := fresh } _ target.args

theorem le_unfoldHeads {heads : List Atom} :
    fresh.next ≤ (r.unfoldHeads position target definition heads fresh).2.next := by
  induction heads generalizing fresh with
  | nil => exact Nat.le_refl _
  | cons head rest ih =>
    unfold unfoldHeads
    split
    · exact Nat.le_trans le_unfoldThrough ih
    · exact ih

def ThroughDefinition (r : Rule) (position : Nat) (target : Atom) (fresh fresh' : FreshNames)
    (definition : Rule) (made : List Rule) : Prop :=
  ∃ before, fresh.next ≤ before.next ∧ (definition.renamedApart before).2.next ≤ fresh'.next ∧
    made = (r.unfoldHeads position target (definition.renamedApart before).1
      (definition.renamedApart before).1.head (definition.renamedApart before).2).1

theorem le_unfoldDefinitions :
    fresh.next ≤ (r.unfoldDefinitions position target definitions fresh).2.next := by
  induction definitions generalizing fresh with
  | nil => exact Nat.le_refl _
  | cons definition rest ih => exact Nat.le_trans (Nat.le_trans le_renamedApart le_unfoldHeads) ih

theorem unfoldDefinitions_parts (r : Rule) (position : Nat) (target : Atom)
    (definitions : List Rule) (fresh : FreshNames) :
    ∃ pieces, (r.unfoldDefinitions position target definitions fresh).1 = pieces.flatten ∧
      List.Forall₂ (r.ThroughDefinition position target fresh
        (r.unfoldDefinitions position target definitions fresh).2) definitions pieces := by
  induction definitions generalizing fresh with
  | nil => exact ⟨[], rfl, .nil⟩
  | cons definition rest ih =>
    let next := (r.unfoldHeads position target (definition.renamedApart fresh).1
      (definition.renamedApart fresh).1.head (definition.renamedApart fresh).2).2
    obtain ⟨pieces, made, each⟩ := ih next
    have grown : fresh.next ≤ next.next := Nat.le_trans le_renamedApart le_unfoldHeads
    refine ⟨_ :: pieces, congrArg _ made, .cons ⟨fresh, Nat.le_refl _, ?_, rfl⟩ ?_⟩
    · exact Nat.le_trans le_unfoldHeads le_unfoldDefinitions
    · refine each.imp ?_
      rintro other here ⟨before, above, below, same⟩
      exact ⟨before, Nat.le_trans grown above, below, same⟩

theorem mem_unfoldHeads {heads : List Atom}
    (made : r' ∈ (r.unfoldHeads position target definition heads fresh).1) :
    ∃ head ∈ heads, head.relation? = target.relation? ∧
      ∃ before, (r.unfoldThrough position target definition head before).1 = some r' := by
  induction heads generalizing fresh with
  | nil => cases made
  | cons head rest ih =>
    have later : ∀ {between}, r' ∈ (r.unfoldHeads position target definition rest between).1 →
        ∃ h ∈ head :: rest, h.relation? = target.relation? ∧
          ∃ before, (r.unfoldThrough position target definition h before).1 = some r' := by
      intro between made
      obtain ⟨h, member, found⟩ := ih made
      exact ⟨h, List.mem_cons_of_mem _ member, found⟩
    unfold unfoldHeads at made
    split at made
    · rename_i same
      rcases List.mem_append.mp made with here | there
      · exact ⟨head, List.mem_cons_self, same, fresh, Option.mem_toList.mp here⟩
      · exact later there
    · exact later made

end Rule

namespace Unfolding

variable {catalog : Catalog} {rules pending pending' : List Rule}

theorem mem_definitionsOf : r ∈ definitionsOf catalog rules ↔
    r ∈ rules ∧ catalog.isVirtual r.headRelation = true := by
  simp [definitionsOf]

theorem definitionsOf_idem :
    definitionsOf catalog (definitionsOf catalog rules) = definitionsOf catalog rules := by
  simp [definitionsOf, List.filter_filter]

theorem virtualAtom?_eq_none :
    virtualAtom? catalog r = none ↔
      ∀ a ∈ r.body, a.relation?.any catalog.isVirtual = false := by
  simp only [virtualAtom?, List.find?_eq_none, Bool.not_eq_true]
  constructor
  · intro none a member
    obtain ⟨i, found⟩ := List.mem_iff_getElem?.mp member
    obtain ⟨inside, same⟩ := List.getElem?_eq_some_iff.mp found
    exact none (i, a) (List.mem_mapIdx.mpr ⟨i, inside, by rw [same]⟩)
  · rintro none ⟨i, a⟩ member
    obtain ⟨i, inside, same⟩ := List.mem_mapIdx.mp member
    cases same
    exact none _ (List.getElem_mem inside)

theorem virtualAtom?_found (found : virtualAtom? catalog r = some (position, target)) :
    r.body[position]? = some target ∧
      ∃ name, target.relation? = some name ∧ catalog.isVirtual name = true := by
  obtain ⟨i, inside, same⟩ := List.mem_mapIdx.mp (List.mem_of_find?_eq_some found)
  cases same
  refine ⟨List.getElem?_eq_getElem inside, ?_⟩
  simpa [Option.any_eq_true] using List.find?_some found

def ThroughRound (catalog : Catalog) (definitions : List Rule) (fresh fresh' : FreshNames)
    (r : Rule) (made : List Rule) : Prop :=
  (virtualAtom? catalog r = none ∧ made = [r]) ∨
    ∃ position target before, virtualAtom? catalog r = some (position, target) ∧
      fresh.next ≤ before.next ∧
      (r.unfoldDefinitions position target definitions before).2.next ≤ fresh'.next ∧
      made = (r.unfoldDefinitions position target definitions before).1

theorem round_parts (ran : round catalog definitions pending fresh = .ok (pending', fresh')) :
    fresh.next ≤ fresh'.next ∧ ∃ pieces, pending' = pieces.flatten ∧
      List.Forall₂ (ThroughRound catalog definitions fresh fresh') pending pieces := by
  induction pending generalizing fresh pending' with
  | nil =>
    cases ran
    exact ⟨Nat.le_refl _, [], rfl, .nil⟩
  | cons r rest ih =>
    -- The rest of the round starts from the names that the first rule left.
    have further : ∀ {here others : List Rule} {between : FreshNames},
        fresh.next ≤ between.next → (between.next ≤ fresh'.next →
          ThroughRound catalog definitions fresh fresh' r here) →
        round catalog definitions rest between = .ok (others, fresh') →
        fresh.next ≤ fresh'.next ∧ ∃ pieces, here ++ others = pieces.flatten ∧
          List.Forall₂ (ThroughRound catalog definitions fresh fresh') (r :: rest) pieces := by
      intro here others between below first later
      obtain ⟨grown, pieces, made, each⟩ := ih later
      refine ⟨Nat.le_trans below grown, here :: pieces, by rw [made]; rfl, .cons (first grown) ?_⟩
      refine each.imp ?_
      rintro r made (kept | ⟨position, target, before, found, above, within, same⟩)
      · exact .inl kept
      · exact .inr ⟨position, target, before, found, Nat.le_trans below above, within, same⟩
    unfold round at ran
    split at ran
    · rename_i none
      obtain ⟨⟨_, _⟩, first, ran⟩ := Compiled.bind_ok.mp ran
      cases first
      obtain ⟨⟨others, after⟩, later, ran⟩ := Compiled.bind_ok.mp ran
      cases ran
      exact further (Nat.le_refl _) (fun _ => .inl ⟨none, rfl⟩) later
    · rename_i position target found
      obtain ⟨⟨here, between⟩, first, ran⟩ := Compiled.bind_ok.mp ran
      obtain ⟨⟨others, after⟩, later, ran⟩ := Compiled.bind_ok.mp ran
      cases ran
      unfold Rule.unfoldAt at first
      split at first
      · obtain ⟨rfl, rfl⟩ := Prod.mk.inj (Except.ok.inj first)
        exact further Rule.le_unfoldDefinitions (fun within =>
          .inr ⟨position, target, fresh, found, Nat.le_refl _, within, rfl⟩) later
      · cases first

theorem rounds_keep {P : Rule → Prop} {n : Nat}
    (kept : ∀ r position target before r', P r → virtualAtom? catalog r = some (position, target) →
      r' ∈ (r.unfoldDefinitions position target definitions before).1 → P r')
    (holds : ∀ r ∈ pending, P r)
    (ran : rounds catalog definitions n pending fresh = .ok (pending', fresh')) :
    ∀ r ∈ pending', P r := by
  induction n generalizing pending fresh with
  | zero =>
    cases ran
    exact holds
  | succ n ih =>
    unfold rounds at ran
    split at ran
    · cases ran
      exact holds
    · obtain ⟨⟨next, between⟩, first, ran⟩ := Compiled.bind_ok.mp ran
      obtain ⟨-, pieces, rfl, each⟩ := round_parts first
      refine ih (fun r' made => ?_) ran
      obtain ⟨piece, member, made⟩ := List.mem_flatten.mp made
      obtain ⟨r, pended, ⟨-, rfl⟩ | ⟨position, target, before, found, -, -, rfl⟩⟩ :=
        Compiled.forall₂_source each member
      · exact List.mem_singleton.mp made ▸ holds r pended
      · exact kept r position target before r' (holds r pended) found made

theorem compose_rounds {composed : List Rule}
    (ran : compose catalog rules fresh = .ok (composed, fresh')) :
    ∃ n, rounds catalog (definitionsOf catalog rules) n
      (rules.filter fun r => !catalog.isVirtual r.headRelation) fresh = .ok (composed, fresh') := by
  obtain ⟨⟨⟩, -, ran⟩ := Compiled.bind_ok.mp ran
  rw [List.partition_eq_filter_filter] at ran
  dsimp only at ran
  split at ran
  · exact ⟨0, ran⟩
  · obtain ⟨⟨⟩, -, ran⟩ := Compiled.bind_ok.mp ran
    exact ⟨_, ran⟩

end Unfolding

end PeerExchange
