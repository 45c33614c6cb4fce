import Mathlib.Algebra.Order.BigOperators.Group.List
import Mathlib.Algebra.Order.Ring.Nat
import PeerExchange.Proofs.Unfoldings
import PeerExchange.Proofs.VirtualLevels

namespace PeerExchange

namespace Rule

variable {r r' definition : Rule} {position : Nat} {target head : Atom} {fresh : FreshNames}

def IsSingle (r : Rule) : Prop := ∃ a, r.head = [a]

instance (r : Rule) : Decidable r.IsSingle :=
  decidable_of_iff (r.head.length = 1) List.length_eq_one_iff

theorem IsSingle.relation_eq (single : r.IsSingle) {a : Atom} {name : String} (member : a ∈ r.head)
    (named : a.relation? = some name) : r.headRelation = name := by
  obtain ⟨only, same⟩ := single
  rw [same, List.mem_singleton] at member
  subst member
  exact headRelation_of_head (congrArg List.head? same) named

-- Whatever is substituted, the new body reads what the definition reads in place of the target.
theorem relations_unfoldThrough
    (made : (r.unfoldThrough position target definition head fresh).1 = some r') :
    ∃ equalities : List (Option String), (∀ e ∈ equalities, e = none) ∧
      r'.body.map Atom.relation? = (r.body.take position).map Atom.relation? ++
        definition.body.map Atom.relation? ++ equalities ++
        (r.body.drop (position + 1)).map Atom.relation? := by
  have kept : ∀ (σ : Substitution) (body : List Atom),
      (body.map (Atom.substitute σ)).map Atom.relation? = body.map Atom.relation? :=
    fun σ body => List.map_map.trans rfl
  unfold unfoldThrough at made
  dsimp only at made
  split at made
  · cases made
  · split at made
    · cases made
    · rename_i m _
      cases made
      refine ⟨(m.equalities.map fun pair =>
        Atom.ofBuiltin .eq [pair.1, pair.2.substitute m.sigma]).map Atom.relation?, ?_, ?_⟩
      · intro e member
        obtain ⟨a, inside, rfl⟩ := List.mem_map.mp member
        obtain ⟨pair, -, rfl⟩ := List.mem_map.mp inside
        rfl
      · change (List.map (Atom.substitute _) _).map Atom.relation? = _
        rw [kept]
        simp only [List.map_append, kept]

theorem relations_renamedApart :
    (definition.renamedApart fresh).1.body.map Atom.relation? =
      definition.body.map Atom.relation? := List.map_map.trans rfl

theorem headRelations_renamedApart :
    (definition.renamedApart fresh).1.head.map Atom.relation? =
      definition.head.map Atom.relation? := List.map_map.trans rfl

end Rule

namespace Unfolding

variable {catalog : Catalog} {definitions pending pending' : List Rule} {r r' : Rule}
  {fresh fresh' : FreshNames}

theorem length_le_bodyAtoms {d : Rule} (member : d ∈ definitions) :
    d.body.length ≤ bodyAtoms definitions := by
  induction definitions with
  | nil => cases member
  | cons first rest ih =>
    rw [bodyAtoms, List.foldr_cons]
    rcases List.mem_cons.mp member with rfl | later
    · exact Nat.le_add_right _ _
    · exact Nat.le_add_left_of_le (ih later)

noncomputable def weight (isVirtual : String → Bool) (definitions : List Rule) :
    Option String → Nat
  | some name =>
    if isVirtual name then (bodyAtoms definitions + 1) ^ level isVirtual definitions name else 0
  | none => 0

noncomputable def ruleWeight (isVirtual : String → Bool) (definitions : List Rule) (r : Rule) : Nat :=
  ((r.body.map Atom.relation?).map (weight isVirtual definitions)).sum

section Weights

variable {isVirtual : String → Bool} {name : String}

theorem weight_le (relation : Option String) :
    weight isVirtual definitions relation ≤ (bodyAtoms definitions + 1) ^ definitions.length := by
  unfold weight
  split
  · split
    · exact Nat.pow_le_pow_right (Nat.succ_pos _) level_le
    · exact Nat.zero_le _
  · exact Nat.zero_le _

theorem weight_pos (virtual : isVirtual name = true) :
    0 < weight isVirtual definitions (some name) := by
  rw [weight, if_pos virtual]
  exact Nat.pow_pos (Nat.succ_pos _)

theorem weight_read_le (layered : Layered isVirtual definitions) {d : Rule} (member : d ∈ definitions)
    (defined : d.headRelation = name) {below : Nat}
    (levelled : level isVirtual definitions name = below + 1) {a : Atom} (inside : a ∈ d.body) :
    weight isVirtual definitions a.relation? ≤ (bodyAtoms definitions + 1) ^ below := by
  unfold weight
  split
  · rename_i other named
    split
    · rename_i virtual
      have lower := layered.level_lt ⟨d, member, defined, a, inside, named, virtual⟩
      exact Nat.pow_le_pow_right (Nat.succ_pos _) (by omega)
    · exact Nat.zero_le _
  · exact Nat.zero_le _

theorem ruleWeight_lt_weight (layered : Layered isVirtual definitions) {d : Rule}
    (member : d ∈ definitions) (defined : d.headRelation = name) (virtual : isVirtual name = true) :
    ruleWeight isVirtual definitions d < weight isVirtual definitions (some name) := by
  have positive : 0 < level isVirtual definitions name := level_pos member defined
  obtain ⟨below, levelled⟩ := Nat.exists_eq_add_of_lt positive
  rw [Nat.zero_add] at levelled
  have each : ∀ w ∈ (d.body.map Atom.relation?).map (weight isVirtual definitions),
      w ≤ (bodyAtoms definitions + 1) ^ below := by
    intro w inside
    obtain ⟨relation, listed, rfl⟩ := List.mem_map.mp inside
    obtain ⟨a, read, rfl⟩ := List.mem_map.mp listed
    exact weight_read_le layered member defined levelled read
  rw [weight, if_pos virtual, levelled, Nat.pow_succ]
  calc ruleWeight isVirtual definitions d
      ≤ d.body.length * (bodyAtoms definitions + 1) ^ below := by
        simpa [ruleWeight] using List.sum_le_card_nsmul _ _ each
    _ ≤ bodyAtoms definitions * (bodyAtoms definitions + 1) ^ below :=
        Nat.mul_le_mul_right _ (length_le_bodyAtoms member)
    _ < (bodyAtoms definitions + 1) ^ below * (bodyAtoms definitions + 1) := by
        rw [Nat.mul_comm]
        exact Nat.mul_lt_mul_of_pos_left (Nat.lt_succ_self _) (Nat.pow_pos (Nat.succ_pos _))

end Weights

theorem ruleWeight_eq_zero :
    ruleWeight catalog.isVirtual definitions r = 0 ↔ virtualAtom? catalog r = none := by
  rw [virtualAtom?_eq_none, ruleWeight, List.sum_eq_zero_iff]
  constructor
  · intro none a inside
    have weightless := none _ (List.mem_map.mpr ⟨_, List.mem_map.mpr ⟨a, inside, rfl⟩, rfl⟩)
    cases named : a.relation? with
    | none => rfl
    | some name =>
      by_contra virtual
      rw [named] at weightless
      exact absurd weightless (weight_pos (by simpa using virtual)).ne'
  · intro none w inside
    obtain ⟨relation, listed, rfl⟩ := List.mem_map.mp inside
    obtain ⟨a, read, rfl⟩ := List.mem_map.mp listed
    have real := none a read
    cases named : a.relation? with
    | none => rfl
    | some name =>
      rw [named] at real
      exact if_neg (by simpa using real)

theorem ruleWeight_le :
    ruleWeight catalog.isVirtual definitions r ≤
      r.body.length * (bodyAtoms definitions + 1) ^ definitions.length := by
  have each : ∀ w ∈ (r.body.map Atom.relation?).map (weight catalog.isVirtual definitions),
      w ≤ (bodyAtoms definitions + 1) ^ definitions.length := by
    intro w inside
    obtain ⟨relation, _, rfl⟩ := List.mem_map.mp inside
    exact weight_le relation
  simpa [ruleWeight] using List.sum_le_card_nsmul _ _ each

section Decrease

variable (layered : Layered catalog.isVirtual definitions) (single : ∀ d ∈ definitions, d.IsSingle)

include layered single

theorem lighter_of_unfoldDefinitions {position : Nat} {target : Atom}
    (found : virtualAtom? catalog r = some (position, target))
    (made : r' ∈ (r.unfoldDefinitions position target definitions fresh).1) :
    ruleWeight catalog.isVirtual definitions r' < ruleWeight catalog.isVirtual definitions r := by
  obtain ⟨at_, name, named, virtual⟩ := virtualAtom?_found found
  obtain ⟨pieces, flat, each⟩ := Rule.unfoldDefinitions_parts r position target definitions fresh
  rw [flat] at made
  obtain ⟨piece, member, made⟩ := List.mem_flatten.mp made
  obtain ⟨d, defined, before, -, -, rfl⟩ := Compiled.forall₂_source each member
  obtain ⟨head, inside, same, between, made⟩ := Rule.mem_unfoldHeads made
  obtain ⟨equalities, none, relations⟩ := Rule.relations_unfoldThrough made
  have headed : d.headRelation = name := by
    have listed : head.relation? ∈ d.head.map Atom.relation? := by
      rw [← Rule.headRelations_renamedApart]
      exact List.mem_map_of_mem inside
    obtain ⟨a, member, equal⟩ := List.mem_map.mp listed
    exact (single d defined).relation_eq member (by rw [equal, same, named])
  have lighter := ruleWeight_lt_weight layered defined headed virtual
  have split : r.body = r.body.take position ++ target :: r.body.drop (position + 1) := by
    obtain ⟨inside, rfl⟩ := List.getElem?_eq_some_iff.mp at_
    rw [← List.drop_eq_getElem_cons inside, List.take_append_drop]
  have weightless : (equalities.map (weight catalog.isVirtual definitions)).sum = 0 := by
    rw [List.sum_eq_zero_iff]
    intro w inside
    obtain ⟨e, member, rfl⟩ := List.mem_map.mp inside
    rw [none e member]
    rfl
  have before : ruleWeight catalog.isVirtual definitions r =
      (((r.body.take position).map Atom.relation?).map (weight catalog.isVirtual definitions)).sum +
        (weight catalog.isVirtual definitions (some name) +
          (((r.body.drop (position + 1)).map Atom.relation?).map
            (weight catalog.isVirtual definitions)).sum) := by
    conv_lhs => rw [ruleWeight, split]
    simp [named]
  have after : ruleWeight catalog.isVirtual definitions r' =
      (((r.body.take position).map Atom.relation?).map (weight catalog.isVirtual definitions)).sum +
        ruleWeight catalog.isVirtual definitions d +
          (((r.body.drop (position + 1)).map Atom.relation?).map
            (weight catalog.isVirtual definitions)).sum := by
    rw [ruleWeight, relations, Rule.relations_renamedApart]
    simp only [List.map_append, List.sum_append, weightless, ruleWeight]
    omega
  omega

theorem lighter_of_round (ran : round catalog definitions pending fresh = .ok (pending', fresh'))
    {n : Nat} (bounded : ∀ r ∈ pending, ruleWeight catalog.isVirtual definitions r ≤ n + 1) :
    ∀ r ∈ pending', ruleWeight catalog.isVirtual definitions r ≤ n := by
  intro r' made
  obtain ⟨-, pieces, rfl, each⟩ := round_parts ran
  obtain ⟨piece, member, made⟩ := List.mem_flatten.mp made
  obtain ⟨r, pended, ⟨none, rfl⟩ | ⟨position, target, before, found, -, -, rfl⟩⟩ :=
    Compiled.forall₂_source each member
  · rw [List.mem_singleton.mp made, ruleWeight_eq_zero.mpr none]
    exact Nat.zero_le n
  · have lighter := lighter_of_unfoldDefinitions layered single found made
    have bound := bounded r pended
    omega

theorem virtualAtom?_of_rounds {n : Nat}
    (bounded : ∀ r ∈ pending, ruleWeight catalog.isVirtual definitions r ≤ n)
    (ran : rounds catalog definitions n pending fresh = .ok (pending', fresh')) :
    ∀ r ∈ pending', virtualAtom? catalog r = none := by
  induction n generalizing pending fresh with
  | zero =>
    cases ran
    exact fun r member => ruleWeight_eq_zero.mp (Nat.le_zero.mp (bounded r member))
  | succ n ih =>
    unfold rounds at ran
    split at ran
    · rename_i stopped
      cases ran
      simpa using stopped
    · obtain ⟨⟨next, between⟩, first, ran⟩ := Compiled.bind_ok.mp ran
      exact ih (lighter_of_round layered single first bounded) ran

end Decrease

theorem ruleWeight_le_roundBound (member : r ∈ pending) :
    ruleWeight catalog.isVirtual definitions r ≤ roundBound definitions pending := by
  calc ruleWeight catalog.isVirtual definitions r
      ≤ r.body.length * (bodyAtoms definitions + 1) ^ definitions.length := ruleWeight_le
    _ ≤ roundBound definitions pending :=
        Nat.mul_le_mul (length_le_bodyAtoms member)
          (Nat.pow_le_pow_right (Nat.succ_pos _) (Nat.le_succ _))

theorem virtualAtom?_of_compose {rules composed : List Rule}
    (ran : compose catalog rules fresh = .ok (composed, fresh'))
    (defined : definitionsOf catalog rules ≠ [])
    (single : ∀ d ∈ definitionsOf catalog rules, d.IsSingle) :
    ∀ r ∈ composed, virtualAtom? catalog r = none := by
  obtain ⟨⟨⟩, -, ran⟩ := Compiled.bind_ok.mp ran
  have parts : rules.partition (fun r => catalog.isVirtual r.headRelation) =
      (definitionsOf catalog rules, rules.filter fun r => !catalog.isVirtual r.headRelation) :=
    List.partition_eq_filter_filter
  rw [parts] at ran
  dsimp only at ran
  rw [if_neg (by simpa using defined)] at ran
  obtain ⟨⟨⟩, accepted, ran⟩ := Compiled.bind_ok.mp ran
  have layered := layered_of_check accepted
  rw [definitionsOf_idem] at layered
  exact virtualAtom?_of_rounds layered single (fun r listed => ruleWeight_le_roundBound listed) ran

end Unfolding

end PeerExchange
