import Mathlib.Data.List.Induction
import PeerExchange.Compilation
import PeerExchange.Proofs.InventedValues
import PeerExchange.Proofs.Unfoldings

namespace PeerExchange

-- What holds of the atoms of a rule, of its heads and of its body.
structure Rule.Has (H B : Atom → Prop) (r : Rule) : Prop where
  head : ∀ a ∈ r.head, H a
  body : ∀ a ∈ r.body, B a

def Atom.Steady (P : Atom → Prop) : Prop := ∀ f a, P a → P (a.mapArgs f)

variable {H B : Atom → Prop} {r r' : Rule} {catalog : Catalog}

theorem Mapping.checkSupported_ok {m : Rule} (supported : checkSupported m = .ok ()) :
    (∀ a ∈ m.body, a.negated = false) ∧ ∀ a ∈ m.body ++ m.head, a.optional = false := by
  unfold checkSupported at supported
  split at supported
  · cases supported
  · rename_i clean
    unfold fault? at clean
    split at clean
    · cases clean
    · rename_i positive
      split at clean
      · cases clean
      · rename_i required
        rw [Bool.not_eq_true, List.any_eq_false] at positive required
        exact ⟨fun a inside => Bool.not_eq_true _ ▸ positive a inside,
          fun a inside => Bool.not_eq_true _ ▸ required a inside⟩

-- The rules of a mapping are the mapping with its invented values, or parts of it with one head each.
theorem Mapping.toRules_keep {P : Rule → Prop} {config : Config} {m : Rule} (kept : P m.skolemize)
    (part : ∀ id parent, ∀ head ∈ m.skolemize.head,
      P { m.skolemize with id := id, head := [head], parent := parent }) :
    ∀ r ∈ toRules catalog config m, P r := by
  unfold toRules
  split
  · intro r inside
    unfold Rule.split at inside
    split at inside
    · exact List.mem_singleton.mp inside ▸ kept
    · obtain ⟨i, bound, rfl⟩ := List.mem_mapIdx.mp inside
      exact part _ _ _ (List.getElem_mem bound)
  · exact List.forall_mem_singleton.mpr kept

section Mapping

variable (heads : Atom.Steady H)

include heads

theorem Rule.Has.skolemize (has : r.Has H B) : r.skolemize.Has H B :=
  skolemize_keeps has fun _ _ held _ =>
    ⟨List.forall_mem_map.mpr fun a member => heads _ a (held.head a member), held.body⟩

theorem Mapping.has_toRules {config : Config} {m : Rule} (has : m.Has H B) :
    ∀ r ∈ toRules catalog config m, r.Has H B := by
  have skolemized := has.skolemize heads
  exact toRules_keep skolemized fun _ _ head member =>
    ⟨List.forall_mem_singleton.mpr (skolemized.head head member), skolemized.body⟩

end Mapping

section Unfolding

variable (heads : Atom.Steady H) (bodies : Atom.Steady B)
  (equations : ∀ args, B (.ofBuiltin .eq args))

include heads bodies

theorem Rule.Has.substitute {σ : Substitution} (has : r.Has H B) : (r.substitute σ).Has H B where
  head := List.forall_mem_map.mpr fun a member => heads _ a (has.head a member)
  body := List.forall_mem_map.mpr fun a member => bodies _ a (has.body a member)

include equations

theorem Rule.Has.unfoldThrough {position : Nat} {target head : Atom} {definition : Rule}
    {fresh : FreshNames} (has : r.Has H B) (defined : ∀ a ∈ definition.body, B a)
    (made : (r.unfoldThrough position target definition head fresh).1 = some r') : r'.Has H B := by
  unfold Rule.unfoldThrough at made
  dsimp only at made
  split at made
  · cases made
  · split at made
    · cases made
    · cases made
      refine Rule.Has.substitute heads bodies ⟨has.head, ?_⟩
      refine List.forall_mem_append.mpr ⟨List.forall_mem_append.mpr
        ⟨List.forall_mem_append.mpr ⟨?_, ?_⟩, ?_⟩, ?_⟩
      · exact fun a before => has.body a (List.mem_of_mem_take before)
      · exact List.forall_mem_map.mpr fun a own => bodies _ a (defined a own)
      · exact List.forall_mem_map.mpr fun _ _ => equations _
      · exact fun a after => has.body a (List.mem_of_mem_drop after)

namespace Unfolding

variable {definitions pending rules rules' : List Rule} {fresh fresh' : FreshNames}

theorem has_rounds {n : Nat} (defined : ∀ d ∈ definitions, ∀ a ∈ d.body, B a)
    (has : ∀ r ∈ pending, r.Has H B)
    (ran : rounds catalog definitions n pending fresh = .ok (rules', fresh')) :
    ∀ r ∈ rules', r.Has H B := by
  refine rounds_keep (fun r position target before r' has found made => ?_) has ran
  obtain ⟨pieces, flat, each⟩ := Rule.unfoldDefinitions_parts r position target definitions before
  rw [flat] at made
  obtain ⟨piece, member, made⟩ := List.mem_flatten.mp made
  obtain ⟨d, listed, between, -, -, rfl⟩ := Compiled.forall₂_source each member
  obtain ⟨head, -, -, after, made⟩ := Rule.mem_unfoldHeads made
  refine has.unfoldThrough heads bodies equations (List.forall_mem_map.mpr ?_) made
  exact fun a inside => bodies _ a (defined d listed a inside)

theorem has_compose (defined : ∀ d ∈ definitionsOf catalog rules, ∀ a ∈ d.body, B a)
    (has : ∀ r ∈ rules, catalog.isVirtual r.headRelation = false → r.Has H B)
    (ran : compose catalog rules fresh = .ok (rules', fresh')) : ∀ r ∈ rules', r.Has H B := by
  obtain ⟨n, ran⟩ := compose_rounds ran
  refine has_rounds heads bodies equations defined (fun r inside => ?_) ran
  obtain ⟨member, real⟩ := List.mem_filter.mp inside
  exact has r member (by simpa using real)

end Unfolding

end Unfolding

namespace Rule

theorem relation_of_same {a b : Atom} (same : a.same b = true) : a.relation? = b.relation? := by
  simp only [Atom.same, Bool.and_eq_true, decide_eq_true_eq] at same
  rw [Atom.relation?, same.1.1.1.1, Atom.relation?]

theorem same_self (a : Atom) : a.same a = true := by simp [Atom.same, Term.sameList]

theorem relation_of_homomorphism {a b : Atom} {σ : Substitution}
    (found : a.homomorphism? b = some σ) : a.relation? = b.relation? := by
  unfold Atom.homomorphism? Atom.foldOnto? at found
  split at found
  · rename_i m folded
    split at folded
    · rename_i same
      rw [Bool.and_eq_true, decide_eq_true_eq] at same
      rw [Atom.relation?, same.1, Atom.relation?]
    · cases folded
  · cases found

theorem dropRepeats_concat (body : List Atom) (a : Atom) : dropRepeats (body ++ [a]) =
    if (dropRepeats body).1.any (·.same a) then ((dropRepeats body).1, (dropRepeats body).2 ++ [a])
    else ((dropRepeats body).1 ++ [a], (dropRepeats body).2) := by
  unfold dropRepeats
  rw [List.foldl_append]
  rfl

theorem dropRepeats_keeps (body : List Atom) : (dropRepeats body).1 ⊆ body ∧
    ∀ a ∈ body, ∃ kept ∈ (dropRepeats body).1, kept.same a = true := by
  induction body using List.reverseRecOn with
  | nil => exact ⟨List.Subset.refl _, List.forall_mem_nil _⟩
  | append_singleton body a ih =>
    obtain ⟨within, covered⟩ := ih
    rw [dropRepeats_concat]
    split
    · rename_i repeated
      obtain ⟨kept, member, same⟩ := List.any_eq_true.mp repeated
      exact ⟨List.subset_append_of_subset_left _ within, List.forall_mem_append.mpr
        ⟨covered, List.forall_mem_singleton.mpr ⟨kept, member, same⟩⟩⟩
    · refine ⟨List.append_subset.mpr ⟨List.subset_append_of_subset_left _ within,
        List.subset_append_right _ _⟩, List.forall_mem_append.mpr ⟨fun b inside => ?_, ?_⟩⟩
      · obtain ⟨kept, member, same⟩ := covered b inside
        exact ⟨kept, List.mem_append_left _ member, same⟩
      · exact List.forall_mem_singleton.mpr
          ⟨a, List.mem_append_right _ (List.mem_singleton_self a), same_self a⟩

theorem firstSubsumed_provenance {isProvenance : String → Bool} {j : Nat}
    (found : r.firstSubsumed? isProvenance = some j) {a : Atom} (inside : r.body[j]? = some a)
    {name : String} (named : a.relation? = some name) : isProvenance name = true := by
  obtain ⟨⟨i, j'⟩, first, rfl⟩ := Option.map_eq_some_iff.mp found
  have chosen := List.find?_some first
  simp only [Bool.and_eq_true] at chosen
  have subsumed := chosen.2
  unfold subsumes at subsumed
  dsimp only at inside
  rw [inside] at subsumed
  split at subsumed
  · rename_i b c other same
    cases same
    simp only [Bool.and_eq_true] at subsumed
    obtain ⟨⟨-, provenance⟩, folds⟩ := subsumed
    split at folds
    · rename_i σ folded
      rwa [Atom.relationName, relation_of_homomorphism folded, named] at provenance
    · cases folds
  · cases subsumed

theorem dropSubsumed_keeps (isProvenance : String → Bool) (rounds : Nat) (r : Rule)
    (dropped : List Atom) :
    (dropSubsumed isProvenance rounds r dropped).1.head = r.head ∧
      (dropSubsumed isProvenance rounds r dropped).1.body ⊆ r.body ∧
      ∀ a ∈ r.body, ∀ name, a.relation? = some name → isProvenance name = false →
        a ∈ (dropSubsumed isProvenance rounds r dropped).1.body := by
  induction rounds generalizing r dropped with
  | zero => exact ⟨rfl, List.Subset.refl _, fun a member _ _ _ => member⟩
  | succ rounds ih =>
    unfold dropSubsumed
    split
    · exact ⟨rfl, List.Subset.refl _, fun a member _ _ _ => member⟩
    · rename_i j found
      obtain ⟨head, within, kept⟩ := ih { r with body := r.body.eraseIdx j }
        (dropped ++ r.body[j]?.toList)
      refine ⟨head, fun a inside => List.mem_of_mem_eraseIdx (within inside), ?_⟩
      intro a member name named plain
      refine kept a ?_ name named plain
      obtain ⟨i, inside, rfl⟩ := List.getElem_of_mem member
      refine List.mem_eraseIdx_iff_getElem.mpr ⟨i, inside, ?_, rfl⟩
      rintro rfl
      rw [firstSubsumed_provenance found (List.getElem?_eq_getElem inside) named] at plain
      cases plain

theorem minimize_keeps {isProvenance : String → Bool} :
    (r.minimize isProvenance).1.head = r.head ∧ (r.minimize isProvenance).1.body ⊆ r.body ∧
      ∀ a ∈ r.body, ∀ name, a.relation? = some name → isProvenance name = false →
        ∃ kept ∈ (r.minimize isProvenance).1.body, kept.relation? = some name := by
  obtain ⟨within, covered⟩ := dropRepeats_keeps r.body
  obtain ⟨head, less, kept⟩ := dropSubsumed_keeps isProvenance (dropRepeats r.body).1.length
    { r with body := (dropRepeats r.body).1 } (dropRepeats r.body).2
  refine ⟨head, fun a inside => within (less inside), fun a member name named plain => ?_⟩
  obtain ⟨b, inside, same⟩ := covered a member
  have named := (relation_of_same same).trans named
  exact ⟨b, kept b inside name named plain, named⟩

theorem Has.minimize {isProvenance : String → Bool} (has : r.Has H B) :
    (r.minimize isProvenance).1.Has H B where
  head := by
    rw [minimize_keeps.1]
    exact has.head
  body a inside := has.body a (minimize_keeps.2.1 inside)

end Rule

end PeerExchange
