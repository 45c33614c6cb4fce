import PeerExchange.Proofs.ComponentSearch

namespace PeerExchange

namespace Stratification

section Components

variable {g : Graph} {components : List (List String)} {component : List String} {a b : String}

theorem Search.Complete.isComponent (complete : Search.Complete g components)
    (present : component ∈ components) :
    ∃ before, Search.IsComponent g before component ∧ Search.Complete g before := by
  induction components with
  | nil => cases present
  | cons first before ih =>
    rcases List.mem_cons.mp present with rfl | earlier
    · exact ⟨before, complete⟩
    · exact ih complete.2 earlier

theorem Search.Complete.mem_of_mutual (complete : Search.Complete g components)
    (present : component ∈ components) (inside : a ∈ component) (there : Reaches g a b)
    (back : Reaches g b a) : b ∈ component := by
  obtain ⟨before, is, earlier⟩ := complete.isComponent present
  have both : Search.Complete g (component :: before) := ⟨is, earlier⟩
  rcases List.mem_append.mp (both.reaches (List.mem_append_left _ inside) there) with here | outside
  · exact here
  · exact absurd (earlier.reaches outside back) (is.apart a inside)

theorem Search.Complete.ordered (complete : Search.Complete g components) :
    components.Pairwise fun earlier later => ∀ a ∈ later, ∀ b ∈ earlier, ¬ Reaches g a b := by
  induction components with
  | nil => exact .nil
  | cons component before ih =>
    obtain ⟨is, complete⟩ := complete
    refine List.pairwise_cons.mpr ⟨fun later present a inside b here path => ?_, ih complete⟩
    exact is.apart b here (complete.reaches (List.mem_flatten.mpr ⟨later, present, inside⟩) path)

end Components

section Strata

variable {rules : List Rule} {relations : NameSet} {stratum : Stratum} {a b : String}

-- The components that the search is done with, the last one first.
def found (rules : List Rule) (relations : NameSet) : List (List String) :=
  (Search.visitAll (graph rules) (nodes (graph rules) relations.toList).length {}
    relations.toList).components

theorem stratify_eq (rules : List Rule) (relations : NameSet) : stratify rules relations =
    (found rules relations).map fun component => ⟨component, isRecursive (graph rules) component⟩ := rfl

theorem complete_found (rules : List Rule) (relations : NameSet) :
    Search.Complete (graph rules) (found rules relations) :=
  (Search.visitAll_complete (graph rules) relations.toList).1

theorem stratum_found (present : stratum ∈ stratify rules relations) :
    stratum.relations ∈ found rules relations ∧
      stratum.recursive = isRecursive (graph rules) stratum.relations := by
  rw [stratify_eq] at present
  obtain ⟨component, member, rfl⟩ := List.mem_map.mp present
  exact ⟨member, rfl⟩

theorem stratum_inhabited (present : stratum ∈ stratify rules relations) : stratum.relations ≠ [] := by
  obtain ⟨_, is, -⟩ := (complete_found rules relations).isComponent (stratum_found present).1
  exact is.inhabited

theorem stratum_nodup (present : stratum ∈ stratify rules relations) : stratum.relations.Nodup := by
  obtain ⟨_, is, -⟩ := (complete_found rules relations).isComponent (stratum_found present).1
  exact is.distinct

theorem stratum_connected (present : stratum ∈ stratify rules relations)
    (left : a ∈ stratum.relations) (right : b ∈ stratum.relations) : Reaches (graph rules) a b := by
  obtain ⟨_, is, -⟩ := (complete_found rules relations).isComponent (stratum_found present).1
  exact is.connected a left b right

theorem mem_stratum_of_mutual (present : stratum ∈ stratify rules relations)
    (left : a ∈ stratum.relations) (there : Reaches (graph rules) a b)
    (back : Reaches (graph rules) b a) : b ∈ stratum.relations :=
  (complete_found rules relations).mem_of_mutual (stratum_found present).1 left there back

theorem exists_stratum_iff :
    (∃ stratum ∈ stratify rules relations, a ∈ stratum.relations) ↔
      ∃ root, relations.has root = true ∧ Reaches (graph rules) root a := by
  have every : (∃ stratum ∈ stratify rules relations, a ∈ stratum.relations) ↔
      a ∈ (found rules relations).flatten := by
    rw [stratify_eq, List.mem_flatten]
    constructor
    · rintro ⟨_, present, inside⟩
      obtain ⟨component, member, rfl⟩ := List.mem_map.mp present
      exact ⟨component, member, inside⟩
    · rintro ⟨component, member, inside⟩
      exact ⟨_, List.mem_map_of_mem member, inside⟩
  rw [every]
  refine ((Search.visitAll_complete (graph rules) relations.toList).2 a).trans ?_
  simp only [NameSet.mem_toList]

theorem stratify_ordered (rules : List Rule) (relations : NameSet) :
    (stratify rules relations).Pairwise fun earlier later =>
      ∀ a ∈ later.relations, ∀ b ∈ earlier.relations, ¬ Reaches (graph rules) a b := by
  rw [stratify_eq, List.pairwise_map]
  exact (complete_found rules relations).ordered

theorem stratum_recursive (present : stratum ∈ stratify rules relations)
    (left : a ∈ stratum.relations) (right : b ∈ stratum.relations)
    (edge : Edge (graph rules) a b) : stratum.recursive = true := by
  rw [(stratum_found present).2]
  match same : stratum.relations with
  | [] => rw [same] at left; cases left
  | [node] =>
    rw [same] at left right
    cases List.mem_singleton.mp left
    cases List.mem_singleton.mp right
    simpa [isRecursive, Edge] using edge
  | first :: second :: rest => simp [isRecursive]

theorem edge_into_recursive (present : stratum ∈ stratify rules relations)
    (recursive : stratum.recursive = true) (member : a ∈ stratum.relations) :
    ∃ b ∈ stratum.relations, Edge (graph rules) b a := by
  by_cases alone : ∃ node, stratum.relations = [node]
  · obtain ⟨node, same⟩ := alone
    rw [same] at member
    cases List.mem_singleton.mp member
    refine ⟨a, by rw [same]; exact List.mem_singleton_self _, ?_⟩
    rw [(stratum_found present).2, same] at recursive
    simpa [isRecursive, Edge] using recursive
  · have other : ∃ c ∈ stratum.relations, c ≠ a := by
      apply Classical.byContradiction
      intro none
      have same : ∀ c ∈ stratum.relations, c = a := fun c inside =>
        Classical.byContradiction fun differ => none ⟨c, inside, differ⟩
      have distinct := stratum_nodup present
      match shape : stratum.relations with
      | [] => rw [shape] at member; cases member
      | [node] => exact alone ⟨node, shape⟩
      | first :: second :: rest =>
        rw [shape] at same distinct
        have one := same first (by simp)
        have two := same second (by simp)
        simp [one, two] at distinct
    obtain ⟨c, inside, differ⟩ := other
    rcases Relation.ReflTransGen.cases_tail (stratum_connected present inside member) with equal | last
    · exact absurd equal.symm differ
    · obtain ⟨middle, path, edge⟩ := last
      have back := stratum_connected present member inside
      exact ⟨middle, mem_stratum_of_mutual present inside path (.head edge back), edge⟩

theorem recursive_iff (present : stratum ∈ stratify rules relations) :
    stratum.recursive = true ↔
      ∃ a ∈ stratum.relations, Relation.TransGen (Edge (graph rules)) a a := by
  constructor
  · intro recursive
    obtain ⟨a, inside⟩ := List.exists_mem_of_ne_nil _ (stratum_inhabited present)
    obtain ⟨b, other, edge⟩ := edge_into_recursive present recursive inside
    exact ⟨a, inside, .tail' (stratum_connected present inside other) edge⟩
  · rintro ⟨a, inside, cycle⟩
    obtain ⟨b, edge, back⟩ := Relation.TransGen.head'_iff.mp cycle
    exact stratum_recursive present inside (mem_stratum_of_mutual present inside (.single edge) back) edge

end Strata

section Specification

variable {rules : List Rule} {relations : NameSet} {a b : String}

def Feeds (rules : List Rule) (a b : String) : Prop :=
  ∃ r ∈ rules, (∃ atom ∈ r.body, atom.relation? = some a) ∧ r.headRelation = b

-- What strata of rules are, from some relations on: the components of all that these lead to, each
-- behind those that it reads.
structure IsStratification (rules : List Rule) (relations : NameSet) (strata : List Stratum) :
    Prop where
  inhabited : ∀ s ∈ strata, s.relations ≠ []
  distinct : ∀ s ∈ strata, s.relations.Nodup
  disjoint : strata.Pairwise fun (s t : Stratum) => ∀ a ∈ s.relations, a ∉ t.relations
  covers : ∀ a, (∃ s ∈ strata, a ∈ s.relations) ↔
    ∃ root, relations.has root = true ∧ Relation.ReflTransGen (Feeds rules) root a
  shares : ∀ s ∈ strata, ∀ a ∈ s.relations, ∀ t ∈ strata, ∀ b ∈ t.relations,
    ((∃ u ∈ strata, a ∈ u.relations ∧ b ∈ u.relations) ↔
      Relation.ReflTransGen (Feeds rules) a b ∧ Relation.ReflTransGen (Feeds rules) b a)
  recursive : ∀ s ∈ strata,
    (s.recursive = true ↔ ∃ a ∈ s.relations, Relation.TransGen (Feeds rules) a a)
  ordered : ∀ r ∈ rules, ∀ atom ∈ r.body, ∀ name, atom.relation? = some name →
    ∀ (i : Nat) (s : Stratum), strata[i]? = some s → name ∈ s.relations →
      ∃ (j : Nat) (t : Stratum), strata[j]? = some t ∧ r.headRelation ∈ t.relations ∧ i ≤ j

theorem feeds_eq (rules : List Rule) : Feeds rules = Edge (graph rules) := by
  funext a b
  simp only [Feeds, edge_graph, List.mem_filterMap]

theorem edge_forward (edge : Edge (graph rules) a b) {i : Nat} {s : Stratum}
    (here : (stratify rules relations)[i]? = some s) (inside : a ∈ s.relations) :
    ∃ (j : Nat) (t : Stratum), (stratify rules relations)[j]? = some t ∧ b ∈ t.relations ∧ i ≤ j := by
  have present := List.mem_of_getElem? here
  obtain ⟨root, given, path⟩ := exists_stratum_iff.mp ⟨s, present, inside⟩
  obtain ⟨t, member, behind⟩ := exists_stratum_iff.mpr ⟨root, given, path.tail edge⟩
  obtain ⟨j, there⟩ := List.mem_iff_getElem?.mp member
  refine ⟨j, t, there, behind, Nat.le_of_not_lt fun before => ?_⟩
  obtain ⟨small, atJ⟩ := List.getElem?_eq_some_iff.mp there
  obtain ⟨large, atI⟩ := List.getElem?_eq_some_iff.mp here
  have apart := List.pairwise_iff_getElem.mp (stratify_ordered rules relations) j i small large before
  rw [atJ, atI] at apart
  exact apart a inside b behind (.single edge)

-- Stratification finds the components of what the given relations lead to, in an order that no rule
-- goes back in.
theorem stratify_exact (rules : List Rule) (relations : NameSet) :
    IsStratification rules relations (stratify rules relations) where
  inhabited _ present := stratum_inhabited present
  distinct _ present := stratum_nodup present
  disjoint := (stratify_ordered rules relations).imp fun apart a left right => apart a right a left .refl
  covers a := by
    rw [feeds_eq]
    exact exists_stratum_iff
  shares s present a left t other b right := by
    rw [feeds_eq]
    constructor
    · rintro ⟨u, both, one, two⟩
      exact ⟨stratum_connected both one two, stratum_connected both two one⟩
    · rintro ⟨there, back⟩
      exact ⟨s, present, left, mem_stratum_of_mutual present left there back⟩
  recursive s present := by
    rw [feeds_eq]
    exact recursive_iff present
  ordered r member atom reads name named i s here inside :=
    edge_forward (edge_graph.mpr ⟨r, member, List.mem_filterMap.mpr ⟨atom, reads, named⟩, rfl⟩) here inside

end Specification

end Stratification

end PeerExchange
