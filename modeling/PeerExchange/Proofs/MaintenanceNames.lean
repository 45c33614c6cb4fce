import PeerExchange.Proofs.Exactness

namespace PeerExchange

namespace Maintenance

variable {x : Exchange} {catalog marked : Catalog} {program : Maintenance} {rule r : Rule} {a : Atom}
  {name : String}

-- The rules of one cycle and those that reset it.
def allRules (m : Maintenance) : List Rule := m.rules ++ m.reset

def Mentions (r : Rule) (name : String) : Prop := ∃ a ∈ r.head ++ r.body, a.relation? = some name

section Rules

variable {d : Direction} {scc : List String} {recursive : Bool}

theorem mem_changeRules
    (member : rule ∈ (changeRules d scc recursive r).1 ∨ rule ∈ (changeRules d scc recursive r).2) :
    ∃ head i b, r.head? = some head ∧ b ∈ r.body ∧ b.isPositive = true ∧
      rule = (changeRule d r head scc recursive i b).1 := by
  unfold changeRules at member
  split at member
  · rcases member with inside | inside <;> cases inside
  · rename_i head first
    simp only [List.mem_map, List.mem_filter] at member
    rcases member with ⟨_, ⟨⟨⟨i, b⟩, ⟨inside, positive⟩, rfl⟩, -⟩, rfl⟩ |
      ⟨_, ⟨⟨⟨i, b⟩, ⟨inside, positive⟩, rfl⟩, -⟩, rfl⟩
    all_goals
      obtain ⟨j, bound, same⟩ := List.mem_mapIdx.mp inside
      cases same
      exact ⟨head, _, _, first, List.getElem_mem bound, positive, rfl⟩

theorem mentions_changeRules
    (member : rule ∈ (changeRules d scc recursive r).1 ∨ rule ∈ (changeRules d scc recursive r).2)
    (mentions : Mentions rule name) :
    r.headRelation = name ∨ ∃ b ∈ r.body, b.relation? = some name := by
  obtain ⟨head, i, b, first, joined, -, rfl⟩ := mem_changeRules member
  obtain ⟨a, inside, named⟩ := mentions
  rcases List.mem_append.mp inside with heads | inside
  · cases List.mem_singleton.mp heads
    exact .inl (Rule.headRelation_of_head first named)
  · rcases List.mem_append.mp inside with changed | excluded
    · rcases List.mem_or_eq_of_mem_set changed with old | rfl
      · exact .inr ⟨a, old, named⟩
      · exact .inr ⟨b, joined, named⟩
    · obtain ⟨-, same, -⟩ := mem_exclusion excluded
      rw [Atom.relation?, same] at named
      exact .inl (Rule.headRelation_of_head first named)

theorem mentions_rederiveRule (mentions : Mentions (rederiveRule r) name) :
    r.headRelation = name ∨ ∃ b ∈ r.body, b.relation? = some name := by
  obtain ⟨a, inside, named⟩ := mentions
  rcases List.mem_append.mp inside with heads | inside
  · cases List.mem_singleton.mp heads
    cases first : r.head? with
    | none =>
      rw [first] at named
      cases named
      exact .inl (by rw [Rule.headRelation, first]; rfl)
    | some head =>
      rw [first] at named
      exact .inl (Rule.headRelation_of_head first named)
  · rcases List.mem_append.mp inside with old | remaining
    · exact .inr ⟨a, old, named⟩
    · obtain ⟨b, joined, rfl⟩ := List.mem_map.mp remaining
      exact .inr ⟨b, List.mem_of_mem_filter joined, named⟩

theorem mentions_tableRule {relation : Relation} {own suffix : String} {action : Action}
    {head body : TableKind} (mentions : Mentions (tableRule relation own suffix action head body) name) :
    own = name := by
  obtain ⟨a, inside, named⟩ := mentions
  rcases List.mem_append.mp inside with heads | inside
  · cases List.mem_singleton.mp heads
    exact Option.some.inj named
  · cases List.mem_singleton.mp inside
    exact Option.some.inj named

end Rules

theorem mem_reset {s : Stratum} {index : Nat} {part : StratumProgram} {rules : List Rule}
    (made : stratumProgram catalog x.edb rules index s = .ok part) :
    rule ∈ part.reset ↔ ∃ own ∈ s.relations, x.edb.has own = true ∧
      ∃ relation, catalog.relations.get? own = some relation ∧ rule = resetRule relation own := by
  obtain ⟨relations, resolved, made⟩ := Compiled.bind_ok.mp made
  cases made
  have each := Compiled.forall₂_of_mapM resolved
  constructor
  · intro member
    obtain ⟨entry, edited, rfl⟩ := List.mem_map.mp member
    obtain ⟨inside, edits⟩ := List.mem_filter.mp edited
    obtain ⟨own, listed, found⟩ := Compiled.forall₂_source each inside
    obtain ⟨rfl, got⟩ := resolvedEntry_ok found
    exact ⟨entry.1, listed, edits, entry.2, got, rfl⟩
  · rintro ⟨own, listed, edits, relation, got, rfl⟩
    obtain ⟨entry, inside, found⟩ := Compiled.forall₂_result each listed
    obtain ⟨rfl, found⟩ := resolvedEntry_ok found
    cases got.symm.trans found
    exact List.mem_map.mpr ⟨entry, List.mem_filter.mpr ⟨inside, edits⟩, rfl⟩

def NamedBy (x : Exchange) (s : Stratum) (name : String) : Prop :=
  name ∈ s.relations ∨
    ∃ r ∈ x.rules, r.headRelation ∈ s.relations ∧ ∃ b ∈ r.body, b.relation? = some name

theorem namedBy_of_own {s : Stratum} {recursive : List String}
    (own : r ∈ ownRules (markedRules x.rules recursive) s)
    (mentions : r.headRelation = name ∨ ∃ b ∈ r.body, b.relation? = some name) : NamedBy x s name := by
  obtain ⟨marked, inside⟩ := mem_ownRules.mp own
  obtain ⟨given, member, rfl⟩ := List.mem_map.mp marked
  rcases mentions with rfl | reads
  · exact .inl inside
  · exact .inr ⟨given, member, inside, reads⟩

-- The relations that a part of the program names are those of its stratum and those that rules
-- into it read.
theorem part_names {s : Stratum} {index : Nat} {part : StratumProgram} {recursive : List String}
    (made : stratumProgram catalog x.edb (markedRules x.rules recursive) index s = .ok part) :
    (∃ rule, (rule ∈ part.deletion.seed ++ part.deletion.iterate ++ part.deletion.rederive ∨
      rule ∈ part.apply ∨
      rule ∈ part.insertion.seed ++ part.insertion.iterate ++ part.insertion.merge ∨
      rule ∈ part.reset) ∧ Mentions rule name) ↔ NamedBy x s name := by
  obtain ⟨relations, resolved, deletion, insertion, applied⟩ := stratumProgram_parts made
  have changes {d : Direction} {rule : Rule} (mentions : Mentions rule name)
      (changed : rule ∈ ((ownRules (markedRules x.rules recursive) s).map
          (changeRules d s.relations s.recursive)).flatMap Prod.fst ∨
        rule ∈ ((ownRules (markedRules x.rules recursive) s).map
          (changeRules d s.relations s.recursive)).flatMap Prod.snd) : NamedBy x s name := by
    simp only [List.flatMap_map, List.mem_flatMap] at changed
    rcases changed with ⟨r, own, changed⟩ | ⟨r, own, changed⟩
    · exact namedBy_of_own own (mentions_changeRules (.inl changed) mentions)
    · exact namedBy_of_own own (mentions_changeRules (.inr changed) mentions)
  have tables {entry : String × Relation} (known : entry ∈ relations) (same : entry.1 = name) :
      NamedBy x s name := .inl (same ▸ (resolved.known entry known).1)
  constructor
  · rintro ⟨rule, member, mentions⟩
    rw [deletion, applied, insertion] at member
    simp only [deletionStratum, insertionStratum, List.mem_append] at member
    rcases member with ((changed | changed) | again) | apply |
      (((changed | pruned) | changed) | merged) | again
    · exact changes mentions (.inl changed)
    · exact changes mentions (.inr changed)
    · obtain ⟨r, own, rfl⟩ := List.mem_map.mp again
      exact namedBy_of_own own (mentions_rederiveRule mentions)
    · obtain ⟨entry, known, rfl⟩ := List.mem_map.mp apply
      exact tables known (mentions_tableRule mentions)
    · exact changes mentions (.inl changed)
    · obtain ⟨entry, known, rfl⟩ := List.mem_map.mp pruned
      exact tables (List.mem_of_mem_filter known) (mentions_tableRule mentions)
    · exact changes mentions (.inr changed)
    · obtain ⟨entry, known, rfl⟩ := List.mem_map.mp merged
      have plain : Mentions (tableRule entry.2 entry.1 "_merge" .derive .base .insertion) name := by
        unfold mergeRule at mentions
        split at mentions <;> exact mentions
      exact tables known (mentions_tableRule plain)
    · obtain ⟨own, inside, -, relation, -, rfl⟩ := (mem_reset made).mp again
      exact .inl (mentions_tableRule mentions ▸ inside)
  · rintro (inside | ⟨r, member, inside, b, reads, named⟩)
    · obtain ⟨relation, known⟩ := resolved.complete name inside
      refine ⟨applyRule relation name, .inr (.inl ?_), _, List.mem_append_left _ (List.mem_singleton_self _),
        rfl⟩
      rw [applied]
      exact List.mem_map.mpr ⟨(name, relation), known, rfl⟩
    · let own := { r with stratified := recursive.contains r.headRelation }
      refine ⟨rederiveRule own, .inl (List.mem_append_right _ ?_), b,
        List.mem_append_right _ (List.mem_append_left _ reads), named⟩
      rw [deletion]
      refine List.mem_map_of_mem (mem_ownRules.mpr ⟨List.mem_map_of_mem member, inside⟩)

theorem mem_allRules {parts : List StratumProgram} {relations : List String} :
    rule ∈ allRules {
      deletion := parts.map StratumProgram.deletion
      apply := parts.flatMap StratumProgram.apply
      insertion := parts.map StratumProgram.insertion
      reset := parts.flatMap StratumProgram.reset
      relations := relations } ↔
      ∃ part ∈ parts, rule ∈ part.deletion.seed ++ part.deletion.iterate ++ part.deletion.rederive ∨
        rule ∈ part.apply ∨
        rule ∈ part.insertion.seed ++ part.insertion.iterate ++ part.insertion.merge ∨
        rule ∈ part.reset := by
  unfold allRules rules
  rw [List.mem_append, List.mem_append, List.mem_append, List.flatMap_map, List.flatMap_map,
    List.mem_flatMap, List.mem_flatMap, List.mem_flatMap, List.mem_flatMap]
  constructor
  · rintro (((⟨part, listed, inside⟩ | ⟨part, listed, inside⟩) | ⟨part, listed, inside⟩) |
      ⟨part, listed, inside⟩)
    · exact ⟨part, listed, .inl inside⟩
    · exact ⟨part, listed, .inr (.inl inside)⟩
    · exact ⟨part, listed, .inr (.inr (.inl inside))⟩
    · exact ⟨part, listed, .inr (.inr (.inr inside))⟩
  · rintro ⟨part, listed, inside | inside | inside | inside⟩
    · exact .inl (.inl (.inl ⟨part, listed, inside⟩))
    · exact .inl (.inl (.inr ⟨part, listed, inside⟩))
    · exact .inl (.inr ⟨part, listed, inside⟩)
    · exact .inr ⟨part, listed, inside⟩

theorem named_iff (built : build x catalog = (marked, .ok program)) :
    (∃ rule ∈ program.allRules, Mentions rule name) ↔ ∃ s ∈ strataOf x, NamedBy x s name := by
  obtain ⟨-, -, parts, each, rfl⟩ := build_made built
  constructor
  · rintro ⟨rule, member, mentions⟩
    obtain ⟨part, listed, inside⟩ := mem_allRules.mp member
    obtain ⟨s, present, index, made⟩ := Compiled.forall₂_source each listed
    exact ⟨s, present, (part_names made).mp ⟨rule, inside, mentions⟩⟩
  · rintro ⟨s, present, names⟩
    obtain ⟨part, listed, index, made⟩ := Compiled.forall₂_result each present
    obtain ⟨rule, inside, mentions⟩ := (part_names made).mpr names
    exact ⟨rule, mem_allRules.mpr ⟨part, listed, inside⟩, mentions⟩

end Maintenance

end PeerExchange
