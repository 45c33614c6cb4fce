import Mathlib.Data.Finset.Card
import Mathlib.Data.List.Nodup
import Mathlib.Logic.Relation
import PeerExchange.Proofs.Compiled
import PeerExchange.Proofs.NameMap
import PeerExchange.Unfolding

namespace PeerExchange

namespace Unfolding

variable {isVirtual : String → Bool} {definitions : List Rule} {name other : String}

-- A definition of the first relation reads the second, which is virtual.
def Reads (isVirtual : String → Bool) (definitions : List Rule) (name other : String) : Prop :=
  ∃ d ∈ definitions, d.headRelation = name ∧
    ∃ a ∈ d.body, a.relation? = some other ∧ isVirtual other = true

def Layered (isVirtual : String → Bool) (definitions : List Rule) : Prop :=
  WellFounded fun other name => Reads isVirtual definitions name other

section Dependencies

def next (deps : Dependencies) (name : String) : List String :=
  ((deps.get? name).map NameSet.toList).getD []

theorem mem_next {deps : Dependencies} :
    other ∈ next deps name ↔ ((deps.get? name).getD .empty).has other = true := by
  unfold next
  cases deps.get? name with
  | none => simp [NameSet.has, NameMap.contains]
  | some reads => exact NameSet.mem_toList

theorem contains_of_mem_next {deps : Dependencies} (read : other ∈ next deps name) :
    deps.contains name = true := by
  unfold next at read
  cases found : deps.get? name with
  | none => simp [found] at read
  | some reads => exact NameMap.contains_of_get? found

def addDefinition (isVirtual : String → Bool) (deps : Dependencies) (d : Rule) : Dependencies :=
  deps.insert d.headRelation (((d.body.filterMap Atom.relation?).filter isVirtual).foldl NameSet.add
    ((deps.get? d.headRelation).getD .empty))

theorem mem_next_addDefinition {deps : Dependencies} {d : Rule} :
    other ∈ next (addDefinition isVirtual deps d) name ↔
      Reads isVirtual [d] name other ∨ other ∈ next deps name := by
  rw [mem_next, mem_next, addDefinition, NameMap.get?_insert]
  by_cases same : d.headRelation = name
  · subst same
    simp only [Reads, NameSet.has_foldl_add, List.mem_filter, List.mem_filterMap, List.mem_singleton,
      exists_eq_left, if_true, Option.getD_some, true_and]
    rw [← exists_and_right]
    simp only [and_assoc]
  · simp [Reads, same]

theorem mem_next_foldl {deps : Dependencies} :
    other ∈ next (definitions.foldl (addDefinition isVirtual) deps) name ↔
      Reads isVirtual definitions name other ∨ other ∈ next deps name := by
  induction definitions generalizing deps with
  | nil => simp [Reads]
  | cons d rest ih =>
    rw [List.foldl_cons, ih, mem_next_addDefinition]
    have split : Reads isVirtual (d :: rest) name other ↔
        Reads isVirtual [d] name other ∨ Reads isVirtual rest name other := by simp [Reads]
    rw [split]
    tauto

theorem mem_next_dependencies :
    other ∈ next (dependencies isVirtual definitions) name ↔
      Reads isVirtual definitions name other :=
  mem_next_foldl.trans (or_iff_left (by simp [next]))

end Dependencies

section Search

variable {deps : Dependencies} {depth : Nat} {path done done' : List String} {node : String}

-- What the search below a relation may rely on: it has room for every path of different
-- relations, and what is found and not on the path starts no endless path.
structure Clearing (deps : Dependencies) (depth : Nat) (path done : List String) : Prop where
  room : deps.keys.length + 2 ≤ depth + path.length
  distinct : path.Nodup
  known : ∀ n ∈ path, deps.contains n = true
  ended : ∀ n ∈ done, n ∉ path → Acc (fun other name => other ∈ next deps name) n

namespace Clearing

theorem path_length_le (clearing : Clearing deps depth path done) :
    path.length ≤ deps.keys.length :=
  (clearing.distinct.subperm fun n member => NameMap.mem_keys.mpr (clearing.known n member)).length_le

theorem descend (clearing : Clearing deps (depth + 1) path done) (off : node ∉ path)
    (known : deps.contains node = true) :
    Clearing deps depth (path ++ [node]) (node :: done) where
  room := by
    have room := clearing.room
    rw [List.length_append, List.length_singleton]
    omega
  distinct := by
    rw [List.nodup_append]
    refine ⟨clearing.distinct, List.nodup_singleton _, ?_⟩
    rintro n member _ here rfl
    exact off (List.mem_singleton.mp here ▸ member)
  known := by
    intro n member
    rcases List.mem_append.mp member with before | here
    · exact clearing.known n before
    · rwa [List.mem_singleton.mp here]
  ended := by
    intro n member outside
    rw [List.mem_append, not_or] at outside
    rcases List.mem_cons.mp member with rfl | earlier
    · exact absurd (List.mem_singleton_self n) outside.2
    · exact clearing.ended n earlier outside.1

end Clearing

-- The search below a relation succeeds only when no path from it closes.
structure Cleared (deps : Dependencies) (depth : Nat) (path done : List String) (node : String)
    (done' : List String) : Prop where
  found : node ∈ done'
  off : node ∉ path
  grown : done ⊆ done'
  clearing : Clearing deps depth path done'

theorem foldlM_clear {nodes : List String}
    (each : ∀ {done node done'}, clear deps depth path done node = .ok done' →
      Clearing deps depth path done → Cleared deps depth path done node done')
    (ran : nodes.foldlM (clear deps depth path) done = .ok done')
    (clearing : Clearing deps depth path done) :
    (∀ n ∈ nodes, n ∈ done' ∧ n ∉ path) ∧ done ⊆ done' ∧ Clearing deps depth path done' := by
  induction nodes generalizing done with
  | nil =>
    cases ran
    exact ⟨nofun, fun _ member => member, clearing⟩
  | cons first rest ih =>
    rw [List.foldlM_cons] at ran
    cases step : clear deps depth path done first with
    | error cycle =>
      rw [step] at ran
      cases ran
    | ok middle =>
      rw [step] at ran
      have here := each step clearing
      obtain ⟨others, grown, after⟩ := ih ran here.clearing
      exact ⟨List.forall_mem_cons.mpr ⟨⟨grown here.found, here.off⟩, others⟩,
        fun _ member => grown (here.grown member), after⟩

theorem clear_cleared (ran : clear deps depth path done node = .ok done')
    (clearing : Clearing deps depth path done) : Cleared deps depth path done node done' := by
  induction depth generalizing path done node done' with
  | zero =>
    have room := clearing.room
    have short := clearing.path_length_le
    omega
  | succ depth ih =>
    unfold clear at ran
    split at ran
    · cases ran
    rename_i off
    have off : node ∉ path := by simpa using off
    split at ran
    · rename_i seen
      cases ran
      exact ⟨by simpa using seen, off, fun _ member => member, clearing⟩
    change (next deps node).foldlM (clear deps depth (path ++ [node])) (node :: done) = .ok done'
      at ran
    by_cases known : deps.contains node = true
    · obtain ⟨reads, grown, after⟩ := foldlM_clear ih ran (clearing.descend off known)
      have below : ∀ n ∈ done', n ∉ path → Acc (fun other name => other ∈ next deps name) n := by
        intro n member outside
        by_cases here : n = node
        · subst here
          exact .intro n fun m read => after.ended m (reads m read).1 (reads m read).2
        · exact after.ended n member (by simp [outside, here])
      exact ⟨grown List.mem_cons_self, off, fun _ member => grown (List.mem_cons_of_mem _ member),
        { clearing with ended := below }⟩
    · -- A relation without definitions reads nothing.
      have leaf : ∀ m, m ∉ next deps node := fun m read => known (contains_of_mem_next read)
      rw [List.eq_nil_iff_forall_not_mem.mpr leaf] at ran
      cases ran
      refine ⟨List.mem_cons_self, off, fun _ => List.mem_cons_of_mem _, { clearing with ended := ?_ }⟩
      intro n member outside
      rcases List.mem_cons.mp member with rfl | earlier
      · exact .intro n fun m read => absurd read (leaf m)
      · exact clearing.ended n earlier outside

theorem checkCycles_acyclic {found : List String} (ran : checkCycles deps = .ok found) :
    WellFounded fun other name => other ∈ next deps name := by
  have start : Clearing deps (deps.keys.length + 2) [] [] := ⟨by simp, .nil, nofun, nofun⟩
  obtain ⟨reads, -, after⟩ := foldlM_clear clear_cleared ran start
  refine ⟨fun name => ?_⟩
  by_cases known : deps.contains name = true
  · exact after.ended name (reads name (NameMap.mem_keys.mpr known)).1 List.not_mem_nil
  · exact .intro name fun _ read => absurd (contains_of_mem_next read) known

end Search

theorem layered_of_check {catalog : Catalog} {rules : List Rule}
    (accepted : check catalog rules = .ok ()) :
    Layered catalog.isVirtual (definitionsOf catalog rules) := by
  obtain ⟨-, -, ran⟩ := Compiled.bind_ok.mp accepted
  split at ran
  · rename_i found searched
    simpa only [mem_next_dependencies, Layered] using checkCycles_acyclic searched
  · cases ran

section Levels

open Classical

noncomputable def level (isVirtual : String → Bool) (definitions : List Rule) (name : String) : Nat :=
  ((definitions.map Rule.headRelation).toFinset.filter fun other =>
    Relation.ReflTransGen (Reads isVirtual definitions) name other).card

theorem level_le : level isVirtual definitions name ≤ definitions.length := by
  calc level isVirtual definitions name
      ≤ (definitions.map Rule.headRelation).toFinset.card := Finset.card_filter_le _ _
    _ ≤ (definitions.map Rule.headRelation).length := List.toFinset_card_le _
    _ = definitions.length := List.length_map _

theorem level_pos {d : Rule} (member : d ∈ definitions) (defined : d.headRelation = name) :
    0 < level isVirtual definitions name := by
  refine Finset.card_pos.mpr ⟨name, Finset.mem_filter.mpr ⟨?_, .refl⟩⟩
  exact List.mem_toFinset.mpr (List.mem_map.mpr ⟨d, member, defined⟩)

theorem Layered.not_transGen (layered : Layered isVirtual definitions) :
    ¬ Relation.TransGen (Reads isVirtual definitions) name name := fun round =>
  layered.transGen.asymmetric name name (Relation.transGen_swap.mpr round) (Relation.transGen_swap.mpr round)

theorem Layered.level_lt (layered : Layered isVirtual definitions)
    (read : Reads isVirtual definitions name other) :
    level isVirtual definitions other < level isVirtual definitions name := by
  have defined : name ∈ (definitions.map Rule.headRelation).toFinset := by
    obtain ⟨d, member, same, -⟩ := read
    exact List.mem_toFinset.mpr (List.mem_map.mpr ⟨d, member, same⟩)
  apply Finset.card_lt_card
  refine (Finset.ssubset_iff_of_subset ?_).mpr ⟨name, ?_, ?_⟩
  · intro below reached
    rw [Finset.mem_filter] at reached ⊢
    exact ⟨reached.1, .head read reached.2⟩
  · exact Finset.mem_filter.mpr ⟨defined, .refl⟩
  · intro reached
    exact layered.not_transGen (.head' read (Finset.mem_filter.mp reached).2)

end Levels

end Unfolding

end PeerExchange
