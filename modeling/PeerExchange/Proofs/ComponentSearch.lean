import Mathlib.Logic.Relation
import PeerExchange.Proofs.NameMap
import PeerExchange.Stratification

namespace PeerExchange

theorem mem_distinctNames {name : String} {names : List String} :
    name ∈ distinctNames names ↔ name ∈ names := by
  induction names with
  | nil => simp [distinctNames]
  | cons first rest ih =>
    by_cases same : name = first
    · simp [distinctNames, same]
    · simp [distinctNames, same, ih]

theorem NameMap.nodup_keys {α : Type} (m : NameMap α) : m.keys.Nodup := by
  refine List.pairwise_map.mpr (m.sorted.imp ?_)
  intro a b below same
  rw [same] at below
  exact String.lt_irrefl _ below

namespace Stratification

def Edge (g : Graph) (source target : String) : Prop := target ∈ successors g source

abbrev Reaches (g : Graph) : String → String → Prop := Relation.ReflTransGen (Edge g)

theorem edge_iff {g : Graph} {source target : String} :
    Edge g source target ↔ ((g.get? source).getD .empty).has target = true := by
  unfold Edge successors
  cases g.get? source with
  | none => simp [NameSet.has, NameMap.contains]
  | some targets => simpa using NameSet.mem_toList

theorem edge_addEdge {g : Graph} {source target a b : String} :
    Edge (addEdge g source target) a b ↔ (source = a ∧ target = b) ∨ Edge g a b := by
  rw [edge_iff, edge_iff, addEdge, NameMap.get?_insert]
  by_cases same : source = a
  · subst same
    simpa using NameSet.has_add
  · simp [same]

theorem edge_addEdges {sources : List String} {g : Graph} {target a b : String} :
    Edge (sources.foldl (fun g source => addEdge g source target) g) a b ↔
      (a ∈ sources ∧ target = b) ∨ Edge g a b := by
  induction sources generalizing g with
  | nil => simp
  | cons first rest ih =>
    rw [List.foldl_cons, ih, edge_addEdge, List.mem_cons]
    constructor
    · rintro (⟨later, same⟩ | ⟨here, same⟩ | old)
      · exact .inl ⟨.inr later, same⟩
      · exact .inl ⟨.inl here.symm, same⟩
      · exact .inr old
    · rintro (⟨here | later, same⟩ | old)
      · exact .inr (.inl ⟨here.symm, same⟩)
      · exact .inl ⟨later, same⟩
      · exact .inr (.inr old)

theorem edge_foldl {rules : List Rule} {g : Graph} {a b : String} :
    Edge (rules.foldl (fun g r =>
      (r.body.filterMap Atom.relation?).foldl (fun g source => addEdge g source r.headRelation) g)
      g) a b ↔
      (∃ r ∈ rules, a ∈ r.body.filterMap Atom.relation? ∧ r.headRelation = b) ∨ Edge g a b := by
  induction rules generalizing g with
  | nil => simp
  | cons first rest ih =>
    rw [List.foldl_cons, ih, edge_addEdges]
    constructor
    · rintro (⟨r, later, reads⟩ | here | old)
      · exact .inl ⟨r, List.mem_cons_of_mem _ later, reads⟩
      · exact .inl ⟨first, List.mem_cons_self, here⟩
      · exact .inr old
    · rintro (⟨r, present, reads⟩ | old)
      · rcases List.mem_cons.mp present with rfl | later
        · exact .inr (.inl reads)
        · exact .inl ⟨r, later, reads⟩
      · exact .inr (.inr old)

theorem edge_graph {rules : List Rule} {a b : String} :
    Edge (graph rules) a b ↔
      ∃ r ∈ rules, a ∈ r.body.filterMap Atom.relation? ∧ r.headRelation = b := by
  rw [graph, edge_foldl]
  refine or_iff_left ?_
  rw [edge_iff]
  simp [NameSet.has, NameMap.contains]

theorem mem_nodes_of_mem {g : Graph} {names : List String} {name : String} (given : name ∈ names) :
    name ∈ nodes g names := by
  rw [nodes, NameSet.mem_toList, NameSet.has_ofNames]
  simp [given]

theorem mem_nodes_of_edge {g : Graph} {names : List String} {a b : String} (edge : Edge g a b) :
    b ∈ nodes g names := by
  rw [nodes, NameSet.mem_toList, NameSet.has_ofNames, List.mem_append]
  right
  unfold Edge successors at edge
  cases found : g.get? a with
  | none => simp [found] at edge
  | some targets =>
    have value : targets ∈ g.values := NameMap.mem_values.mpr ⟨a, found⟩
    exact List.mem_flatMap.mpr ⟨targets, value, by simpa [found] using edge⟩

namespace Search

variable {g : Graph} {s t : Search} {node a b : String}

def size (s : Search) : Nat := s.index.entries.length

section Fields

theorem isMet_enter : (s.enter node).isMet a = true ↔ node = a ∨ s.isMet a = true :=
  NameMap.contains_insert

theorem indexOf_enter_self : (s.enter node).indexOf node = s.size := by
  simp [indexOf, enter, size]

theorem indexOf_enter (differ : node ≠ a) : (s.enter node).indexOf a = s.indexOf a := by
  simp [indexOf, enter, differ]

theorem lowOf_enter_self : (s.enter node).lowOf node = s.size := by
  simp [lowOf, enter, size]

theorem lowOf_enter (differ : node ≠ a) : (s.enter node).lowOf a = s.lowOf a := by
  simp [lowOf, enter, differ]

theorem size_enter (new : ¬ s.isMet node = true) : (s.enter node).size = s.size + 1 :=
  NameMap.length_insert (by simpa [isMet] using new)

theorem lowOf_lower_self {n : Nat} : (s.lower node n).lowOf node = min n (s.lowOf node) := by
  simp [lowOf, lower]

theorem lowOf_lower {n : Nat} (differ : node ≠ a) : (s.lower node n).lowOf a = s.lowOf a := by
  simp [lowOf, lower, differ]

theorem close_fields :
    (s.close node).index = s.index ∧ (s.close node).low = s.low := by
  unfold close
  split <;> exact ⟨rfl, rfl⟩

@[simp] theorem isMet_close : (s.close node).isMet a = s.isMet a := by
  rw [isMet, isMet, close_fields.1]

@[simp] theorem indexOf_close : (s.close node).indexOf a = s.indexOf a := by
  rw [indexOf, indexOf, close_fields.1]

@[simp] theorem lowOf_close : (s.close node).lowOf a = s.lowOf a := by
  rw [lowOf, lowOf, close_fields.2]

@[simp] theorem size_close : (s.close node).size = s.size := by
  rw [size, size, close_fields.1]

theorem popThrough_append {added rest : List String} (outside : node ∉ added) :
    popThrough node (added ++ node :: rest) = (added ++ [node], rest) := by
  induction added with
  | nil => simp [popThrough]
  | cons first more ih =>
    have differ : first ≠ node := (List.ne_of_not_mem_cons outside).symm
    rw [List.cons_append, popThrough, if_neg differ, ih (List.not_mem_of_not_mem_cons outside)]
    rfl

end Fields

-- Each name of a complete component leads to each other, and what leads out of it leads into one that
-- was complete before.
structure IsComponent (g : Graph) (before : List (List String)) (component : List String) : Prop where
  inhabited : component ≠ []
  distinct : component.Nodup
  connected : ∀ a ∈ component, ∀ b ∈ component, Reaches g a b
  apart : ∀ a ∈ component, a ∉ before.flatten
  closed : ∀ a ∈ component, ∀ b, Edge g a b → b ∈ component ∨ b ∈ before.flatten

def Complete (g : Graph) : List (List String) → Prop
  | [] => True
  | component :: before => IsComponent g before component ∧ Complete g before

-- The search stands somewhere behind each node of a path. All steps from other nodes that were met are
-- followed.
structure Valid (g : Graph) (path : List String) (s : Search) : Prop where
  numbered : ∀ a, s.isMet a = true → s.indexOf a < s.size
  ordered : s.stack.Pairwise fun later earlier => s.indexOf earlier < s.indexOf later
  leads : s.stack.Pairwise fun later earlier => Reaches g earlier later
  onPath : ∀ a ∈ path, a ∈ s.stack
  returns : ∀ a ∈ s.stack, ∃ b ∈ path, s.indexOf b ≤ s.indexOf a ∧ Reaches g a b
  met : ∀ a, s.isMet a = true ↔ a ∈ s.stack ∨ a ∈ s.components.flatten
  apart : ∀ a ∈ s.stack, a ∉ s.components.flatten
  followed : ∀ a, s.isMet a = true → a ∉ path → ∀ b, Edge g a b → s.isMet b = true
  complete : Complete g s.components

-- What was met stays met, under its number and with what is known of it.
structure Keeps (s t : Search) : Prop where
  met : ∀ a, s.isMet a = true → t.isMet a = true
  index : ∀ a, s.isMet a = true → t.indexOf a = s.indexOf a
  low : ∀ a, s.isMet a = true → t.lowOf a = s.lowOf a

def LeadsTo (g : Graph) (s : Search) (node : String) (low : Nat) : Prop :=
  low = s.size ∨ ∃ a ∈ s.stack, Reaches g node a ∧ low = s.indexOf a

-- The search behind a node that was not met before it, with some of its steps followed.
structure Following (g : Graph) (path : List String) (node : String) (s : Search)
    (seen : List String) (t : Search) : Prop where
  valid : Valid g (node :: path) t
  keeps : Keeps s t
  number : t.indexOf node = s.size
  stack : ∃ added, t.stack = added ++ node :: s.stack ∧
    ∀ a ∈ added, ∀ b ∈ s.stack, Edge g a b → t.lowOf node ≤ s.indexOf b
  bounded : t.lowOf node ≤ s.size
  low : LeadsTo g s node (t.lowOf node)
  seen : ∀ b ∈ seen, t.isMet b = true ∧ (b ∈ s.stack → t.lowOf node ≤ s.indexOf b)
  reached : ∀ a, t.isMet a = true → s.isMet a = true ∨ Reaches g node a

-- The search after a node that was not met before it, with all that is behind it.
structure Visited (g : Graph) (path : List String) (node : String) (s t : Search) : Prop where
  valid : Valid g path t
  keeps : Keeps s t
  met : t.isMet node = true
  stack : ∃ added, t.stack = added ++ s.stack ∧
    ∀ a ∈ added, ∀ b ∈ s.stack, Edge g a b → t.lowOf node ≤ s.indexOf b
  low : LeadsTo g s node (t.lowOf node)
  reached : ∀ a, t.isMet a = true → s.isMet a = true ∨ Reaches g node a

section Complete

variable {components before : List (List String)} {component : List String}

theorem Complete.step (complete : Complete g components) (inside : a ∈ components.flatten)
    (edge : Edge g a b) : b ∈ components.flatten := by
  induction components with
  | nil => exact absurd inside List.not_mem_nil
  | cons component before ih =>
    rw [List.flatten_cons] at inside ⊢
    rcases List.mem_append.mp inside with here | earlier
    · exact List.mem_append.mpr (complete.1.closed a here b edge)
    · exact List.mem_append_right _ (ih complete.2 earlier)

theorem Complete.reaches (complete : Complete g components) (inside : a ∈ components.flatten)
    (path : Reaches g a b) : b ∈ components.flatten := by
  induction path with
  | refl => exact inside
  | tail _ edge ih => exact complete.step ih edge

end Complete

section Stack

variable {path : List String}

theorem Valid.met_of_stack (valid : Valid g path s) (open_ : a ∈ s.stack) : s.isMet a = true :=
  (valid.met a).mpr (.inl open_)

theorem Valid.below_size (valid : Valid g path s) (open_ : a ∈ s.stack) : s.indexOf a < s.size :=
  valid.numbered a (valid.met_of_stack open_)

theorem Valid.nodup (valid : Valid g path s) : s.stack.Nodup :=
  valid.ordered.imp fun less same => absurd (same ▸ less) (Nat.lt_irrefl _)

theorem Valid.onward (valid : Valid g path s) (waiting : ∀ a ∈ path, Reaches g a node)
    (open_ : a ∈ s.stack) : Reaches g a node := by
  obtain ⟨b, inPath, -, there⟩ := valid.returns a open_
  exact there.trans (waiting b inPath)

theorem following_enter (valid : Valid g path s) (new : ¬ s.isMet node = true)
    (waiting : ∀ a ∈ path, Reaches g a node) : Following g path node s [] (s.enter node) := by
  have differ {a : String} (met : s.isMet a = true) : node ≠ a := by
    rintro rfl
    exact new met
  have index {a : String} (met : s.isMet a = true) : (s.enter node).indexOf a = s.indexOf a :=
    indexOf_enter (differ met)
  have old {a : String} (open_ : a ∈ s.stack) : (s.enter node).indexOf a = s.indexOf a :=
    index (valid.met_of_stack open_)
  refine ⟨?_, ⟨fun a met => isMet_enter.mpr (.inr met), fun a met => index met,
    fun a met => lowOf_enter (differ met)⟩, indexOf_enter_self, ⟨[], rfl, List.forall_mem_nil _⟩, ?_, ?_,
    List.forall_mem_nil _, ?_⟩
  · constructor
    · intro a met
      rw [size_enter new]
      rcases isMet_enter.mp met with rfl | met
      · rw [indexOf_enter_self]
        exact Nat.lt_succ_self _
      · rw [index met]
        exact Nat.lt_succ_of_lt (valid.numbered a met)
    · refine List.pairwise_cons.mpr ⟨fun a open_ => ?_, valid.ordered.imp_of_mem ?_⟩
      · rw [old open_, indexOf_enter_self]
        exact valid.below_size open_
      · intro later earlier here there less
        rwa [old here, old there]
    · exact List.pairwise_cons.mpr ⟨fun a open_ => valid.onward waiting open_, valid.leads⟩
    · exact List.forall_mem_cons.mpr ⟨List.mem_cons_self,
        fun a inPath => List.mem_cons_of_mem _ (valid.onPath a inPath)⟩
    · refine List.forall_mem_cons.mpr ⟨⟨node, List.mem_cons_self, Nat.le_refl _, .refl⟩, ?_⟩
      intro a open_
      obtain ⟨b, inPath, less, there⟩ := valid.returns a open_
      refine ⟨b, List.mem_cons_of_mem _ inPath, ?_, there⟩
      rwa [old open_, old (valid.onPath b inPath)]
    · intro a
      rw [isMet_enter, valid.met, show (s.enter node).stack = node :: s.stack from rfl, List.mem_cons,
        or_assoc, eq_comm]
      rfl
    · refine List.forall_mem_cons.mpr ⟨fun inside => new ((valid.met node).mpr (.inr inside)), ?_⟩
      exact valid.apart
    · intro a met outside b edge
      have met := (isMet_enter.mp met).resolve_left (List.ne_of_not_mem_cons outside).symm
      exact isMet_enter.mpr
        (.inr (valid.followed a met (List.not_mem_of_not_mem_cons outside) b edge))
    · exact valid.complete
  · exact Nat.le_of_eq lowOf_enter_self
  · exact .inl lowOf_enter_self
  · intro a met
    rcases isMet_enter.mp met with rfl | met
    · exact .inr .refl
    · exact .inl met

end Stack

section Follow

variable {path seen : List String} {next : String} {u : Search}

theorem Valid.lower (valid : Valid g path s) (node : String) (n : Nat) :
    Valid g path (s.lower node n) where
  numbered := valid.numbered
  ordered := valid.ordered
  leads := valid.leads
  onPath := valid.onPath
  returns := valid.returns
  met := valid.met
  apart := valid.apart
  followed := valid.followed
  complete := valid.complete

theorem LeadsTo.min {low n : Nat} (leads : LeadsTo g s node low) (bounded : low ≤ s.size)
    (other : s.size ≤ n ∨ ∃ a ∈ s.stack, Reaches g node a ∧ n = s.indexOf a) :
    LeadsTo g s node (min n low) := by
  rcases Nat.le_total low n with less | less
  · rwa [Nat.min_eq_right less]
  · rw [Nat.min_eq_left less]
    rcases other with large | there
    · exact .inl (Nat.le_antisymm (Nat.le_trans less bounded) large)
    · exact .inr there

namespace Following

variable (following : Following g path node s seen t)

include following

theorem node_open : node ∈ t.stack := following.valid.onPath node List.mem_cons_self

theorem size_lt : s.size < t.size := by
  rw [← following.number]
  exact following.valid.below_size following.node_open

theorem open_kept (open_ : a ∈ s.stack) : a ∈ t.stack := by
  obtain ⟨added, same, -⟩ := following.stack
  rw [same]
  exact List.mem_append_right _ (List.mem_cons_of_mem _ open_)

theorem above (open_ : a ∈ t.stack) : a ∈ s.stack ∨ s.size ≤ t.indexOf a := by
  obtain ⟨added, same, -⟩ := following.stack
  have ordered := following.valid.ordered
  rw [same] at open_ ordered
  rcases List.mem_append.mp open_ with new | old
  · right
    rw [← following.number]
    exact Nat.le_of_lt ((List.pairwise_append.mp ordered).2.2 a new node List.mem_cons_self)
  · rcases List.mem_cons.mp old with rfl | old
    · exact .inr (Nat.le_of_eq following.number.symm)
    · exact .inl old

theorem index_kept (before : Valid g path s) (open_ : a ∈ s.stack) : t.indexOf a = s.indexOf a :=
  following.keeps.index a (before.met_of_stack open_)

theorem number_of_open (before : Valid g path s) (open_ : a ∈ t.stack) (there : Reaches g node a) :
    s.size ≤ t.indexOf a ∨ ∃ b ∈ s.stack, Reaches g node b ∧ t.indexOf a = s.indexOf b := by
  rcases following.above open_ with old | new
  · exact .inr ⟨a, old, there, following.index_kept before old⟩
  · exact .inl new

theorem lower {n : Nat} (new : ¬ s.isMet node = true)
    (other : s.size ≤ n ∨ ∃ a ∈ s.stack, Reaches g node a ∧ n = s.indexOf a) :
    Following g path node s seen (t.lower node n) := by
  have less : (t.lower node n).lowOf node ≤ t.lowOf node := by
    rw [lowOf_lower_self]
    exact Nat.min_le_right _ _
  obtain ⟨added, same, crossing⟩ := following.stack
  refine ⟨following.valid.lower node n, ⟨following.keeps.met, following.keeps.index, ?_⟩,
    following.number, ⟨added, same, fun a inside b open_ edge =>
      Nat.le_trans less (crossing a inside b open_ edge)⟩, Nat.le_trans less following.bounded, ?_,
    fun b inside => (following.seen b inside).imp_right fun low open_ => Nat.le_trans less (low open_),
    following.reached⟩
  · intro a met
    have differ : node ≠ a := by
      rintro rfl
      exact new met
    rw [lowOf_lower differ]
    exact following.keeps.low a met
  · rw [lowOf_lower_self]
    exact following.low.min following.bounded other

theorem seen_cons (met : t.isMet next = true)
    (low : next ∈ s.stack → t.lowOf node ≤ s.indexOf next) :
    Following g path node s (next :: seen) t :=
  { following with seen := List.forall_mem_cons.mpr ⟨⟨met, low⟩, following.seen⟩ }

theorem visited (before : Valid g path s) (unmet : ¬ t.isMet next = true) (edge : Edge g node next)
    (new : ¬ s.isMet node = true) (visited : Visited g (node :: path) next t u) :
    Following g path node s (next :: seen) (u.lower node (u.lowOf next)) := by
  have nodeMet : t.isMet node = true := following.valid.met_of_stack following.node_open
  have lowKept : u.lowOf node = t.lowOf node := visited.keeps.low node nodeMet
  obtain ⟨added, same, crossing⟩ := following.stack
  obtain ⟨more, grown, further⟩ := visited.stack
  have numbers {b : String} (open_ : b ∈ s.stack) : t.indexOf b = s.indexOf b :=
    following.index_kept before open_
  have keeps : Keeps s u :=
    ⟨fun a met => visited.keeps.met a (following.keeps.met a met),
      fun a met => (visited.keeps.index a (following.keeps.met a met)).trans (following.keeps.index a met),
      fun a met => (visited.keeps.low a (following.keeps.met a met)).trans (following.keeps.low a met)⟩
  have unseen : next ∉ s.stack := fun open_ =>
    unmet (following.keeps.met next (before.met_of_stack open_))
  -- The numbers that the new part of the stack leads to are noted under the next node only.
  have low : (u.lower node (u.lowOf next)).lowOf node = min (u.lowOf next) (t.lowOf node) := by
    rw [lowOf_lower_self, lowKept]
  refine ⟨visited.valid.lower _ _, ⟨keeps.met, keeps.index, ?_⟩,
    (visited.keeps.index node nodeMet).trans following.number,
    ⟨more ++ added, by rw [List.append_assoc, ← same]; exact grown, ?_⟩, ?_, ?_, ?_, ?_⟩
  · intro a met
    have differ : node ≠ a := by
      rintro rfl
      exact new met
    rw [lowOf_lower differ]
    exact keeps.low a met
  · intro a inside b open_ edge
    rw [low]
    rcases List.mem_append.mp inside with behind | earlier
    · refine Nat.le_trans (Nat.min_le_left _ _) ?_
      rw [← numbers open_]
      exact further a behind b (following.open_kept open_) edge
    · exact Nat.le_trans (Nat.min_le_right _ _) (crossing a earlier b open_ edge)
  · rw [low]
    exact Nat.le_trans (Nat.min_le_right _ _) following.bounded
  · rw [low]
    refine following.low.min following.bounded ?_
    rcases visited.low with own | ⟨a, open_, there, equal⟩
    · exact .inl (own ▸ Nat.le_of_lt following.size_lt)
    · rw [equal]
      exact following.number_of_open before open_ (.head edge there)
  · refine List.forall_mem_cons.mpr ⟨⟨visited.met, fun open_ => absurd open_ unseen⟩, fun b inside => ?_⟩
    obtain ⟨met, bound⟩ := following.seen b inside
    refine ⟨visited.keeps.met b met, fun open_ => ?_⟩
    rw [low]
    exact Nat.le_trans (Nat.min_le_right _ _) (bound open_)
  · intro a met
    rcases visited.reached a met with early | there
    · exact following.reached a early
    · exact .inr (.head edge there)

theorem follow {visit : Search → String → Search} (before : Valid g path s)
    (new : ¬ s.isMet node = true) (edge : Edge g node next)
    (visits : ¬ t.isMet next = true → Visited g (node :: path) next t (visit t next)) :
    Following g path node s (next :: seen) (Search.follow visit node t next) := by
  unfold Search.follow
  split
  · rename_i met
    split
    · rename_i open_
      have open_ : next ∈ t.stack := by simpa using open_
      refine (following.lower new (following.number_of_open before open_ (.single edge))).seen_cons met ?_
      intro old
      rw [lowOf_lower_self, ← following.index_kept before old]
      exact Nat.min_le_left _ _
    · rename_i closed
      have closed : next ∉ t.stack := by simpa using closed
      exact following.seen_cons met fun old => absurd (following.open_kept old) closed
  · rename_i unmet
    exact following.visited before unmet edge new (visits unmet)

end Following

end Follow

section Close

variable {path seen added : List String}

namespace Following

variable (following : Following g path node s seen t) (before : Valid g path s)
  (every : ∀ b, Edge g node b → b ∈ seen)

include following

theorem split (same : t.stack = added ++ node :: s.stack) :
    node ∉ added ∧ (∀ a ∈ added, a ∉ s.stack) ∧ node ∉ s.stack := by
  have distinct := following.valid.nodup
  rw [same, List.nodup_append] at distinct
  obtain ⟨-, rest, apart⟩ := distinct
  exact ⟨fun inside => apart node inside node List.mem_cons_self rfl,
    fun a inside old => apart a inside a (List.mem_cons_of_mem _ old) rfl,
    (List.nodup_cons.mp rest).1⟩

include every

theorem followed (met : t.isMet a = true) (outside : a ∉ path) (edge : Edge g a b) :
    t.isMet b = true := by
  by_cases same : a = node
  · subst same
    exact (following.seen b (every b edge)).1
  · exact following.valid.followed a met (fun inside =>
      (List.mem_cons.mp inside).elim same outside) b edge

include before

theorem leaves_none (root : t.lowOf node = t.indexOf node)
    (same : t.stack = added ++ node :: s.stack)
    (crossing : ∀ a ∈ added, ∀ b ∈ s.stack, Edge g a b → t.lowOf node ≤ s.indexOf b)
    (inside : a ∈ added ++ [node]) (edge : Edge g a b) :
    b ∈ added ++ [node] ∨ b ∈ t.components.flatten := by
  obtain ⟨-, apart, lone⟩ := following.split same
  have open_ : a ∈ t.stack := by
    rw [same]
    exact (List.mem_append.mp inside).elim (List.mem_append_left _) fun last =>
      List.mem_append_right _ (List.mem_singleton.mp last ▸ List.mem_cons_self)
  have outside : a ∉ path := fun inPath => by
    have old := before.onPath a inPath
    rcases List.mem_append.mp inside with above | last
    · exact apart a above old
    · exact lone (List.mem_singleton.mp last ▸ old)
  have met := following.followed every (following.valid.met_of_stack open_) outside edge
  rcases (following.valid.met b).mp met with opened | closed
  · rw [same] at opened
    rcases List.mem_append.mp opened with above | rest
    · exact .inl (List.mem_append_left _ above)
    · rcases List.mem_cons.mp rest with rfl | old
      · exact .inl (List.mem_append_right _ (List.mem_singleton_self _))
      · have low : t.lowOf node ≤ s.indexOf b := by
          rcases List.mem_append.mp inside with above | last
          · exact crossing a above b old edge
          · cases List.mem_singleton.mp last
            exact (following.seen b (every b edge)).2 old
        have high := before.below_size old
        rw [root, following.number] at low
        omega
  · exact .inr closed

theorem isComponent (root : t.lowOf node = t.indexOf node)
    (same : t.stack = added ++ node :: s.stack)
    (crossing : ∀ a ∈ added, ∀ b ∈ s.stack, Edge g a b → t.lowOf node ≤ s.indexOf b) :
    IsComponent g t.components (added ++ [node]) := by
  obtain ⟨fresh, apart, lone⟩ := following.split same
  have valid := following.valid
  have within {a : String} (inside : a ∈ added ++ [node]) : a ∈ t.stack := by
    rw [same]
    exact (List.mem_append.mp inside).elim (List.mem_append_left _) fun last =>
      List.mem_append_right _ (List.mem_singleton.mp last ▸ List.mem_cons_self)
  have reaches {a b : String} (inside : a ∈ added ++ [node]) (there : Reaches g a b) :
      b ∈ added ++ [node] ∨ b ∈ t.components.flatten := by
    induction there with
    | refl => exact .inl inside
    | tail _ edge ih =>
      rcases ih with inner | closed
      · exact following.leaves_none before every root same crossing inner edge
      · exact .inr (valid.complete.step closed edge)
  have back {a : String} (inside : a ∈ added ++ [node]) : Reaches g a node := by
    obtain ⟨b, inPath, -, there⟩ := valid.returns a (within inside)
    rcases List.mem_cons.mp inPath with rfl | inPath
    · exact there
    · have old := before.onPath b inPath
      rcases reaches inside there with inner | closed
      · rcases List.mem_append.mp inner with above | last
        · exact absurd old (apart b above)
        · exact absurd (List.mem_singleton.mp last ▸ old) lone
      · exact absurd closed (valid.apart b (following.open_kept old))
  have forth {a : String} (inside : a ∈ added ++ [node]) : Reaches g node a := by
    rcases List.mem_append.mp inside with above | last
    · have leads := valid.leads
      rw [same] at leads
      exact (List.pairwise_append.mp leads).2.2 a above node List.mem_cons_self
    · cases List.mem_singleton.mp last
      exact .refl
  have distinct := valid.nodup
  rw [same] at distinct
  exact {
    inhabited := by simp
    distinct := by
      refine List.nodup_append.mpr ⟨(List.nodup_append.mp distinct).1, by simp, ?_⟩
      rintro a above b last rfl
      exact fresh (List.mem_singleton.mp last ▸ above)
    connected := fun a left b right => (back left).trans (forth right)
    apart := fun a inside => valid.apart a (within inside)
    closed := fun a inside b edge =>
      following.leaves_none before every root same crossing inside edge }

end Following

theorem IsComponent.congr {components : List (List String)} {component other : List String}
    (is : IsComponent g components component) (perm : other.Perm component) :
    IsComponent g components other where
  inhabited none := is.inhabited (List.perm_nil.mp (none ▸ perm.symm))
  distinct := perm.nodup_iff.mpr is.distinct
  connected a left b right := is.connected a (perm.mem_iff.mp left) b (perm.mem_iff.mp right)
  apart a inside := is.apart a (perm.mem_iff.mp inside)
  closed a inside b edge := (is.closed a (perm.mem_iff.mp inside) b edge).imp_left perm.mem_iff.mpr

end Close

section Closing

variable {path seen added : List String} (following : Following g path node s seen t)
  (before : Valid g path s) (every : ∀ b, Edge g node b → b ∈ seen)

include following before every

theorem visited_of_root (root : t.lowOf node = t.indexOf node)
    (same : t.stack = added ++ node :: s.stack)
    (crossing : ∀ a ∈ added, ∀ b ∈ s.stack, Edge g a b → t.lowOf node ≤ s.indexOf b) :
    Visited g path node s (t.close node) := by
  obtain ⟨fresh, apart, lone⟩ := following.split same
  have valid := following.valid
  have perm := List.mergeSort_perm (added ++ [node]) (· ≤ ·)
  have closed : t.close node = { t with
      stack := s.stack
      components := (added ++ [node]).mergeSort (· ≤ ·) :: t.components } := by
    rw [close, if_pos root, same, popThrough_append fresh]
  have member : ∀ a, a ∈ t.stack ↔ a ∈ added ++ [node] ∨ a ∈ s.stack := fun a => by
    rw [same]
    simp [or_assoc]
  have sub : s.stack.Sublist t.stack := by
    rw [same]
    exact (List.sublist_cons_self _ _).trans (List.sublist_append_right _ _)
  rw [closed]
  refine ⟨?_, ⟨following.keeps.met, following.keeps.index, following.keeps.low⟩,
    valid.met_of_stack following.node_open, ⟨[], rfl, List.forall_mem_nil _⟩, following.low,
    following.reached⟩
  exact {
    numbered := valid.numbered
    ordered := valid.ordered.sublist sub
    leads := valid.leads.sublist sub
    onPath := before.onPath
    returns := fun a open_ => by
      obtain ⟨b, inPath, less, there⟩ := before.returns a open_
      refine ⟨b, inPath, ?_, there⟩
      have kept := following.index_kept before open_
      have keptPath := following.index_kept before (before.onPath b inPath)
      change t.indexOf b ≤ t.indexOf a
      rwa [kept, keptPath]
    met := fun a => by
      have grown : a ∈ ((added ++ [node]).mergeSort (· ≤ ·) :: t.components).flatten ↔
          a ∈ added ++ [node] ∨ a ∈ t.components.flatten := by
        rw [List.flatten_cons, List.mem_append, perm.mem_iff]
      exact (valid.met a).trans (by rw [member, grown, or_comm (b := a ∈ s.stack), or_assoc])
    apart := fun a open_ inside => by
      rcases List.mem_append.mp inside with new | old
      · rcases List.mem_append.mp (perm.mem_iff.mp new) with above | last
        · exact apart a above open_
        · exact lone (List.mem_singleton.mp last ▸ open_)
      · exact valid.apart a (sub.subset open_) old
    followed := fun a met outside b edge => following.followed every met outside edge
    complete := ⟨(following.isComponent before every root same crossing).congr perm, valid.complete⟩ }

theorem visited_of_open (inner : t.lowOf node ≠ t.indexOf node)
    (same : t.stack = added ++ node :: s.stack)
    (crossing : ∀ a ∈ added, ∀ b ∈ s.stack, Edge g a b → t.lowOf node ≤ s.indexOf b) :
    Visited g path node s (t.close node) := by
  have valid := following.valid
  have kept : t.close node = t := by rw [close, if_neg inner]
  obtain ⟨c, below, down, -⟩ := following.low.resolve_left fun own =>
    inner (own.trans following.number.symm)
  obtain ⟨d, inPath, less, back⟩ := before.returns c below
  rw [kept]
  refine ⟨?_, following.keeps, valid.met_of_stack following.node_open,
    ⟨added ++ [node], by simp [same], ?_⟩, following.low, following.reached⟩
  · exact { valid with
      onPath := fun a inside => valid.onPath a (List.mem_cons_of_mem _ inside)
      returns := fun a open_ => by
        obtain ⟨b, onPath, low, there⟩ := valid.returns a open_
        rcases List.mem_cons.mp onPath with rfl | onPath
        · refine ⟨d, inPath, ?_, there.trans (down.trans back)⟩
          have lower := before.below_size below
          rw [following.number] at low
          rw [following.index_kept before (before.onPath d inPath)]
          omega
        · exact ⟨b, onPath, low, there⟩
      followed := fun a met outside b edge => following.followed every met outside edge }
  · intro a inside b old edge
    rcases List.mem_append.mp inside with above | last
    · exact crossing a above b old edge
    · cases List.mem_singleton.mp last
      exact (following.seen b (every b edge)).2 old

theorem visited_close : Visited g path node s (t.close node) := by
  obtain ⟨added, same, crossing⟩ := following.stack
  by_cases root : t.lowOf node = t.indexOf node
  · exact visited_of_root following before every root same crossing
  · exact visited_of_open following before every root same crossing

end Closing

def unmet (all : List String) (s : Search) : Nat := all.countP fun a => !s.isMet a

section Visit

variable {all path : List String}

theorem unmet_le (grown : ∀ a, s.isMet a = true → t.isMet a = true) : unmet all t ≤ unmet all s := by
  refine List.countP_mono_left fun a _ new => ?_
  rw [Bool.not_eq_true'] at new ⊢
  exact Bool.eq_false_iff.mpr fun old => by rw [grown a old] at new; cases new

theorem unmet_lt (inside : node ∈ all) (new : ¬ s.isMet node = true)
    (grown : ∀ a, s.isMet a = true → t.isMet a = true) (met : t.isMet node = true) :
    unmet all t < unmet all s := by
  obtain ⟨left, right, rfl⟩ := List.append_of_mem inside
  have one : unmet left t ≤ unmet left s := unmet_le grown
  have two : unmet right t ≤ unmet right s := unmet_le grown
  have absent : s.isMet node = false := by simpa using new
  simp only [unmet, List.countP_append, List.countP_cons, met, absent] at one two ⊢
  simp only [Bool.not_true, Bool.not_false, Bool.false_eq_true, if_false, if_true]
  omega

theorem visit_visits (whole : ∀ a ∈ all, ∀ b, Edge g a b → b ∈ all) (depth : Nat)
    (valid : Valid g path s) (new : ¬ s.isMet node = true) (inside : node ∈ all)
    (deep : unmet all s ≤ depth) (waiting : ∀ a ∈ path, Reaches g a node) :
    Visited g path node s (visit g depth s node) := by
  induction depth generalizing path s node with
  | zero =>
    have counted : 0 < unmet all s := List.countP_pos_iff.mpr ⟨node, inside, by simpa using new⟩
    omega
  | succ depth ih =>
    have steps : ∀ nexts : List String, (∀ b ∈ nexts, Edge g node b) → ∀ seen t,
        Following g path node s seen t → ∃ seen',
          Following g path node s seen' (nexts.foldl (follow (visit g depth) node) t) ∧
            seen ⊆ seen' ∧ nexts ⊆ seen' := by
      intro nexts
      induction nexts with
      | nil => exact fun _ seen t following => ⟨seen, following, List.Subset.refl _, List.nil_subset _⟩
      | cons next rest later =>
        intro edges seen t following
        obtain ⟨edge, edges⟩ := List.forall_mem_cons.mp edges
        have here := following.follow valid new edge fun absent =>
          ih following.valid absent (whole node inside next edge)
            (Nat.le_of_lt_succ (Nat.lt_of_lt_of_le (unmet_lt inside new following.keeps.met
              (following.valid.met_of_stack following.node_open)) deep))
            (List.forall_mem_cons.mpr ⟨.single edge, fun a inPath => (waiting a inPath).tail edge⟩)
        obtain ⟨seen', done, old, more⟩ := later edges _ _ here
        obtain ⟨first, old⟩ := List.cons_subset.mp old
        exact ⟨seen', done, old, List.cons_subset.mpr ⟨first, more⟩⟩
    obtain ⟨seen, following, -, every⟩ := steps (successors g node) (fun _ edge => edge) _ _
      (following_enter valid new waiting)
    rw [visit]
    exact visited_close following valid fun b edge => every edge

end Visit

section VisitAll

variable {all names : List String}

theorem valid_empty (g : Graph) : Valid g [] {} where
  numbered _ met := nomatch met
  ordered := .nil
  leads := .nil
  onPath _ inside := nomatch inside
  returns _ open_ := nomatch open_
  met _ := ⟨nofun, fun nowhere => nowhere.elim nofun nofun⟩
  apart _ open_ := nomatch open_
  followed _ met := nomatch met
  complete := trivial

theorem visitAll_visits (whole : ∀ a ∈ all, ∀ b, Edge g a b → b ∈ all) (valid : Valid g [] s)
    (inside : ∀ a ∈ names, a ∈ all) :
    let t := visitAll g all.length s names
    Valid g [] t ∧ (∀ a, s.isMet a = true → t.isMet a = true) ∧ (∀ a ∈ names, t.isMet a = true) ∧
      ∀ a, t.isMet a = true → s.isMet a = true ∨ ∃ root ∈ names, Reaches g root a := by
  induction names generalizing s with
  | nil => exact ⟨valid, fun _ => id, List.forall_mem_nil _, fun _ => .inl⟩
  | cons first rest ih =>
    obtain ⟨listed, inside⟩ := List.forall_mem_cons.mp inside
    unfold visitAll
    rw [List.foldl_cons]
    split
    · rename_i met
      obtain ⟨done, kept, every, reached⟩ := ih valid inside
      refine ⟨done, kept, List.forall_mem_cons.mpr ⟨kept first met, every⟩, fun a later => ?_⟩
      exact (reached a later).imp_right fun ⟨root, given, there⟩ =>
        ⟨root, List.mem_cons_of_mem _ given, there⟩
    · rename_i new
      have visited := visit_visits whole all.length valid new listed List.countP_le_length
        (List.forall_mem_nil _)
      obtain ⟨done, kept, every, reached⟩ := ih visited.valid inside
      refine ⟨done, fun a met => kept a (visited.keeps.met a met),
        List.forall_mem_cons.mpr ⟨kept first visited.met, every⟩, fun a later => ?_⟩
      rcases reached a later with here | ⟨root, given, there⟩
      · exact (visited.reached a here).imp_right fun there => ⟨first, List.mem_cons_self, there⟩
      · exact .inr ⟨root, List.mem_cons_of_mem _ given, there⟩

theorem visitAll_complete (g : Graph) (names : List String) :
    let found := (visitAll g (nodes g names).length {} names).components
    Complete g found ∧ ∀ a, a ∈ found.flatten ↔ ∃ root ∈ names, Reaches g root a := by
  have whole : ∀ a ∈ nodes g names, ∀ b, Edge g a b → b ∈ nodes g names :=
    fun _ _ _ edge => mem_nodes_of_edge edge
  obtain ⟨valid, -, every, reached⟩ :=
    visitAll_visits whole (valid_empty g) (fun _ given => mem_nodes_of_mem given)
  have met (a : String) : (visitAll g (nodes g names).length {} names).isMet a = true ↔
      a ∈ (visitAll g (nodes g names).length {} names).components.flatten := by
    refine (valid.met a).trans (or_iff_right fun open_ => ?_)
    obtain ⟨b, nowhere, -⟩ := valid.returns a open_
    cases nowhere
  refine ⟨valid.complete, fun a => ⟨fun inside => ?_, ?_⟩⟩
  · exact (reached a ((met a).mpr inside)).resolve_left nofun
  · rintro ⟨root, given, there⟩
    exact valid.complete.reaches ((met root).mp (every root given)) there

end VisitAll

end Search

end Stratification

end PeerExchange
