import PeerExchange.Proofs.MaintenanceNames
import PeerExchange.Proofs.ProvenanceStages
import PeerExchange.Proofs.SafeRules

namespace PeerExchange

open Lowering (Readable)

section Known

variable {catalog catalog' : Catalog} {a b : Atom} {r : Rule}

theorem Atom.IsKnown.congr (known : a.IsKnown catalog) (predicate : b.predicate = a.predicate)
    (args : b.args = a.args) : b.IsKnown catalog := by
  obtain ⟨r, found, arity⟩ := known
  refine ⟨r, ?_, args ▸ arity⟩
  rw [Atom.relationName, Atom.relation?, predicate]
  exact found

def Catalog.Covers (catalog' catalog : Catalog) : Prop :=
  ∀ name r, catalog.relations.get? name = some r →
    ∃ r', catalog'.relations.get? name = some r' ∧ r'.arity = r.arity

theorem Catalog.Within.covers (within : catalog.Within catalog') : catalog'.Covers catalog :=
  fun name r found => ⟨r, within name r found, rfl⟩

variable (covers : catalog'.Covers catalog)

include covers

theorem Atom.IsKnown.mono (known : a.IsKnown catalog) : a.IsKnown catalog' := by
  obtain ⟨r, found, arity⟩ := known
  obtain ⟨r', found', same⟩ := covers _ r found
  exact ⟨r', found', arity.trans same.symm⟩

theorem Rule.IsSafe.mono (safe : r.IsSafe catalog) : r.IsSafe catalog' where
  body := safe.body
  read a inside :=
    { safe.read a inside with known := fun called => ((safe.read a inside).known called).mono covers }
  resolved := safe.resolved
  computed := safe.computed

theorem Rule.Fills.mono (fills : r.Fills catalog) : r.Fills catalog' := by
  obtain ⟨head, heads, related, required, known⟩ := fills
  exact ⟨head, heads, related, required, known.mono covers⟩

end Known

namespace Maintenance

variable {catalog marked : Catalog} {r changed : Rule} {d : Direction} {head a : Atom}
  {scc : List String} {recursive inside : Bool} {position : Nat}

theorem covers_marked {names : List String}
    (ran : markStratified names catalog = (marked, .ok ())) : marked.Covers catalog := by
  induction names generalizing catalog with
  | nil =>
    cases ran
    exact fun name r found => ⟨r, found, rfl⟩
  | cons first rest ih =>
    unfold markStratified at ran
    split at ran
    · cases congrArg Prod.snd ran
    · rename_i own known
      have present := Catalog.relation_ok.mp known
      intro name r found
      by_cases same : first = name
      · subst same
        obtain rfl := Option.some.inj (present.symm.trans found)
        exact ih ran first { own with stratified := true } ((NameMap.get?_insert ..).trans (if_pos rfl))
      · exact ih ran name r ((NameMap.get?_insert ..).trans ((if_neg same).trans found))

-- Directions that follow pending tuples from one iteration to the next.
structure Direction.IsStep (d : Direction) : Prop where
  pending : d.kind ≠ .base
  guard : -1 ≤ d.guardOffset ∧ d.guardOffset ≤ 1
  stamp : -1 ≤ d.stampOffset ∧ d.stampOffset ≤ 1

theorem isStep_deleting : deleting.IsStep := ⟨nofun, by decide, by decide⟩

theorem isStep_inserting : inserting.IsStep := ⟨nofun, by decide, by decide⟩

def Stamps (catalog : Catalog) (scc : List String) (recursive : Bool) : Prop :=
  recursive = true → ∀ name ∈ scc, ∀ r, catalog.relations.get? name = some r → r.stratified = true

section Bodies

variable {rule : Rule} {guard : Option Guard} {body added : List Atom}

-- Built-ins and negated atoms are all that joined atoms of known relations leave to be resolved.
theorem readable_of_read (read : ∀ a ∈ body, a.IsRead catalog)
    (resolved : ∀ a ∈ body, a.isPositive = false → ∀ v ∈ a.vars,
      Lowering.Resolved rule (Binds (body ++ added)) v)
    (known : ∀ a ∈ added, a.negated = true ∧ a.builtin? = none ∧ a.optional = false ∧
      a.IsKnown catalog ∧ ∀ v ∈ a.vars, Lowering.Resolved rule (Binds (body ++ added)) v)
    (stamped : ∀ i a, body[i]? = some a → a.isPositive = true → Lowering.Stamped catalog guard i a) :
    Readable catalog rule guard (body ++ added) where
  known := List.forall_mem_append.mpr ⟨fun a inside called => (read a inside).known called,
    fun a inside _ => (known a inside).2.2.2.1⟩
  builtins := List.forall_mem_append.mpr ⟨fun a inside op called =>
      ⟨(read a inside).plain, (read a inside).arity op called⟩,
    fun a inside op called => nomatch (known a inside).2.1.symm.trans called⟩
  plain := List.forall_mem_append.mpr ⟨fun a inside _ => (read a inside).unmarked,
    fun a inside plain => nomatch (known a inside).1.symm.trans plain⟩
  ordered := by
    refine List.pairwise_of_forall_mem_list fun a inside b _ optional => ?_
    have required : a.optional = false := by
      rcases List.mem_append.mp (List.mem_of_mem_filter inside) with own | new
      · exact (read a own).required
      · exact (known a new).2.2.1
    cases required.symm.trans optional
  required := List.forall_mem_append.mpr ⟨fun a inside negated =>
      (nomatch (read a inside).plain.symm.trans negated), fun a inside _ => (known a inside).2.2.1⟩
  needed := List.forall_mem_append.mpr ⟨resolved, fun a inside _ => (known a inside).2.2.2.2⟩
  stamped i a found positive := by
    rw [List.getElem?_append] at found
    split at found
    · exact stamped i a found positive
    · have negated := (known a (List.mem_of_getElem? found)).1
      rw [Atom.isPositive, negated] at positive
      cases positive

end Bodies

section Changes

theorem binds_set {body : List Atom} {kind : TableKind} {name : String}
    (found : body[position]? = some a) (positive : a.isPositive = true) (binds : Binds body name) :
    Binds (body.set position (a.withKind kind)) name := by
  intro names closed
  obtain ⟨bound, rfl⟩ := List.getElem?_eq_some_iff.mp found
  have kept : ∀ b ∈ body, b = body[position] ∨ b ∈ body.set position (body[position].withKind kind) := by
    intro b inside
    obtain ⟨i, here, rfl⟩ := List.getElem_of_mem inside
    by_cases same : position = i
    · subst same
      exact .inl rfl
    · refine .inr (List.mem_of_getElem? (i := i) ?_)
      rw [List.getElem?_set_ne same, List.getElem?_eq_getElem here]
  refine binds names ⟨fun b inside joined name named => ?_,
    fun b inside plain inputs name determines known => ?_⟩
  · rcases kept b inside with rfl | rest
    · exact closed.joined _ (List.mem_set bound _) positive name named
    · exact closed.joined b rest joined name named
  · rcases kept b inside with rfl | rest
    · have called := determines.builtin
      rw [Atom.builtin?_of_isPositive positive] at called
      cases called
    · exact closed.determined b rest plain inputs name determines known

theorem lowerable_changeRule (step : d.IsStep) (safe : r.IsSafe marked) (fills : r.Fills marked)
    (heads : r.head = [head]) (found : r.body[position]? = some a) (positive : a.isPositive = true)
    (stamps : Stamps marked scc recursive) :
    (changeRule d r head scc recursive position a).1.Lowerable marked := by
  obtain ⟨own, single, related, required, known⟩ := fills
  obtain rfl : head = own := by simpa [heads] using single
  have called := Atom.builtin?_of_relation related
  have member := List.mem_of_getElem? found
  let body := r.body.set position (a.withKind d.kind)
  let added := exclusion d head (recursive && scc.contains a.relationName)
  have binds : ∀ name, Binds r.body name → Binds (body ++ added) name := fun name bound =>
    (binds_set found positive bound).mono fun b inside _ => List.mem_append_left _ inside
  have mem_body : ∀ b ∈ body, b ∈ r.body ∨ b = a.withKind d.kind := fun b inside =>
    List.mem_or_eq_of_mem_set inside
  have resolved : ∀ v ∈ head.vars, Lowering.Resolved r (Binds (body ++ added)) v := fun v inside =>
    (safe.resolved head (heads ▸ List.mem_singleton_self _) v inside).mono binds
  refine ⟨?_, ?_, ⟨head.withKind d.kind, rfl, ⟨known, called, required, resolved⟩⟩, ?_⟩
  · exact List.append_ne_nil_of_left_ne_nil (List.ne_nil_of_length_pos (by
      rw [List.length_set]
      exact List.length_pos_iff.mpr safe.body)) _
  · refine @readable_of_read _ _ _ body _ (fun b inside => ?_) (fun b inside negative v within => ?_)
      (fun b inside => ?_) fun i b placed _ => ?_
    · rcases mem_body b inside with old | rfl
      · exact safe.read b old
      · have read := safe.read a member
        exact ⟨read.plain, read.required, read.unmarked, read.known, read.arity⟩
    · rcases mem_body b inside with old | rfl
      · exact .inl (binds _ (safe.binds_of_unjoined old negative v within))
      · exact nomatch positive.symm.trans negative
    · obtain ⟨negated, predicate, args, optional⟩ := mem_exclusion inside
      refine ⟨negated, ?_, optional.trans required, known.congr predicate args, ?_⟩
      · rw [Atom.builtin?, predicate]
        exact called
      · rw [Atom.vars, args]
        exact resolved
    · intro g given here
      change g ∈ (if (recursive && scc.contains a.relationName) = true then _ else none) at given
      split at given
      · rename_i within
        cases given
        obtain rfl : position = i := here
        obtain ⟨recurs, listed⟩ := Bool.and_eq_true_iff.mp within
        refine ⟨step.guard, fun relation stored => ?_⟩
        have same : b = a.withKind d.kind := by
          obtain ⟨bound, -⟩ := List.getElem?_eq_some_iff.mp found
          exact Option.some.inj (placed.symm.trans (List.getElem?_set_self bound))
        subst same
        simp only [Relation.hasStratum, Bool.and_eq_true, decide_eq_true_eq]
        exact ⟨stamps recurs a.relationName (by simpa using listed) relation stored, step.pending⟩
      · cases given
  · intro offset given
    change (if recursive = true then some _ else none) = _ at given
    split at given
    · split at given
      · cases given
        exact step.stamp
      · cases given
    · cases given

theorem lowerable_changesOf (step : d.IsStep) (safe : r.IsSafe marked) (fills : r.Fills marked)
    (stamps : Stamps marked scc recursive) (member : changed ∈ changesOf d scc recursive inside r) :
    changed.Lowerable marked := by
  obtain ⟨head, heads, -⟩ := id fills
  obtain ⟨position, a, found, positive, same⟩ := (mem_changesOf heads).mp member
  have lowerable := lowerable_changeRule step safe fills heads found positive stamps
  rwa [same] at lowerable

end Changes

theorem lowerable_rederiveRule (safe : r.IsSafe marked) (fills : r.Fills marked) :
    (rederiveRule r).Lowerable marked := by
  obtain ⟨head, heads, related, required, known⟩ := fills
  have first : r.head?.getD (.ofRelation "" []) = head := by rw [Rule.head?, heads]; rfl
  let added := (r.body.filter Atom.isPositive).map fun a => (a.withKind .deletion).negate
  have binds : ∀ name, Binds r.body name → Binds (r.body ++ added) name := fun name =>
    Binds.mono fun a inside _ => List.mem_append_left _ inside
  have resolved : ∀ v ∈ head.vars, Lowering.Resolved r (Binds (r.body ++ added)) v := fun v inside =>
    (safe.resolved head (heads ▸ List.mem_singleton_self _) v inside).mono binds
  refine ⟨List.append_ne_nil_of_left_ne_nil safe.body _, ?_, ⟨head.withKind .deletion, ?_, known,
    Atom.builtin?_of_relation related, required, resolved⟩, .unstamped rfl⟩
  · refine @readable_of_read _ _ _ r.body _ safe.read (fun a inside negative v within =>
      .inl (binds _ (safe.binds_of_unjoined inside negative v within)))
      (fun b inside => ?_) fun _ _ _ _ => .unguarded
    obtain ⟨a, joined, rfl⟩ := List.mem_map.mp inside
    obtain ⟨listed, positive⟩ := List.mem_filter.mp joined
    have read := safe.read a listed
    have called := Atom.builtin?_of_isPositive positive
    refine ⟨rfl, called, read.required, read.known called, fun v within => .inl (binds _ ?_)⟩
    exact (binds_closed r.body).joined a listed positive _ (List.mem_map_of_mem within)
  · change [(r.head?.getD (.ofRelation "" [])).withKind .deletion] = _
    rw [first]

section Tables

variable {relation : Relation} {name suffix : String} {action : Action} {into source : TableKind}
  {guard : Option Guard} {stratified : Bool}

theorem lowerable_tableRule (stored : marked.relations.get? name = some relation)
    (stamped : ∀ g ∈ guard, (-1 ≤ g.offset ∧ g.offset ≤ 1) ∧ relation.hasStratum source = true) :
    ({ tableRule relation name suffix action into source with
      stratified := stratified, guard := guard } : Rule).Lowerable marked := by
  let args := (List.range relation.arity).map fun i => Term.var ("x" ++ toString i)
  let own := (Atom.ofRelation name args).withKind source
  have known : own.IsKnown marked := ⟨relation, stored, by simp [own, args, Atom.withKind, Atom.ofRelation]⟩
  have read : own.IsRead marked := by
    refine ⟨rfl, rfl, List.forall_mem_map.mpr fun _ _ => ⟨rfl, rfl⟩, fun _ => known, fun _ called => ?_⟩
    cases called
  have joined : ∀ v ∈ own.vars, Binds [own] v.name := fun v inside =>
    (binds_closed [own]).joined own (List.mem_singleton_self _) rfl _ (List.mem_map_of_mem inside)
  refine ⟨List.cons_ne_nil _ _, ?_, ⟨(Atom.ofRelation name args).withKind into, rfl,
    ⟨known, rfl, rfl, fun v inside => .inl (joined v inside)⟩⟩, .unstamped rfl⟩
  refine @readable_of_read marked { tableRule relation name suffix action into source with
      stratified := stratified, guard := guard } guard [own] []
    (List.forall_mem_singleton.mpr read) (List.forall_mem_singleton.mpr fun negative => Bool.noConfusion negative)
    (List.forall_mem_nil _) fun i b placed _ g given _ => ?_
  · obtain ⟨near, stratum⟩ := stamped g given
    refine ⟨near, fun found present => ?_⟩
    obtain rfl := List.mem_singleton.mp (List.mem_of_getElem? placed)
    obtain rfl : relation = found := Option.some.inj (stored.symm.trans present)
    exact stratum

theorem lowerable_tableRule_unguarded (stored : marked.relations.get? name = some relation) :
    (tableRule relation name suffix action into source).Lowerable marked :=
  lowerable_tableRule stored fun _ given => absurd given (Option.not_mem_none _)

theorem lowerable_mergeRule (stored : marked.relations.get? name = some relation)
    (stratified : recursive = true → relation.stratified = true) :
    (mergeRule relation name recursive).Lowerable marked := by
  unfold mergeRule
  split
  · rename_i recurs
    refine lowerable_tableRule stored fun g given => ?_
    cases given
    exact ⟨by decide, by simp [Relation.hasStratum, stratified recurs]⟩
  · exact lowerable_tableRule_unguarded stored

end Tables

variable {x : Exchange} {s : Stratum} {index : Nat} {part : StratumProgram} {rules : List Rule}

inductive Origin (marked : Catalog) (rules : List Rule) (s : Stratum) : Rule → Prop
  | change {d : Direction} {inside : Bool} {r rule : Rule} (step : d.IsStep)
      (own : r ∈ ownRules rules s) (changed : rule ∈ changesOf d s.relations s.recursive inside r) :
      Origin marked rules s rule
  | rederived {r : Rule} (own : r ∈ ownRules rules s) : Origin marked rules s (rederiveRule r)
  | table {name suffix : String} {relation : Relation} {action : Action} {into source : TableKind}
      (stored : marked.relations.get? name = some relation) (changes : action ≠ .view) :
      Origin marked rules s (tableRule relation name suffix action into source)
  | merged {name : String} {relation : Relation} (inside : name ∈ s.relations)
      (stored : marked.relations.get? name = some relation) :
      Origin marked rules s (mergeRule relation name s.recursive)

theorem origin_of_part (made : stratumProgram marked x.edb rules index s = .ok part) {rule : Rule}
    (member : rule ∈ part.deletion.seed ++ part.deletion.iterate ++ part.deletion.rederive ∨
      rule ∈ part.apply ∨
      rule ∈ part.insertion.seed ++ part.insertion.iterate ++ part.insertion.merge ∨
      rule ∈ part.reset) : Origin marked rules s rule := by
  obtain ⟨relations, resolved, deletion, insertion, applied⟩ := stratumProgram_parts made
  have changes {d : Direction} (step : d.IsStep) {inside : Bool}
      (changed : rule ∈ changeGroup d rules s inside) : Origin marked rules s rule := by
    obtain ⟨r, own, changed⟩ := List.mem_flatMap.mp changed
    exact .change step own changed
  rw [deletion, applied, insertion] at member
  simp only [deletionStratum, insertionStratum, changeGroup_eq, List.mem_append] at member
  rcases member with ((changed | changed) | again) | apply |
    (((changed | pruned) | changed) | merged) | again
  · exact changes isStep_deleting changed
  · exact changes isStep_deleting changed
  · obtain ⟨r, own, rfl⟩ := List.mem_map.mp again
    exact .rederived own
  · obtain ⟨entry, known, rfl⟩ := List.mem_map.mp apply
    exact .table (resolved.known entry known).2 (by decide)
  · exact changes isStep_inserting changed
  · obtain ⟨entry, known, rfl⟩ := List.mem_map.mp pruned
    exact .table (resolved.known entry (List.mem_of_mem_filter known)).2 (by decide)
  · exact changes isStep_inserting changed
  · obtain ⟨entry, known, rfl⟩ := List.mem_map.mp merged
    exact .merged (resolved.known entry known).1 (resolved.known entry known).2
  · obtain ⟨relations, found, made⟩ := Compiled.bind_ok.mp made
    cases made
    obtain ⟨entry, edited, rfl⟩ := List.mem_map.mp again
    obtain ⟨own, -, found⟩ := Compiled.forall₂_source (Compiled.forall₂_of_mapM found)
      (List.mem_of_mem_filter edited)
    obtain ⟨relation, known, same⟩ := Compiled.bind_ok.mp found
    cases same
    exact .table (Catalog.relation_ok.mp known) (by decide)

theorem Origin.lowerable {rule : Rule} (origin : Origin marked rules s rule)
    (safe : ∀ r ∈ rules, r.IsSafe marked ∧ r.Fills marked)
    (stamps : Stamps marked s.relations s.recursive) : rule.Lowerable marked := by
  have own (r : Rule) (listed : r ∈ ownRules rules s) : r.IsSafe marked ∧ r.Fills marked :=
    safe r (mem_ownRules.mp listed).1
  cases origin with
  | change step listed changed =>
    exact lowerable_changesOf step (own _ listed).1 (own _ listed).2 stamps changed
  | rederived listed => exact lowerable_rederiveRule (own _ listed).1 (own _ listed).2
  | table stored => exact lowerable_tableRule_unguarded stored
  | @merged name _ inside stored =>
    exact lowerable_mergeRule stored fun recurs => stamps recurs name inside _ stored

section Programs

variable {program : Maintenance} (built : build x catalog = (marked, .ok program))

include built

theorem origin_of_build {rule : Rule} (member : rule ∈ program.allRules) :
    ∃ s ∈ strataOf x, Origin marked (markedRules x.rules (recursiveNames x)) s rule := by
  obtain ⟨-, -, parts, each, rfl⟩ := build_made built
  obtain ⟨part, listed, inside⟩ := mem_allRules.mp member
  obtain ⟨s, present, index, made⟩ := Compiled.forall₂_source each listed
  exact ⟨s, present, origin_of_part made inside⟩

theorem lowerable_program (safe : ∀ r ∈ x.rules, r.IsSafe marked ∧ r.Fills marked) :
    ∀ rule ∈ program.allRules, rule.Lowerable marked := by
  intro rule member
  obtain ⟨s, present, origin⟩ := origin_of_build built member
  refine origin.lowerable (List.forall_mem_map.mpr fun r given => ?_) fun recurs name within r found => ?_
  · obtain ⟨safe, fills⟩ := safe r given
    exact ⟨⟨safe.body, safe.read, safe.resolved, safe.computed⟩, fills⟩
  · obtain ⟨_, -, -, flag⟩ := markStratified_get (build_made built).1 found
    exact flag (.inl (List.mem_flatMap.mpr ⟨s, List.mem_filter.mpr ⟨present, recurs⟩, within⟩))

theorem lowerable_build (safe : ∀ r ∈ x.rules, r.IsSafe catalog ∧ r.Fills catalog) :
    ∀ rule ∈ program.allRules, rule.Lowerable marked := by
  have covers := covers_marked (build_made built).1
  exact lowerable_program built fun r given =>
    ⟨(safe r given).1.mono covers, (safe r given).2.mono covers⟩

end Programs

end Maintenance

end PeerExchange
