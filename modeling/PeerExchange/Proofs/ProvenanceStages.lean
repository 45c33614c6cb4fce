import PeerExchange.Proofs.CompiledCatalogs
import PeerExchange.Proofs.ProvenanceColumns

namespace PeerExchange

open Provenance

namespace Catalog

variable {c c' c'' : Catalog}

-- Every relation is stored under its own name.
def IsNamed (c : Catalog) : Prop := ∀ name r, c.relations.get? name = some r → r.name = name

def Within (c c' : Catalog) : Prop :=
  ∀ name r, c.relations.get? name = some r → c'.relations.get? name = some r

theorem Within.trans (first : c.Within c') (later : c'.Within c'') : c.Within c'' :=
  fun name r found => later name r (first name r found)

theorem within_insert {r : Relation} (new : c.relations.contains r.name = false)
    (relations : c'.relations = c.relations.insert r.name r) : c.Within c' := by
  intro name other found
  rw [relations]
  exact Build.get?_insert_of_found new found

theorem isNamed_of_entries (own : ∀ e ∈ c.relations.entries, e.2.name = e.1) : c.IsNamed :=
  fun name r found => own (name, r) (NameMap.mem_of_lookup found)

theorem IsNamed.insert {r : Relation} (named : c.IsNamed)
    (relations : c'.relations = c.relations.insert r.name r) : c'.IsNamed := by
  intro name other found
  rw [relations, NameMap.get?_insert] at found
  split at found
  · rename_i same
    cases found
    exact same
  · exact named name other found

theorem relation_ok {name : String} {r : Relation} :
    c.relation name = .ok r ↔ c.relations.get? name = some r := by
  unfold relation
  split
  · rename_i found
    rw [found]
    exact ⟨fun same => by cases same; rfl, fun same => by cases same; rfl⟩
  · rename_i absent
    rw [absent]
    exact ⟨nofun, nofun⟩

end Catalog

-- An argument for each column of its relation, which has one at least.
def Atom.Fits (catalog : Catalog) (a : Atom) : Prop :=
  ∃ name r, a.relation? = some name ∧ catalog.relations.get? name = some r ∧
    a.args.length = r.arity ∧ r.columns ≠ []

theorem Atom.Fits.mono {c c' : Catalog} {a : Atom} (fits : a.Fits c) (within : c.Within c') :
    a.Fits c' := by
  obtain ⟨name, r, related, found, fit⟩ := fits
  exact ⟨name, r, related, within _ _ found, fit⟩

def ProvenanceColumn.column (c : ProvenanceColumn) : Column := ⟨c.name, c.type, c.mayBeNull⟩

namespace ProvenanceRelation

variable {catalog : Catalog} {trust : TrustPolicy} {p : ProvenanceRelation} {rule : Rule}
  {r : Relation} {i : Nat}

def sourceArgs (p : ProvenanceRelation) (catalog : Catalog) (trust : TrustPolicy) (i : Nat)
    (rule : Rule) : List Term := (p.sourceRule catalog trust i rule).head.flatMap Atom.args

theorem head_sourceRule : (p.sourceRule catalog trust i rule).head =
    [.ofRelation p.name (p.sourceArgs catalog trust i rule)] := by
  rw [sourceArgs]
  simp [sourceRule, Atom.ofRelation]

theorem sourceArgs_parts (p : ProvenanceRelation) (catalog : Catalog) (trust : TrustPolicy) (i : Nat)
    (rule : Rule) : ∃ before after, p.sourceArgs catalog trust i rule =
    before ++ p.columns.map (sourceArg i) ++ after ∧
      before.length = p.dataOffset ∧ after.length = p.trust.toList.length := by
  refine ⟨_, _, List.append_nil _, ?_, List.length_map _⟩
  unfold dataOffset
  split <;> rfl

theorem length_sourceArgs : (p.sourceArgs catalog trust i rule).length = p.bodyArgs.length := by
  obtain ⟨before, after, parts, offset, rest⟩ := sourceArgs_parts p catalog trust i rule
  simp [parts, offset, rest, bodyArgs, Nat.add_assoc]

theorem length_mapping :
    (if p.hasMappingColumn then [(⟨mappingColumn, .text, false⟩ : Column)] else []).length =
      p.dataOffset := by
  unfold dataOffset
  split <;> rfl

theorem length_bodyArgs : p.bodyArgs.length = p.relation.arity := by
  simp only [bodyArgs, Relation.arity, relation, dataColumns, List.length_append, List.length_map,
    List.length_range, length_mapping]

theorem column_at (inside : i < p.columns.length) :
    p.relation.columns[p.dataOffset + i]? = some p.columns[i].column := by
  simp only [relation, dataColumns, List.append_assoc]
  rw [← length_mapping, List.getElem?_append_right (Nat.le_add_right _ _), Nat.add_sub_cancel_left,
    List.getElem?_append_left (by simpa using inside)]
  simp [inside, ProvenanceColumn.column]

theorem place_of_column (inside : i < p.columns.length) :
    (Term.var ("c" ++ toString (p.dataOffset + i)), p.columns[i].column) ∈
      p.bodyArgs.zip p.relation.columns := by
  have arg : p.bodyArgs[p.dataOffset + i]? = some (.var ("c" ++ toString (p.dataOffset + i))) := by
    rw [bodyArgs, List.getElem?_map, List.getElem?_range (by omega)]
    rfl
  exact List.mem_of_getElem? (List.getElem?_zip_eq_some.mpr ⟨arg, column_at inside⟩)

theorem targetArg_ok {column : Column} {t : Term} (made : p.targetArg r column = .ok t) :
    ∃ position, ∃ inside : position < p.columns.length,
      p.columns[position].key = .target r.name column.name ∧
        t = .var ("c" ++ toString (p.dataOffset + position)) := by
  unfold targetArg at made
  split at made
  · rename_i position found
    obtain ⟨inside, key, -⟩ := List.findIdx?_eq_some_iff_getElem.mp found
    cases made
    exact ⟨position, inside, of_decide_eq_true key, rfl⟩
  · cases made

theorem targetRule_ok {target : String} {q : Rule} (made : p.targetRule catalog target = .ok q) :
    ∃ r args, catalog.relation target = .ok r ∧ r.columns.mapM (p.targetArg r) = .ok args ∧
      q.head = [.ofRelation target args] ∧ q.body = [.ofRelation p.name p.bodyArgs] ∧
      q.inventions = [] := by
  obtain ⟨r, found, made⟩ := Compiled.bind_ok.mp made
  obtain ⟨args, mapped, made⟩ := Compiled.bind_ok.mp made
  cases made
  exact ⟨r, args, found, mapped, rfl, rfl, rfl⟩

end ProvenanceRelation

-- Rules that were led through one provenance relation, and the rules that lead them.
structure Stage where
  members : List Rule
  relation : ProvenanceRelation
  sources : List Rule
  targets : List Rule

namespace Stage

structure Sound (catalog : Catalog) (s : Stage) : Prop where
  registered : catalog.relations.get? s.relation.name = some s.relation.relation
  recorded : ∃ known rows, known.Within catalog ∧ s.relation.Recorded known s.members rows
  sources : ∃ known trust, s.sources = s.members.mapIdx (s.relation.sourceRule known trust)
  targets : ∃ known, known.Within catalog ∧ s.relation.targetRules known = .ok s.targets

def FilledUnder (trust : TrustPolicy) (s : Stage) : Prop :=
  ∃ known, s.sources = s.members.mapIdx (s.relation.sourceRule known trust)

def IsUniform (s : Stage) : Prop :=
  ∀ rule ∈ s.members, ∀ a ∈ rule.head, ∀ other ∈ s.members, ∃ b ∈ other.head, b.relation? = a.relation?

variable {catalog : Catalog} {s : Stage} {name : String} {rule : Rule}

theorem Sound.mem_targets (sound : s.Sound catalog) (named : catalog.IsNamed)
    (fits : ∀ rule ∈ s.members, ∀ a ∈ rule.head, a.Fits catalog) :
    name ∈ s.relation.targets ↔ ∃ rule ∈ s.members, ∃ a ∈ rule.head, a.relation? = some name := by
  obtain ⟨known, rows, within, recorded⟩ := sound.recorded
  rw [ProvenanceRelation.mem_targets]
  constructor
  · rintro ⟨c, inside, column, key⟩
    obtain ⟨e, none | ⟨es, listed, member⟩, same⟩ := recorded.columns.needed c inside
    · cases none
    obtain ⟨rule, ruled, made⟩ := Compiled.forall₂_source recorded.entries listed
    obtain ⟨read, written, -, writes, -, origin⟩ := entries_ok made
    obtain ⟨place, written, rfl⟩ := origin e member _ _ (same.trans key)
    obtain ⟨a, head, r, found, placed⟩ := (places_ok writes).2 place written
    obtain ⟨other, r', given, -, -⟩ := fits rule ruled a head
    refine ⟨rule, ruled, a, head, ?_⟩
    have own := named _ _ (within _ _ (Catalog.relation_ok.mp found))
    have target : place.relation = name := (ColumnKey.target.inj (same.trans key)).1
    rw [relation_of_place placed, own, Atom.relationName, given] at target
    rw [given]
    exact congrArg some target
  · rintro ⟨rule, ruled, a, head, given⟩
    obtain ⟨other, r, given', found, length, columns⟩ := fits rule ruled a head
    obtain rfl : name = other := Option.some.inj (given.symm.trans given')
    obtain ⟨es, listed, made⟩ := Compiled.forall₂_result recorded.entries ruled
    obtain ⟨read, written, -, writes, all, -⟩ := entries_ok made
    obtain ⟨r', known', placed⟩ := (places_ok writes).1 a head
    have found' := within _ _ (Catalog.relation_ok.mp known')
    rw [Atom.relationName_of_relation given] at found'
    obtain rfl : r = r' := Option.some.inj (found.symm.trans found')
    have first : 0 < r.columns.length := List.length_pos_iff.mpr columns
    have entry := all _ (placed (mem_placesOf_getElem (length ▸ first) first))
    obtain ⟨c, inside, same⟩ := recorded.columns.covered _ (.inr ⟨es, listed, entry⟩)
    refine ⟨c, inside, r.columns[0].name, ?_⟩
    rw [same, ← named _ _ found]
    rfl

theorem Sound.mono {c c' : Catalog} (sound : s.Sound c) (within : c.Within c') : s.Sound c' where
  registered := within _ _ sound.registered
  recorded := by
    obtain ⟨known, rows, earlier, recorded⟩ := sound.recorded
    exact ⟨known, rows, earlier.trans within, recorded⟩
  sources := sound.sources
  targets := by
    obtain ⟨known, earlier, targets⟩ := sound.targets
    exact ⟨known, earlier.trans within, targets⟩

end Stage

structure Build.Led (b b' : Build) (stages : List Stage) : Prop where
  within : b.catalog.Within b'.catalog
  named : b.catalog.IsNamed → b'.catalog.IsNamed
  sound : ∀ s ∈ stages, s.Sound b'.catalog
  fresh : ∀ s ∈ stages, b.catalog.relations.contains s.relation.name = false
  distinct : (stages.map fun s => s.relation.name).Nodup
  sources : b'.exchange.sourceToProvenance =
    b.exchange.sourceToProvenance ++ stages.flatMap Stage.sources
  targets : b'.exchange.provenanceToTarget =
    b.exchange.provenanceToTarget ++ stages.flatMap Stage.targets
  edited : b'.exchange.localRules = b.exchange.localRules ∧ b'.exchange.edb = b.exchange.edb
  derived : ∀ name, b'.exchange.idb.has name = true ↔
    b.exchange.idb.has name = true ∨ ∃ s ∈ stages, s.relation.name = name

namespace Build

variable {b b' b'' : Build} {first later : List Stage} {trust : TrustPolicy}

theorem led_nil (b : Build) : b.Led b [] where
  within _ _ found := found
  named := id
  sound := nofun
  fresh := nofun
  distinct := .nil
  sources := by simp
  targets := by simp
  edited := ⟨rfl, rfl⟩
  derived := by simp

theorem Led.append (led : b.Led b' first) (more : b'.Led b'' later) :
    b.Led b'' (first ++ later) where
  within := led.within.trans more.within
  named named := more.named (led.named named)
  sound := List.forall_mem_append.mpr ⟨fun s member => (led.sound s member).mono more.within, more.sound⟩
  fresh := by
    refine List.forall_mem_append.mpr ⟨led.fresh, fun s member => ?_⟩
    cases present : b.catalog.relations.contains s.relation.name with
    | false => rfl
    | true =>
      obtain ⟨r, found⟩ := NameMap.get?_of_contains present
      rw [← more.fresh s member, NameMap.contains_of_get? (led.within _ _ found)]
  distinct := by
    rw [List.map_append, List.nodup_append]
    refine ⟨led.distinct, more.distinct, ?_⟩
    intro name member other later same
    obtain ⟨s, old, rfl⟩ := List.mem_map.mp member
    obtain ⟨t, new, rfl⟩ := List.mem_map.mp later
    have present := NameMap.contains_of_get? (led.sound s old).registered
    rw [same, more.fresh t new] at present
    cases present
  sources := by rw [more.sources, led.sources, List.flatMap_append, List.append_assoc]
  targets := by rw [more.targets, led.targets, List.flatMap_append, List.append_assoc]
  edited := ⟨more.edited.1.trans led.edited.1, more.edited.2.trans led.edited.2⟩
  derived name := by
    rw [more.derived, led.derived, or_assoc]
    simp only [List.mem_append, or_and_right, exists_or]

theorem led_addGroup {g : Synthesis.Group} (columns : g.relation.columns = [])
    (rules : g.relation.rules = []) (ran : Synthesis.addGroup trust g b = (b', .ok ())) :
    ∃ s : Stage, s.members = g.members ∧ s.FilledUnder trust ∧ b.Led b' [s] := by
  obtain ⟨p, targets, filled, made, new, relations, exchange⟩ := Synthesis.addGroup_ok ran
  obtain ⟨rows, recorded, -⟩ := ProvenanceRelation.recorded_addRules columns rules filled
  have within : b.catalog.Within b'.catalog := Catalog.within_insert (r := p.relation) new relations
  refine ⟨⟨g.members, p, g.members.mapIdx (p.sourceRule b'.catalog trust), targets⟩, rfl, ⟨_, rfl⟩, within,
    fun named => named.insert (r := p.relation) relations, ?_, by simpa using new, by simp, ?_, ?_,
    ?_, ?_⟩
  · refine List.forall_mem_singleton.mpr ⟨?_, ⟨_, rows, within, recorded⟩, ⟨_, trust, rfl⟩,
      ⟨_, fun _ _ found => found, made⟩⟩
    rw [relations]
    exact (NameMap.get?_insert ..).trans (if_pos rfl)
  · simp [exchange]
  · simp [exchange]
  · exact ⟨by rw [exchange], by rw [exchange]⟩
  · intro name
    rw [exchange, NameSet.has_add, or_comm]
    simp

theorem led_addGroups {gs : List Synthesis.Group}
    (empty : ∀ g ∈ gs, g.relation.columns = [] ∧ g.relation.rules = [])
    (ran : Build.inOrder (gs.map (Synthesis.addGroup trust)) b = (b', .ok ())) :
    ∃ stages, stages.map Stage.members = gs.map Synthesis.Group.members ∧
      (∀ s ∈ stages, s.FilledUnder trust) ∧ b.Led b' stages := by
  induction gs generalizing b with
  | nil =>
    cases ran
    exact ⟨[], rfl, List.forall_mem_nil _, led_nil _⟩
  | cons g rest ih =>
    obtain ⟨⟨columns, rules⟩, others⟩ := List.forall_mem_cons.mp empty
    rw [List.map_cons, Build.inOrder] at ran
    split at ran
    · rename_i middle added
      obtain ⟨s, own, filled, led⟩ := led_addGroup columns rules added
      obtain ⟨stages, members, each, more⟩ := ih others ran
      exact ⟨s :: stages, by simp [own, members], List.forall_mem_cons.mpr ⟨filled, each⟩, led.append more⟩
    · rename_i failed
      exact absurd ran (failed b')

theorem led_addViews {members : List ProvenanceRelation} {targets : List String}
    (ran : Build.inOrder (targets.map (Synthesis.addView members)) b = (b', .ok ())) :
    b.Led b' [] := by
  refine inOrder_keeps (P := fun c => b.Led c []) ?_ (led_nil b) ran
  intro step listed c c' led stepped
  obtain ⟨target, -, rfl⟩ := List.mem_map.mp listed
  obtain ⟨r, -, ⟨-, rfl⟩ | ⟨built, -, new, relations, exchange⟩⟩ := Synthesis.addView_ok stepped
  · exact led
  · have within : c.catalog.Within c'.catalog := Catalog.within_insert new relations
    exact ⟨led.within.trans within, fun named => (led.named named).insert relations,
      fun s member => (led.sound s member).mono within, led.fresh, led.distinct,
      by rw [exchange]; exact led.sources, by rw [exchange]; exact led.targets,
      by rw [exchange]; exact led.edited, by rw [exchange]; exact led.derived⟩

end Build

namespace Synthesis

variable {catalog : Catalog} {mode : ProvenanceMode} {rules : List Rule} {gs : List Group}
  {rule : Rule}

theorem forall_joinGroup {P : Group → Prop}
    (new : P ⟨⟨provenanceName rule.headRelation, .outerUnion, headPeer? catalog rule, [], [], .empty,
      false⟩, [rule]⟩)
    (more : ∀ g, P g → g.relation.name = provenanceName rule.headRelation →
      P { g with members := g.members ++ [rule] }) (each : ∀ g ∈ gs, P g) :
    ∀ g ∈ joinGroup catalog rule gs, P g := by
  induction gs with
  | nil => exact List.forall_mem_singleton.mpr new
  | cons g rest ih =>
    obtain ⟨here, later⟩ := List.forall_mem_cons.mp each
    unfold joinGroup
    split
    · rename_i same
      exact List.forall_mem_cons.mpr ⟨more g here same, later⟩
    · exact List.forall_mem_cons.mpr ⟨here, ih later⟩

-- A group before its rules are added: of one rule, or of all rules into one relation.
structure Group.IsOpen (mode : ProvenanceMode) (g : Group) : Prop where
  columns : g.relation.columns = []
  rules : g.relation.rules = []
  lone : mode ≠ .outerUnion → ∃ rule, g.members = [rule]
  shared : mode = .outerUnion → ∀ r ∈ g.members, provenanceName r.headRelation = g.relation.name

theorem open_of_groups (made : groups catalog mode rules = .ok gs) : ∀ g ∈ gs, g.IsOpen mode := by
  have own (other : mode ≠ .outerUnion) : ∀ g ∈ rules.map (ownGroup catalog), g.IsOpen mode := by
    intro g member
    obtain ⟨rule, -, rfl⟩ := List.mem_map.mp member
    exact ⟨rfl, rfl, fun _ => ⟨rule, rfl⟩, fun same => absurd same other⟩
  unfold groups at made
  split at made
  · obtain ⟨-, -, made⟩ := Compiled.bind_ok.mp made
    cases made
    exact own nofun
  · obtain ⟨-, -, made⟩ := Compiled.bind_ok.mp made
    cases made
    exact own nofun
  · obtain ⟨-, -, made⟩ := Compiled.bind_ok.mp made
    cases made
    refine List.foldlRecOn rules _ (motive := fun gs : List Group => ∀ g ∈ gs, g.IsOpen .outerUnion)
      (by simp) ?_
    intro gs each rule _
    refine forall_joinGroup ?_ (fun g opened same => ?_) each
    · exact ⟨rfl, rfl, fun other => absurd rfl other, fun _ => List.forall_mem_singleton.mpr rfl⟩
    · exact ⟨opened.columns, opened.rules, fun other => absurd rfl other, fun given =>
        List.forall_mem_append.mpr ⟨opened.shared given, List.forall_mem_singleton.mpr same.symm⟩⟩

-- In a group whose rules have single heads where they share it, each derives into the same
-- relations.
theorem Group.IsOpen.uniform {g : Group} {s : Stage} (opened : g.IsOpen mode)
    (members : s.members = g.members)
    (single : mode = .outerUnion → ∀ r ∈ g.members, r.head.length = 1)
    (related : ∀ r ∈ g.members, ∀ a ∈ r.head, a.relation?.isSome = true) : s.IsUniform := by
  intro r member a head other inside
  rw [members] at member inside
  by_cases shared : mode = .outerUnion
  · obtain ⟨b, heads⟩ := List.length_eq_one_iff.mp (single shared other inside)
    obtain ⟨c, heads'⟩ := List.length_eq_one_iff.mp (single shared r member)
    rw [heads', List.mem_singleton] at head
    subst head
    have same := (opened.shared shared other inside).trans (opened.shared shared r member).symm
    have equal : b.relationName = a.relationName := by
      simpa [provenanceName, String.append_right_inj, Rule.headRelation, Rule.head?, heads, heads']
        using same
    obtain ⟨m, named⟩ := Option.isSome_iff_exists.mp (related other inside b (by simp [heads]))
    obtain ⟨n, named'⟩ := Option.isSome_iff_exists.mp (related r member a (by simp [heads']))
    rw [Atom.relationName, Atom.relationName, named, named'] at equal
    exact ⟨b, by simp [heads], by rw [named, named']; exact congrArg some equal⟩
  · obtain ⟨rule, alone⟩ := opened.lone shared
    rw [alone, List.mem_singleton] at member inside
    subst member inside
    exact ⟨a, head, rfl⟩

-- The build before views are added, and the stages of both.
structure Staged (catalog : Catalog) (trust : TrustPolicy) (rules : List Rule) (grouped b : Build)
    (stages : List Stage) : Prop where
  first : ({ catalog := catalog } : Build).Led grouped stages
  led : ({ catalog := catalog } : Build).Led b stages
  members : ∀ r, r ∈ stages.flatMap Stage.members ↔ r ∈ rules
  trusting : ∀ s ∈ stages, s.FilledUnder trust
  within : grouped.catalog.Within b.catalog
  origin : ∀ name r, grouped.catalog.relations.get? name = some r →
    catalog.relations.get? name = some r ∨ r.role = .provenance

theorem Staged.given {trust : TrustPolicy} {grouped b : Build} {stages : List Stage} {s : Stage} {r : Rule}
    (staged : Staged catalog trust rules grouped b stages) (member : s ∈ stages) (inside : r ∈ s.members) :
    r ∈ rules := (staged.members r).mp (List.mem_flatMap.mpr ⟨s, member, inside⟩)

variable {config : Config} {trust : TrustPolicy} {b : Build}

theorem synthesize_stages
    (ran : synthesize config trust rules { catalog := catalog } = (b, .ok ())) :
    ∃ gs grouped stages, groups catalog config.provenance rules = .ok gs ∧
      stages.map Stage.members = gs.map Group.members ∧
      Staged catalog trust rules grouped b stages := by
  obtain ⟨gs, grouped, made, added, shown⟩ := synthesize_ok ran
  have opened := open_of_groups made
  obtain ⟨stages, members, filled, first⟩ := Build.led_addGroups
    (fun g member => ⟨(opened g member).columns, (opened g member).rules⟩) added
  have origin : ∀ name r, grouped.catalog.relations.get? name = some r →
      catalog.relations.get? name = some r ∨ r.role = .provenance := by
    refine Build.inOrder_keeps (P := fun c => ∀ name r, c.catalog.relations.get? name = some r →
      catalog.relations.get? name = some r ∨ r.role = .provenance) ?_ (fun _ _ => .inl) added
    intro step listed c c' known stepped name r found
    obtain ⟨g, -, rfl⟩ := List.mem_map.mp listed
    obtain ⟨p, -, -, -, -, relations, -⟩ := addGroup_ok stepped
    rw [relations, NameMap.get?_insert] at found
    split at found
    · cases found
      exact .inr rfl
    · exact known name r found
  have further : grouped.Led b [] := by
    rcases shown with rfl | shown
    · exact Build.led_nil _
    · exact Build.led_addViews shown
  refine ⟨gs, grouped, stages, made, members, first, ?_, fun r => ?_, filled, further.within, origin⟩
  · simpa using first.append further
  · rw [← (groups_parts made).2 r, List.flatMap_def, List.flatMap_def, members]

end Synthesis

end PeerExchange
