import PeerExchange.Proofs.ConformingRuns
import PeerExchange.Proofs.MaintainablePrograms
import PeerExchange.Proofs.MergedGroups

namespace PeerExchange

open Lowering (Quiet Rereads)
open Sql (Database)

theorem Lowering.rereads_iff {catalog : Catalog} {rule : Rule} {head : Atom}
    {r : Relation} (named : catalog.IsNamed) (apart : catalog.TablesApart)
    (heads : rule.head = [head]) (found : catalog.relations.get? head.relationName = some r)
    (stored : r.isStored = true)
    (known : ∀ a ∈ rule.body, a.builtin? = none → ∃ r', catalog.relations.get? a.relationName = some r') :
    Rereads catalog rule ↔ ∃ a ∈ rule.body, a.builtin? = none ∧ a.relationName = head.relationName ∧
      a.kind = head.kind := by
  have table {a : Atom} {r : Relation} (has : catalog.relations.get? a.relationName = some r) :
      RowSemantics.tableOf catalog a = r.tableName a.kind := by
    rw [RowSemantics.tableOf, has]
    rfl
  rw [Rereads, heads]
  constructor
  · rintro ⟨_, only, a, inside, called, same⟩
    cases List.mem_singleton.mp only
    obtain ⟨r', has⟩ := known a inside called
    rw [table found, table has] at same
    obtain ⟨rfl, kinds⟩ := apart r (NameMap.mem_values.mpr ⟨_, found⟩) stored r'
      (NameMap.mem_values.mpr ⟨_, has⟩) head.kind a.kind same.symm
    exact ⟨a, inside, called, (named _ _ has).symm.trans (named _ _ found), kinds⟩
  · rintro ⟨a, inside, called, same, kinds⟩
    refine ⟨head, List.mem_singleton_self _, a, inside, called, ?_⟩
    rw [table found, table (same ▸ found), kinds]

namespace Maintenance

-- A safe rule over contents, into one relation that is stored.
structure IsStoring (catalog : Catalog) (r : Rule) : Prop where
  safe : r.IsSafe catalog
  contents : r.IsOverContents
  single : ∃ head relation, r.head = [head] ∧ head.relation?.isSome = true ∧ head.optional = false ∧
    catalog.relations.get? head.relationName = some relation ∧ relation.isStored = true

def Recurs (d : Direction) (rule : Rule) : Prop :=
  ∃ a ∈ rule.body, a.isPositive = true ∧ a.kind = d.kind ∧ a.relationName = rule.headRelation

section Changes

variable {x : Exchange} {marked : Catalog} {d : Direction} {r changed : Rule} {s : Stratum}
  {inside : Bool} {rules : List Rule}

theorem mem_changesOf_storing (storing : IsStoring marked r)
    (member : changed ∈ changesOf d s.relations s.recursive inside r) :
    ∃ head a, ∃ position : Nat, r.head = [head] ∧ a ∈ r.body ∧ a.isPositive = true ∧
      (s.recursive && s.relations.contains a.relationName) = inside ∧
      changed.head = [head.withKind d.kind] ∧ changed.headRelation = r.headRelation ∧
      changed.body = r.body.set position (a.withKind d.kind) ++ exclusion d head inside := by
  obtain ⟨head, _, heads, -⟩ := storing.single
  obtain ⟨position, a, placed, joined, made⟩ := (mem_changesOf heads).mp member
  cases made
  refine ⟨head, a, position, heads, List.mem_of_getElem? placed, joined, rfl, rfl, ?_, rfl⟩
  rw [Rule.headRelation, Rule.headRelation, Rule.head?, Rule.head?, heads]
  rfl

-- A change of a rule rereads what changes its own relation, and the deletions that it keeps out.
theorem rereads_change (named : marked.IsNamed) (apart : marked.TablesApart) (pending : d.kind ≠ .base)
    (storing : IsStoring marked r)
    (member : changed ∈ changesOf d s.relations s.recursive inside r) :
    Rereads marked changed ↔ Recurs d changed ∨ d.kind = .deletion ∧ inside = true := by
  obtain ⟨head, a, position, heads, old, joined, -, into, same, body⟩ :=
    mem_changesOf_storing storing member
  obtain ⟨_, relation, heads', related, -, found, stored⟩ := storing.single
  cases heads.symm.trans heads'
  have base : head.kind = .base := storing.contents.head head (heads ▸ List.mem_singleton_self _)
  have own : r.headRelation = head.relationName := by
    rw [Rule.headRelation, Rule.head?, heads]
    rfl
  have parts {b : Atom} (within : b ∈ changed.body) :
      b ∈ r.body ∨ b = a.withKind d.kind ∨ b ∈ exclusion d head inside := by
    rw [body] at within
    rcases List.mem_append.mp within with joins | excluded
    · rcases List.mem_or_eq_of_mem_set joins with kept | put
      · exact .inl kept
      · exact .inr (.inl put)
    · exact .inr (.inr excluded)
  have known : ∀ b ∈ changed.body, b.builtin? = none →
      ∃ r', marked.relations.get? b.relationName = some r' := by
    intro b within relational
    rcases parts within with kept | rfl | excluded
    · obtain ⟨r', has, -⟩ := (storing.safe.read b kept).known relational
      exact ⟨r', has⟩
    · obtain ⟨r', has, -⟩ := (storing.safe.read a old).known relational
      exact ⟨r', has⟩
    · obtain ⟨-, predicate, -⟩ := mem_exclusion excluded
      refine ⟨relation, ?_⟩
      rw [Atom.relationName, Atom.relation?, predicate]
      exact found
  rw [Lowering.rereads_iff named apart into found stored known]
  constructor
  · rintro ⟨b, within, relational, reads, kind⟩
    rcases parts within with kept | rfl | excluded
    · exact absurd (kind.symm.trans (storing.contents.body b kept)) pending
    · exact .inl ⟨_, within, joined, rfl, reads.trans (same.trans own).symm⟩
    · right
      unfold exclusion at excluded
      split at excluded
      · rename_i deletes
        split at excluded
        · rename_i here
          exact ⟨deletes, here⟩
        · cases excluded
      · cases List.mem_singleton.mp excluded
        exact absurd (kind.symm.trans base) pending
  · rintro (⟨b, within, joins, kind, reads⟩ | ⟨deletes, rfl⟩)
    · exact ⟨b, within, Atom.builtin?_of_isPositive joins, reads.trans (same.trans own), kind⟩
    · refine ⟨(head.withKind .deletion).negate, ?_, Atom.builtin?_of_relation related, rfl, deletes.symm⟩
      rw [body, exclusion, deletes]
      exact List.mem_append_right _ (List.mem_singleton_self _)

theorem not_recurs_below {names : List String} (present : s ∈ strataOf x) (storing : IsStoring marked r)
    (own : r ∈ ownRules (markedRules x.rules names) s) (pending : d.kind ≠ .base)
    (member : changed ∈ changesOf d s.relations s.recursive false r) : ¬ Recurs d changed := by
  rintro ⟨b, within, joins, kind, reads⟩
  obtain ⟨given, own⟩ := mem_ownRules.mp own
  obtain ⟨head, a, position, -, old, joined, below, -, same, body⟩ := mem_changesOf_storing storing member
  rw [body] at within
  rcases List.mem_append.mp within with within | excluded
  · rcases List.mem_or_eq_of_mem_set within with kept | rfl
    · exact absurd (kind.symm.trans (storing.contents.body b kept)) pending
    · have named : a.relationName = r.headRelation := reads.trans same
      obtain ⟨name, related⟩ := Option.isSome_iff_exists.mp (Bool.and_eq_true_iff.mp joined).2
      have edge : Stratification.Edge (Stratification.graph x.rules) r.headRelation r.headRelation := by
        obtain ⟨plain, listed, rfl⟩ := List.mem_map.mp given
        refine Stratification.edge_graph.mpr ⟨plain, listed, List.mem_filterMap.mpr ⟨a, old, ?_⟩, rfl⟩
        rw [← named, related, Atom.relationName_of_relation related]
      have recursive := Stratification.stratum_recursive present own own edge
      rw [named, recursive] at below
      simp [own] at below
  · obtain ⟨negated, -⟩ := mem_exclusion excluded
    cases negated.symm.trans (Atom.negated_of_isPositive joins)

end Changes

section Tables

variable {marked : Catalog} {name suffix : String} {r : Relation} {action : Action}
  {into source : TableKind}

theorem not_rereads_tableRule (found : marked.relations.get? name = some r) (differ : into ≠ source) :
    ¬ Rereads marked (tableRule r name suffix action into source) := by
  have table (kind : TableKind) (args : List Term) :
      RowSemantics.tableOf marked ((Atom.ofRelation name args).withKind kind) = r.tableName kind := by
    rw [RowSemantics.tableOf, show ((Atom.ofRelation name args).withKind kind).relationName = name from rfl,
      found]
    rfl
  rintro ⟨head, only, a, inside, -, same⟩
  cases List.mem_singleton.mp only
  cases List.mem_singleton.mp inside
  rw [table, table] at same
  exact differ (Relation.fold_tableName_injective same)

theorem not_rereads_mergeRule {recursive : Bool} (found : marked.relations.get? name = some r) :
    ¬ Rereads marked (mergeRule r name recursive) := by
  have base : ¬ Rereads marked (tableRule r name "_merge" .derive .base .insertion) :=
    not_rereads_tableRule found (by decide)
  cases recursive <;> exact base

end Tables

section Programs

variable {x : Exchange} {catalog marked : Catalog} {m : Maintenance}

theorem Origin.inner {rules : List Rule} {s : Stratum} {rule : Rule} (origin : Origin marked rules s rule)
    (storing : ∀ r ∈ rules, IsStoring marked r) : rule.IsInner := by
  cases origin with
  | @change d inside r _ step own changed =>
    have stores := storing r (mem_ownRules.mp own).1
    obtain ⟨head, a, position, heads, old, -, -, -, -, body⟩ := mem_changesOf_storing stores changed
    intro b within
    rw [body] at within
    rcases List.mem_append.mp within with within | excluded
    · rcases List.mem_or_eq_of_mem_set within with kept | rfl
      · exact (stores.safe.read b kept).required
      · exact (stores.safe.read a old).required
    · obtain ⟨_, _, heads', -, plain, -⟩ := stores.single
      cases heads.symm.trans heads'
      obtain ⟨-, -, -, same⟩ := mem_exclusion excluded
      exact same.trans plain
  | @rederived r own =>
    have stores := storing r (mem_ownRules.mp own).1
    have plain : ∀ b ∈ r.body, b.optional = false := fun b within => (stores.safe.read b within).required
    refine List.forall_mem_append.mpr ⟨plain, fun b within => ?_⟩
    obtain ⟨a, old, rfl⟩ := List.mem_map.mp within
    exact plain a (List.mem_of_mem_filter old)
  | table => exact List.forall_mem_singleton.mpr rfl
  | merged =>
    cases s.recursive <;> exact List.forall_mem_singleton.mpr rfl

section Groups

variable {d : Direction} {s : Stratum} {names : List String} (named : marked.IsNamed)
  (apart : marked.TablesApart) (storing : ∀ r ∈ markedRules x.rules names, IsStoring marked r)
  (pending : d.kind ≠ .base)

include named apart storing pending

theorem rereads_changeGroup {inside : Bool} {changed : Rule}
    (member : changed ∈ changeGroup d (markedRules x.rules names) s inside) :
    Rereads marked changed ↔ Recurs d changed ∨ d.kind = .deletion ∧ inside = true := by
  obtain ⟨r, own, member⟩ := List.mem_flatMap.mp member
  exact rereads_change named apart pending (storing r (mem_ownRules.mp own).1) member

theorem quiet_below (present : s ∈ strataOf x) :
    Quiet marked (changeGroup d (markedRules x.rules names) s false) := by
  intro changed member _ rereads
  obtain recurs | ⟨-, inside⟩ := (rereads_changeGroup named apart storing pending member).mp rereads
  · obtain ⟨r, own, member⟩ := List.mem_flatMap.mp member
    exact not_recurs_below present (storing r (mem_ownRules.mp own).1) own pending member recurs
  · cases inside

theorem quiet_inside_iff : Quiet marked (changeGroup d (markedRules x.rules names) s true) ↔
    ∀ changed ∈ changeGroup d (markedRules x.rules names) s true,
      ¬ (Recurs d changed ∨ d.kind = .deletion) := by
  refine forall₂_congr fun changed member => ?_
  have derives : changed.action = .derive := by
    obtain ⟨r, own, member⟩ := List.mem_flatMap.mp member
    exact changeRules_action (.inr member)
  rw [rereads_changeGroup named apart storing pending member]
  simp [derives]

end Groups

-- Which groups of a maintenance program read no table that they add to: those that carry changes up
-- from the strata below and those that move tuples between the tables of a relation. Deletions inside a
-- stratum always read what they add to, and insertions where a rule joins the relation that it is for.
theorem quiet_program (built : build x catalog = (marked, .ok m)) (named : marked.IsNamed)
    (apart : marked.TablesApart)
    (storing : ∀ r ∈ markedRules x.rules (recursiveNames x), IsStoring marked r) :
    (∀ s ∈ m.deletion, Quiet marked s.seed ∧ Quiet marked s.rederive ∧
      (Quiet marked s.iterate ↔ s.iterate = [])) ∧
    Quiet marked m.apply ∧
    (∀ s ∈ m.insertion, Quiet marked s.seed ∧ Quiet marked s.merge ∧
      (Quiet marked s.iterate ↔ ∀ rule ∈ s.iterate, ¬ Recurs inserting rule)) ∧
    Quiet marked m.reset := by
  obtain ⟨-, -, parts, each, rfl⟩ := build_made built
  have partOf {part : StratumProgram} (listed : part ∈ parts) := Compiled.forall₂_source each listed
  refine ⟨List.forall_mem_map.mpr fun part listed => ?_, fun rule inside => ?_,
    List.forall_mem_map.mpr fun part listed => ?_, fun rule inside => ?_⟩
  · obtain ⟨s, present, index, made⟩ := partOf listed
    obtain ⟨relations, -, deletion, -⟩ := stratumProgram_parts made
    rw [deletion]
    simp only [deletionStratum, changeGroup_eq]
    refine ⟨quiet_below named apart storing (by decide) present, ?_,
      (quiet_inside_iff named apart storing (by decide)).trans ?_⟩
    · rintro _ inside (derives | replaces) <;> obtain ⟨r, -, rfl⟩ := List.mem_map.mp inside
      · cases derives
      · cases replaces
    · rw [List.eq_nil_iff_forall_not_mem]
      exact forall₂_congr fun rule _ => iff_of_false (fun none => none (.inr rfl)) id
  · obtain ⟨part, listed, inside⟩ := List.mem_flatMap.mp inside
    obtain ⟨s, present, index, made⟩ := partOf listed
    obtain ⟨relations, -, -, -, applied⟩ := stratumProgram_parts made
    rw [applied] at inside
    obtain ⟨entry, -, rfl⟩ := List.mem_map.mp inside
    rintro (derives | replaces)
    · cases derives
    · cases replaces
  · obtain ⟨s, present, index, made⟩ := partOf listed
    obtain ⟨relations, resolved, -, insertion, -⟩ := stratumProgram_parts made
    rw [insertion]
    simp only [insertionStratum, changeGroup_eq]
    refine ⟨List.forall_mem_append.mpr ⟨quiet_below named apart storing (by decide) present, ?_⟩, ?_,
      (quiet_inside_iff named apart storing (by decide)).trans ?_⟩
    · rintro _ inside (derives | replaces) <;> obtain ⟨entry, -, rfl⟩ := List.mem_map.mp inside
      · cases derives
      · cases replaces
    · rintro _ inside -
      obtain ⟨entry, listed, rfl⟩ := List.mem_map.mp inside
      exact not_rereads_mergeRule (resolved.known entry listed).2
    · refine forall₂_congr fun rule _ => not_congr (or_iff_left fun replaces => ?_)
      cases replaces
  · obtain ⟨part, listed, inside⟩ := List.mem_flatMap.mp inside
    obtain ⟨s, present, index, made⟩ := partOf listed
    obtain ⟨own, -, -, relation, known, rfl⟩ := (mem_reset made).mp inside
    exact fun _ => not_rereads_tableRule known (by decide)

end Programs

end Maintenance

namespace Compilation

variable {text : String} {program : Program} {config : Config} {declared : Catalog} {c : Compilation}
  {m : Maintenance}

theorem Formed.storing (formed : Formed declared c) (own : declared.IsDeclared)
    (written : ∀ m ∈ declared.mappings, m.IsWritten) (found : c.maintenance = some m) :
    c.catalog.IsNamed ∧ ∃ x catalog, Maintenance.build x catalog = (c.catalog, .ok m) ∧
      ∀ r ∈ Maintenance.markedRules x.rules (Maintenance.recursiveNames x),
        Maintenance.IsStoring c.catalog r := by
  obtain ⟨x, catalog, exchange, built⟩ := formed.maintenance m found
  obtain ⟨b, made, rfl, marks⟩ := formed.exchange x exchange
  obtain ⟨rules, _, _, given, -, composed⟩ := Build.composed_ofCatalog own made
  have tracks := Build.tracks_ofCatalog own made
  have kept {name : String} {r : Relation} (has : c.catalog.relations.get? name = some r) :
      ∃ old, b.catalog.relations.get? name = some old ∧ r.name = old.name ∧ r.isStored = old.isStored := by
    rcases marks name with same | ⟨-, old, held, same⟩
    · exact ⟨r, same.symm.trans has, rfl, rfl⟩
    · cases has.symm.trans same
      exact ⟨old, held, rfl, rfl⟩
  have covers := marks.keepsColumns.covers
  have contents := composed.overContents (Mapping.rules_overContents written given)
  refine ⟨fun name r has => ?_, b.exchange, catalog, built, List.forall_mem_map.mpr fun r inside => ?_⟩
  · obtain ⟨old, held, same, -⟩ := kept has
    exact same.trans (tracks.isNamed name old held)
  · obtain ⟨safe, fills⟩ := composed.safe (Mapping.rules_safe own formed.valid given) r inside
    obtain ⟨head, name, heads, related, derived, -⟩ := Build.heads_derived own formed.valid made r inside
    obtain ⟨only, heads', -, plain, -⟩ := fills
    cases heads.symm.trans heads'
    obtain ⟨relation, known, stored⟩ := Build.stores_ofCatalog own made (.inr derived)
    rw [← Atom.relationName_of_relation related] at known
    obtain ⟨marked, has, -⟩ := marks.keepsColumns _ _ known
    obtain ⟨_, held, -, same⟩ := kept has
    cases known.symm.trans held
    have safe := safe.mono covers
    exact ⟨⟨safe.body, safe.read, safe.resolved, safe.computed⟩, ⟨(contents r inside).head,
      (contents r inside).body⟩, head, marked, heads, Option.isSome_of_eq_some related, plain, has,
      same.trans stored⟩

-- What merging leaves as it is without set semantics: the groups that do not see what they add, which
-- are all but those inside the strata.
theorem quiet_groups_execute (parsed : Program.parse text = .ok program)
    (reached : Reached program.catalog config c) (found : c.maintenance = some m)
    (apart : c.catalog.TablesApart) (bags : c.config.setSemantics = false) :
    (∀ g ∈ m.groups, Quiet c.catalog g.rules → ∀ iteration k db n db',
      Database.Executes k (Lowering.lowerGroup c.catalog c.config iteration g.rules).statements db n db' ↔
        Database.Executes k (Lowering.lowerGroup c.catalog { c.config with mergeStatements := false }
          iteration g.rules).statements db n db') ∧
    (∀ s ∈ m.deletion, Quiet c.catalog s.seed ∧ Quiet c.catalog s.rederive ∧
      (Quiet c.catalog s.iterate ↔ s.iterate = [])) ∧
    Quiet c.catalog m.apply ∧
    (∀ s ∈ m.insertion, Quiet c.catalog s.seed ∧ Quiet c.catalog s.merge ∧
      (Quiet c.catalog s.iterate ↔ ∀ rule ∈ s.iterate, ¬ Maintenance.Recurs Maintenance.inserting rule)) ∧
    Quiet c.catalog m.reset := by
  obtain ⟨named, x, catalog, built, storing⟩ := reached.formed.storing (Program.parse_declared parsed)
    (Program.written_of_parse parsed) found
  refine ⟨fun g listed quiet iteration k db n db' => ?_,
    Maintenance.quiet_program built named apart storing⟩
  refine Lowering.lowerGroup_executes_iff bags fun rule inside => ?_
  obtain ⟨s, present, origin⟩ := Maintenance.origin_of_build built (Maintenance.mem_groups listed inside)
  exact Lowering.readsOthers_statementsOf named bags (origin.inner storing) (quiet rule inside)

end Compilation

end PeerExchange
