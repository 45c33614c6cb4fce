import PeerExchange.Proofs.CompiledCatalogs
import PeerExchange.Proofs.MaintenanceNames
import PeerExchange.Proofs.ProvenanceStages
import PeerExchange.Proofs.RuleTypes
import PeerExchange.Proofs.UnfoldingRounds

namespace PeerExchange

open Provenance

namespace Catalog

variable {c c' declared : Catalog} {name : String} {config : Config} {trust : TrustPolicy}

def Knows (c : Catalog) (name : String) : Prop :=
  ∃ r, c.relations.get? name = some r ∧ r.role ≠ .view

def Stores (c : Catalog) (name : String) : Prop :=
  ∃ r, c.relations.get? name = some r ∧ r.isStored = true

theorem stores_iff : c.Stores name ↔ c.Knows name ∧ c.isVirtual name = false := by
  constructor
  · rintro ⟨r, found, stored⟩
    simp only [Relation.isStored, Bool.and_eq_true, decide_eq_true_eq] at stored
    exact ⟨⟨r, found, stored.2⟩, by simp [isVirtual, found, stored.1]⟩
  · rintro ⟨⟨r, found, role⟩, real⟩
    refine ⟨r, found, ?_⟩
    simp only [isVirtual, found, Bool.not_eq_false'] at real
    simp [Relation.isStored, real, role]

theorem Knows.mono (known : c.Knows name) (within : c.Within c') : c'.Knows name := by
  obtain ⟨r, found, role⟩ := known
  exact ⟨r, within _ _ found, role⟩

theorem Stores.mono (stored : c.Stores name) (within : c.Within c') : c'.Stores name := by
  obtain ⟨r, found, stored⟩ := stored
  exact ⟨r, within _ _ found, stored⟩

def Over (P : String → Prop) (a : Atom) : Prop := ∃ name, a.relation? = some name ∧ P name

def Reads (P : String → Prop) (a : Atom) : Prop := ∀ name, a.relation? = some name → P name

theorem steady_over (P : String → Prop) : Atom.Steady (Over P) := fun _ _ related => related

theorem steady_reads (P : String → Prop) : Atom.Steady (Reads P) := fun _ _ reads => reads

theorem marked_stores {names : List String} {marked : Catalog}
    (ran : Maintenance.markStratified names c = (marked, .ok ())) :
    marked.Stores name ↔ c.Stores name := by
  induction names generalizing c with
  | nil =>
    cases ran
    exact Iff.rfl
  | cons first rest ih =>
    unfold Maintenance.markStratified at ran
    split at ran
    · cases congrArg Prod.snd ran
    · rename_i r known
      rw [ih ran]
      have found := relation_ok.mp known
      unfold Stores
      rw [NameMap.get?_insert]
      split
      · rename_i same
        subst same
        rw [found]
        simp [Relation.isStored]
      · exact Iff.rfl

end Catalog

namespace Mapping

variable {declared : Catalog} {config : Config} {trust : TrustPolicy} {m : Rule} {rules : List Rule}

theorem steady_fits : Atom.Steady (Atom.Fits declared) := by
  rintro f a ⟨name, r, named, found, length, columns⟩
  exact ⟨name, r, named, found, (List.length_map _).trans length, columns⟩

theorem fits_of_checked {uses : List Catalog.Use} {a : Atom} (own : declared.IsDeclared)
    (checked : declared.Checked uses a) (related : a.relation?.isSome = true) : a.Fits declared := by
  obtain ⟨name, named⟩ := Option.isSome_iff_exists.mp related
  obtain ⟨r, found, arity⟩ := checked.known name named
  exact ⟨name, r, named, found, arity, (own.relations name r found).2.2⟩

variable (own : declared.IsDeclared) (valid : declared.validate = .ok ())

include own valid

theorem fits_mapping (member : m ∈ declared.mappings) :
    (∀ a ∈ m.head, a.Fits declared) ∧
      ∀ a ∈ m.body, a.relation?.isSome = true → a.Fits declared := by
  obtain ⟨uses, checked⟩ := Catalog.validateRule_types (Catalog.validateRule_of_validate valid member)
  obtain ⟨heads, body⟩ := List.forall_mem_append.mp checked
  exact ⟨fun a head => fits_of_checked own (heads a head) ((own.mappings m member).heads a head),
    fun a inside => fits_of_checked own (body a inside)⟩

theorem fits_inverse {inverse : Rule} (member : m ∈ declared.mappings)
    (made : m.inverse? = some inverse) : ∀ a ∈ inverse.head, a.Fits declared := by
  unfold Rule.inverse? at made
  split at made
  · rename_i head source heads body
    split at made
    · rename_i joined
      cases made
      simp only [Bool.and_eq_true, Atom.isPositive] at joined
      obtain ⟨name, r, named, found, length, columns⟩ :=
        (fits_mapping own valid member).2 source (by simp [body]) joined.1.2
      refine List.forall_mem_singleton.mpr ⟨name, r, ?_, found, ?_, columns⟩
      · change some source.relationName = some name
        rw [Atom.relationName_of_relation named]
      · simpa [Rule.plainAtom, Atom.ofRelation] using length
    · cases made
  · cases made

theorem fits_heads (member : m ∈ withInverses config (trusted declared trust)) :
    ∀ a ∈ m.head, a.Fits declared := by
  rcases mem_withInverses.mp member with direct | ⟨-, source, direct, made⟩
  · exact (fits_mapping own valid (mem_trusted.mp direct).1).1
  · exact fits_inverse own valid (mem_trusted.mp direct).1 made

-- The rules that the exchange program is made from: their heads fit the declared relations, and
-- nothing in their bodies is negated.
theorem rules_fit (given : Mapping.rules declared config trust = .ok rules) :
    ∀ r ∈ rules, r.Has (Atom.Fits declared) (·.negated = false) := by
  obtain ⟨⟨⟩, supported, given⟩ := Compiled.bind_ok.mp given
  obtain ⟨⟨⟩, -, given⟩ := Compiled.bind_ok.mp given
  obtain ⟨⟨⟩, -, given⟩ := Compiled.bind_ok.mp given
  cases given
  refine List.forall_mem_flatMap.mpr fun m member =>
    has_toRules steady_fits ⟨fits_heads own valid member,
      (checkSupported_ok (Compiled.forM_ok supported m member)).1⟩

end Mapping

namespace Synthesis

open Catalog

variable {declared : Catalog} {trust : TrustPolicy} {rules : List Rule} {grouped b : Build}
  {stages : List Stage} {s : Stage} {name : String}

theorem Staged.knows (staged : Staged declared trust rules grouped b stages) (own : declared.IsDeclared)
    {r : Relation} (found : grouped.catalog.relations.get? name = some r) : b.catalog.Knows name := by
  refine ⟨r, staged.within _ _ found, ?_⟩
  rcases staged.origin name r found with given | role
  · rw [(own.relations name r given).2.1]
    nofun
  · rw [role]
    nofun

theorem Staged.stores (staged : Staged declared trust rules grouped b stages) (member : s ∈ stages) :
    b.catalog.Stores s.relation.name :=
  ⟨_, (staged.led.sound s member).registered, rfl⟩

-- What the stages add: rules into their relations from what the mappings read, and rules out of
-- their relations.
theorem Staged.sources (staged : Staged declared trust rules grouped b stages) (own : declared.IsDeclared)
    (positive : ∀ r ∈ rules, ∀ a ∈ r.body, a.negated = false) :
    ∀ r ∈ b.exchange.sourceToProvenance,
      r.Has (Over fun name => b.catalog.Stores name ∧ b.exchange.idb.has name = true)
        (Reads b.catalog.Knows) := by
  intro r inside
  rw [staged.led.sources, List.nil_append] at inside
  obtain ⟨s, member, inside⟩ := List.mem_flatMap.mp inside
  obtain ⟨known, trust, sources⟩ := (staged.first.sound s member).sources
  rw [sources] at inside
  obtain ⟨i, bound, rfl⟩ := List.mem_mapIdx.mp inside
  constructor
  · rw [ProvenanceRelation.head_sourceRule]
    exact List.forall_mem_singleton.mpr ⟨_, rfl, staged.stores member,
      (staged.led.derived _).mpr (.inr ⟨s, member, rfl⟩)⟩
  · intro a read name named
    have ruled := List.getElem_mem bound
    obtain ⟨seen, rows, within, recorded⟩ := (staged.first.sound s member).recorded
    obtain ⟨es, -, made⟩ := Compiled.forall₂_result recorded.entries ruled
    obtain ⟨places, -, reads, -⟩ := entries_ok made
    have joined : a ∈ s.members[i].body.filter Atom.isPositive := by
      refine List.mem_filter.mpr ⟨read, ?_⟩
      simp [Atom.isPositive, positive _ (staged.given member ruled) a read, named]
    obtain ⟨r, found, -⟩ := (places_ok reads).1 a joined
    rw [Atom.relationName_of_relation named] at found
    exact staged.knows own (within _ _ (relation_ok.mp found))

theorem Staged.targets (staged : Staged declared trust rules grouped b stages) (own : declared.IsDeclared) :
    ∀ r ∈ b.exchange.provenanceToTarget,
      r.IsSingle ∧ r.Has (Over b.catalog.Knows) (Over b.catalog.Stores) := by
  intro q inside
  rw [staged.led.targets, List.nil_append] at inside
  obtain ⟨s, member, inside⟩ := List.mem_flatMap.mp inside
  obtain ⟨known, within, targets⟩ := (staged.first.sound s member).targets
  obtain ⟨target, -, made⟩ := Compiled.forall₂_source (Compiled.forall₂_of_mapM targets) inside
  obtain ⟨r, args, found, -, heads, body, -⟩ := ProvenanceRelation.targetRule_ok made
  refine ⟨⟨_, heads⟩, ?_, ?_⟩
  · rw [heads]
    exact List.forall_mem_singleton.mpr
      ⟨target, rfl, staged.knows own (within _ _ (relation_ok.mp found))⟩
  · rw [body]
    exact List.forall_mem_singleton.mpr ⟨_, rfl, staged.stores member⟩

theorem Staged.single (staged : Staged declared trust rules grouped b stages) (own : declared.IsDeclared) :
    ∀ r ∈ b.exchange.mappingRules, r.IsSingle := by
  refine List.forall_mem_append.mpr ⟨fun r inside => ?_, fun r inside =>
    (staged.targets own r inside).1⟩
  rw [staged.led.sources, List.nil_append] at inside
  obtain ⟨s, member, inside⟩ := List.mem_flatMap.mp inside
  obtain ⟨known, trust, sources⟩ := (staged.led.sound s member).sources
  rw [sources] at inside
  obtain ⟨i, bound, rfl⟩ := List.mem_mapIdx.mp inside
  exact ⟨_, ProvenanceRelation.head_sourceRule⟩

end Synthesis

section Composition

open Unfolding

variable {catalog : Catalog} {x y : Exchange} {fresh fresh' : FreshNames} {rules composed : List Rule}

-- Virtual relations are read no more, if one of them is defined or none was read. Where none is
-- defined, nothing is unfolded.
theorem Exchange.composeVirtual_reads (ran : x.composeVirtual catalog fresh = (y, .ok ()))
    (single : ∀ r ∈ x.mappingRules, r.IsSingle) :
    (∀ r ∈ y.sourceToProvenance, virtualAtom? catalog r = none) ↔
      (∃ q ∈ x.provenanceToTarget, catalog.isVirtual q.headRelation = true) ∨
        ∀ r ∈ x.sourceToProvenance, virtualAtom? catalog r = none := by
  unfold composeVirtual at ran
  rw [List.partition_eq_filter_filter] at ran
  dsimp only at ran
  split at ran
  · rename_i undefined
    cases ran
    refine (or_iff_right ?_).symm
    rintro ⟨q, member, virtual⟩
    exact absurd virtual (List.filter_eq_nil_iff.mp (List.isEmpty_iff.mp undefined) q member)
  · rename_i defined
    split at ran
    · rename_i composed made
      cases ran
      obtain ⟨q, member, virtual⟩ : ∃ q ∈ x.provenanceToTarget,
          catalog.isVirtual q.headRelation = true := by simpa using defined
      have listed : q ∈ x.provenanceToTarget.filter fun r => catalog.isVirtual r.headRelation :=
        List.mem_filter.mpr ⟨member, virtual⟩
      refine iff_of_true (virtualAtom?_of_compose made ?_ ?_) (.inl ⟨q, member, virtual⟩)
      · refine List.ne_nil_of_mem (a := q) (mem_definitionsOf.mpr ⟨?_, virtual⟩)
        exact List.mem_append_right _ listed
      · intro d defined
        rcases List.mem_append.mp (mem_definitionsOf.mp defined).1 with source | definition
        · exact single d (List.mem_append_left _ source)
        · exact single d (List.mem_append_right _ (List.mem_of_mem_filter definition))
    · cases ran

theorem Exchange.composeVirtual_parts (ran : x.composeVirtual catalog fresh = (y, .ok ())) :
    (∀ r ∈ y.provenanceToTarget,
      r ∈ x.provenanceToTarget ∧ catalog.isVirtual r.headRelation = false) ∧
    (y.sourceToProvenance = x.sourceToProvenance ∨ ∃ fresh',
      compose catalog (x.sourceToProvenance ++
        x.provenanceToTarget.filter fun r => catalog.isVirtual r.headRelation) fresh =
          .ok (y.sourceToProvenance, fresh')) := by
  unfold composeVirtual at ran
  rw [List.partition_eq_filter_filter] at ran
  have left : ∀ r ∈ x.provenanceToTarget.filter (not ∘ fun r => catalog.isVirtual r.headRelation),
      r ∈ x.provenanceToTarget ∧ catalog.isVirtual r.headRelation = false := by
    intro r inside
    simpa using List.mem_filter.mp inside
  dsimp only at ran
  split at ran
  · cases ran
    exact ⟨left, .inl rfl⟩
  · split at ran
    · rename_i composed made
      cases ran
      exact ⟨left, .inr ⟨_, made⟩⟩
    · cases ran

theorem Exchange.composeVirtual_has {H B : Atom → Prop} (heads : Atom.Steady H)
    (bodies : Atom.Steady B) (equations : ∀ args, B (.ofBuiltin .eq args))
    (ran : x.composeVirtual catalog fresh = (y, .ok ()))
    (sources : ∀ r ∈ x.sourceToProvenance, r.Has H B)
    (targets : ∀ r ∈ x.provenanceToTarget, ∀ a ∈ r.body, B a) :
    ∀ r ∈ y.sourceToProvenance, r.Has H B := by
  rcases (composeVirtual_parts ran).2 with same | ⟨fresh', made⟩
  · exact same ▸ sources
  · refine has_compose heads bodies equations ?_ ?_ made
    · intro d defined
      rcases List.mem_append.mp (mem_definitionsOf.mp defined).1 with source | definition
      · exact (sources d source).body
      · exact targets d (List.mem_of_mem_filter definition)
    · intro r member real
      rcases List.mem_append.mp member with source | definition
      · exact sources r source
      · rw [(List.mem_filter.mp definition).2] at real
        cases real

end Composition

section Minimization

variable {catalog : Catalog} {x : Exchange} {r : Rule}

theorem Exchange.mem_minimize_sources : r ∈ (x.minimize catalog).sourceToProvenance ↔
    ∃ q ∈ x.sourceToProvenance, (q.minimize catalog.isProvenance).1 = r := by
  simp [minimize, minimizeRules]

theorem Exchange.mem_minimize_targets : r ∈ (x.minimize catalog).provenanceToTarget ↔
    ∃ q ∈ x.provenanceToTarget, (q.minimize catalog.isProvenance).1 = r := by
  simp [minimize, minimizeRules]

theorem Exchange.minimize_reads
    (apart : ∀ name, catalog.isVirtual name = true → catalog.isProvenance name = false) :
    (∀ r ∈ (x.minimize catalog).sourceToProvenance, Unfolding.virtualAtom? catalog r = none) ↔
      ∀ r ∈ x.sourceToProvenance, Unfolding.virtualAtom? catalog r = none := by
  simp only [mem_minimize_sources, Unfolding.virtualAtom?_eq_none, forall_exists_index, and_imp,
    forall_apply_eq_imp_iff₂]
  refine forall₂_congr fun q _ => ⟨fun real a inside => ?_, fun real a inside => ?_⟩
  · by_contra virtual
    rw [Bool.not_eq_false] at virtual
    obtain ⟨name, named, virtual⟩ := (Option.any_eq_true ..).mp virtual
    obtain ⟨kept, left, same⟩ := Rule.minimize_keeps.2.2 a inside name named (apart name virtual)
    simpa [same, virtual] using real kept left
  · exact real a (Rule.minimize_keeps.2.1 inside)

end Minimization

namespace Synthesis

open Catalog

variable {base b' c c' : Build} {z : Exchange}

-- The build after local contributions are added to an exchange program.
structure Localized (base : Build) (z : Exchange) (c : Build) : Prop where
  within : base.catalog.Within c.catalog
  sources : c.exchange.sourceToProvenance = z.sourceToProvenance
  targets : c.exchange.provenanceToTarget = z.provenanceToTarget
  derived : ∀ name, z.idb.has name = true → c.exchange.idb.has name = true
  views : c.exchange.views = z.views
  locals_ : ∀ q ∈ c.exchange.localRules, ∃ r, q = localRule r ∧ r.isStored = true ∧
    c.catalog.relations.get? r.name = some r ∧
    c.catalog.relations.get? r.localName = some r.localRelation
  relations : ∀ name, c.exchange.edb.has name = true ∨ c.exchange.idb.has name = true →
    c.catalog.Stores name

theorem Localized.stores (localized : Localized base z c) :
    ∀ q ∈ c.exchange.localRules, q.Has (Over c.catalog.Stores) (Over c.catalog.Stores) := by
  intro q member
  obtain ⟨r, rfl, stored, found, edits⟩ := localized.locals_ q member
  exact ⟨List.forall_mem_singleton.mpr ⟨_, rfl, r, found, stored⟩, List.forall_mem_singleton.mpr
    ⟨_, rfl, _, edits, by simpa [Relation.isStored, Relation.localRelation] using
      (Bool.and_eq_true_iff.mp stored).1⟩⟩

theorem Localized.add {r : Relation} (localized : Localized base z c)
    (found : base.catalog.relations.get? r.name = some r) (stored : r.isStored = true)
    (ran : addLocal r c = (c', .ok ())) : Localized base z c' := by
  obtain ⟨new, relations, exchange⟩ := addLocal_ok ran
  have within : c.catalog.Within c'.catalog := within_insert (r := r.localRelation) new relations
  have own := (localized.within.trans within) _ _ found
  have edits : c'.catalog.relations.get? r.localName = some r.localRelation := by
    rw [relations]
    exact (NameMap.get?_insert ..).trans (if_pos rfl)
  have editsStored : r.localRelation.isStored = true := by
    simpa [Relation.isStored, Relation.localRelation] using (Bool.and_eq_true_iff.mp stored).1
  refine ⟨localized.within.trans within, by rw [exchange]; exact localized.sources,
    by rw [exchange]; exact localized.targets, fun name derived => ?_,
    by rw [exchange]; exact localized.views, ?_, fun name given => ?_⟩
  · rw [exchange]
    exact NameSet.has_add.mpr (.inr (localized.derived name derived))
  · rw [exchange]
    refine List.forall_mem_append.mpr ⟨fun q member => ?_, List.forall_mem_singleton.mpr
      ⟨r, rfl, stored, own, edits⟩⟩
    obtain ⟨other, same, stored, found, edits⟩ := localized.locals_ q member
    exact ⟨other, same, stored, within _ _ found, within _ _ edits⟩
  · rw [exchange] at given
    simp only [NameSet.has_add] at given
    rcases given with (rfl | edited) | rfl | derived
    · exact ⟨_, edits, editsStored⟩
    · exact (localized.relations name (.inl edited)).mono within
    · exact ⟨r, own, stored⟩
    · exact (localized.relations name (.inr derived)).mono within

theorem localized_addLocals (named : base.catalog.IsNamed) (locals_ : z.localRules = [])
    (edited : ∀ name, z.edb.has name = false)
    (derived : ∀ name, z.idb.has name = true → base.catalog.Stores name)
    (ran : Build.inOrder ((base.catalog.relations.values.filter fun r =>
      r.role = .peer && r.materialized).map addLocal) { base with exchange := z } = (b', .ok ())) :
    Localized base z b' := by
  refine Build.inOrder_keeps (P := Localized base z) ?_ ?_ ran
  · intro step listed c c' localized stepped
    obtain ⟨r, member, rfl⟩ := List.mem_map.mp listed
    obtain ⟨inside, peer⟩ := List.mem_filter.mp member
    rw [Bool.and_eq_true, decide_eq_true_eq] at peer
    obtain ⟨name, found⟩ := NameMap.mem_values.mp inside
    refine localized.add ((named name r found).symm ▸ found) ?_ stepped
    simp [Relation.isStored, peer]
  · refine ⟨fun _ _ found => found, rfl, rfl, fun _ => id, rfl, ?_, fun name given => ?_⟩
    · rw [locals_]
      exact List.forall_mem_nil _
    · rcases given with edit | derive
      · rw [edited name] at edit
        cases edit
      · exact derived name derive

end Synthesis

namespace Maintenance

open Catalog (Over Reads)

-- Every relation that the program names has tables.
def ClosedOver (m : Maintenance) (c : Catalog) : Prop :=
  ∀ rule ∈ m.allRules, ∀ name, Mentions rule name → c.Stores name

section Heads

variable {P : String → Prop} {B : Atom → Prop} {r : Rule}

theorem headRelation_of_has (headed : r.checkHead = .ok ()) (has : r.Has (Over P) B) :
    P r.headRelation := by
  unfold Rule.checkHead at headed
  split at headed
  · cases headed
  · rename_i some
    obtain ⟨head, rest, heads⟩ := List.exists_cons_of_ne_nil (mt List.isEmpty_iff.mpr some)
    obtain ⟨name, named, holds⟩ := has.head head (heads ▸ List.mem_cons_self)
    rwa [Rule.headRelation_of_head (congrArg List.head? heads) named]

end Heads

variable {x : Exchange} {catalog marked : Catalog} {program : Maintenance}

theorem strata_store {name : String} {s : Stratum} (member : s ∈ strataOf x)
    (inside : name ∈ s.relations)
    (roots : ∀ name, x.edb.has name = true ∨ x.idb.has name = true → catalog.Stores name)
    (heads : ∀ r ∈ x.rules, catalog.Stores r.headRelation) : catalog.Stores name := by
  obtain ⟨root, given, path⟩ := Stratification.exists_stratum_iff.mp ⟨s, member, inside⟩
  rcases path.cases_tail with rfl | ⟨before, -, edge⟩
  · exact roots _ ((NameSet.has_foldl_add.mp given).imp_left NameSet.mem_toList.mp)
  · obtain ⟨r, listed, -, rfl⟩ := Stratification.edge_graph.mp edge
    exact heads r listed

theorem closedOver_names {m : Maintenance} {c : Catalog} : m.ClosedOver c ↔
    ∀ name ∈ m.allRules.flatMap (fun r => (r.head ++ r.body).filterMap Atom.relation?),
      (c.relations.get? name).any Relation.isStored = true := by
  simp only [ClosedOver, Mentions, Catalog.Stores, Option.any_eq_true, List.mem_flatMap,
    List.mem_filterMap]
  exact ⟨fun closed name ⟨r, listed, names⟩ => closed r listed name names,
    fun closed r listed name names => closed name ⟨r, listed, names⟩⟩

instance (m : Maintenance) (c : Catalog) : Decidable (m.ClosedOver c) :=
  decidable_of_iff _ closedOver_names.symm

theorem closedOver_iff (built : build x catalog = (marked, .ok program))
    (roots : ∀ name, x.edb.has name = true ∨ x.idb.has name = true → catalog.Stores name)
    (heads : ∀ r ∈ x.rules, ∀ a ∈ r.head, Over catalog.Stores a) :
    program.ClosedOver marked ↔ ∀ s ∈ strataOf x, ∀ r ∈ x.rules, r.headRelation ∈ s.relations →
      ∀ a ∈ r.body, Reads catalog.Stores a := by
  obtain ⟨marks, headed, -⟩ := build_made built
  have derived : ∀ r ∈ x.rules, catalog.Stores r.headRelation := fun r listed =>
    headRelation_of_has (B := fun _ => True) (Compiled.forM_ok headed r listed)
      ⟨heads r listed, fun _ _ => trivial⟩
  constructor
  · intro closed s member r listed into a read name named
    obtain ⟨rule, made, mentions⟩ :=
      (named_iff built).mpr ⟨s, member, .inr ⟨r, listed, into, a, read, named⟩⟩
    exact (Catalog.marked_stores marks).mp (closed rule made name mentions)
  · intro reads rule made name mentions
    rw [Catalog.marked_stores marks]
    obtain ⟨s, member, inside | ⟨r, listed, into, a, read, named⟩⟩ :=
      (named_iff built).mp ⟨rule, made, mentions⟩
    · exact strata_store member inside roots derived
    · exact reads s member r listed into a read name named

variable {base b' : Build} {z : Exchange}

-- What the exchange program writes has tables, before local contributions are added. Rules into
-- provenance relations may still read virtual relations.
structure Written (catalog : Catalog) (z : Exchange) : Prop where
  sources : ∀ r ∈ z.sourceToProvenance,
    r.Has (Over fun name => catalog.Stores name ∧ z.idb.has name = true) (Reads catalog.Knows)
  targets : ∀ r ∈ z.provenanceToTarget, r.Has (Over catalog.Stores) (Over catalog.Stores)

theorem heads_stored (written : Written base.catalog z) (localized : Synthesis.Localized base z b') :
    ∀ r ∈ b'.exchange.rules, ∀ a ∈ r.head, Over b'.catalog.Stores a := by
  intro r listed a head
  rcases List.mem_append.mp listed with own | mapped
  · exact (localized.stores r own).head a head
  · rw [Exchange.mappingRules, localized.sources, localized.targets] at mapped
    rcases List.mem_append.mp mapped with source | target
    · exact ((written.sources r source).head a head).imp fun _ =>
        .imp_right fun stored => stored.1.mono localized.within
    · exact ((written.targets r target).head a head).imp fun _ =>
        .imp_right (·.mono localized.within)

theorem real_of_stores {name : String} (known : base.catalog.Knows name)
    (within : base.catalog.Within b'.catalog) (stored : b'.catalog.Stores name) :
    base.catalog.isVirtual name = false := by
  obtain ⟨r, found, role⟩ := known
  obtain ⟨r', found', stored⟩ := stored
  cases (within _ _ found).symm.trans found'
  exact (Catalog.stores_iff.mp ⟨r, found, stored⟩).2

theorem closedOver_iff_real (written : Written base.catalog z)
    (localized : Synthesis.Localized base z b')
    (built : build b'.exchange b'.catalog = (marked, .ok program)) :
    program.ClosedOver marked ↔
      ∀ r ∈ z.sourceToProvenance, Unfolding.virtualAtom? base.catalog r = none := by
  rw [closedOver_iff built localized.relations (heads_stored written localized)]
  constructor
  · intro closed r member
    refine Unfolding.virtualAtom?_eq_none.mpr fun a read => ?_
    cases named : a.relation? with
    | none => rfl
    | some name =>
      have listed : r ∈ b'.exchange.rules := by
        refine List.mem_append_right _ (List.mem_append_left _ ?_)
        rw [localized.sources]
        exact member
      obtain ⟨-, headed, -⟩ := build_made built
      -- Provenance relations are derived, so they are in strata.
      have derived := (headRelation_of_has (Compiled.forM_ok headed r listed)
        (written.sources r member)).2
      obtain ⟨s, present, inside⟩ := Stratification.exists_stratum_iff.mpr
        ⟨_, NameSet.has_foldl_add.mpr (.inr (localized.derived _ derived)), .refl⟩
      exact real_of_stores ((written.sources r member).body a read name named) localized.within
        (closed s present r listed inside a read name named)
  · intro real s present r listed into a read name named
    rcases List.mem_append.mp listed with own | mapped
    · obtain ⟨other, same, stored⟩ := (localized.stores r own).body a read
      cases named.symm.trans same
      exact stored
    · rw [Exchange.mappingRules, localized.sources, localized.targets] at mapped
      rcases List.mem_append.mp mapped with source | target
      · have plain := Unfolding.virtualAtom?_eq_none.mp (real r source) a read
        rw [named] at plain
        have known := (written.sources r source).body a read name named
        exact (Catalog.stores_iff.mpr ⟨known, plain⟩).mono localized.within
      · obtain ⟨other, same, stored⟩ := (written.targets r target).body a read
        cases named.symm.trans same
        exact stored.mono localized.within

end Maintenance

namespace Synthesis

open Catalog

variable {declared : Catalog} {trust : TrustPolicy} {rules : List Rule} {grouped b : Build}
  {stages : List Stage} {y : Exchange}

theorem Staged.defines_iff {P : String → Bool} (staged : Staged declared trust rules grouped b stages)
    (named : b.catalog.IsNamed) (fits : ∀ r ∈ rules, ∀ a ∈ r.head, a.Fits b.catalog) :
    (∃ q ∈ b.exchange.provenanceToTarget, P q.headRelation = true) ↔
      ∃ r ∈ rules, ∃ a ∈ r.head, a.relation?.any P = true := by
  have listed {s : Stage} {name : String} (member : s ∈ stages) : name ∈ s.relation.targets ↔
      ∃ rule ∈ s.members, ∃ a ∈ rule.head, a.relation? = some name :=
    (staged.led.sound s member).mem_targets named fun rule ruled =>
      fits rule (staged.given member ruled)
  have into {p : ProvenanceRelation} {c : Catalog} {target : String} {q : Rule}
      (made : p.targetRule c target = .ok q) : q.headRelation = target := by
    obtain ⟨r, args, -, -, heads, -, -⟩ := ProvenanceRelation.targetRule_ok made
    exact Rule.headRelation_of_head (congrArg List.head? heads) rfl
  rw [staged.led.targets, List.nil_append]
  constructor
  · rintro ⟨q, inside, holds⟩
    obtain ⟨s, member, inside⟩ := List.mem_flatMap.mp inside
    obtain ⟨known, within, targets⟩ := (staged.led.sound s member).targets
    obtain ⟨target, kept, made⟩ :=
      Compiled.forall₂_source (Compiled.forall₂_of_mapM targets) inside
    obtain ⟨rule, ruled, a, head, given⟩ := (listed member).mp kept
    refine ⟨rule, staged.given member ruled, a, head, ?_⟩
    rw [given, Option.any_some, ← into made]
    exact holds
  · rintro ⟨r, ruled, a, head, holds⟩
    obtain ⟨target, given, holds⟩ := (Option.any_eq_true ..).mp holds
    obtain ⟨s, member, inside⟩ := List.mem_flatMap.mp ((staged.members r).mpr ruled)
    obtain ⟨known, within, targets⟩ := (staged.led.sound s member).targets
    obtain ⟨q, kept, made⟩ := Compiled.forall₂_result (Compiled.forall₂_of_mapM targets)
      ((listed member).mpr ⟨r, inside, a, head, given⟩)
    exact ⟨q, List.mem_flatMap.mpr ⟨s, member, kept⟩, (into made).symm ▸ holds⟩

theorem Staged.bodies_iff {Q : List Atom → Prop} (staged : Staged declared trust rules grouped b stages) :
    (∀ r ∈ b.exchange.sourceToProvenance, Q r.body) ↔ ∀ r ∈ rules, Q r.body := by
  rw [staged.led.sources, List.nil_append]
  constructor
  · intro each r ruled
    obtain ⟨s, member, inside⟩ := List.mem_flatMap.mp ((staged.members r).mpr ruled)
    obtain ⟨known, trust, sources⟩ := (staged.led.sound s member).sources
    obtain ⟨i, bound, rfl⟩ := List.getElem_of_mem inside
    refine each (s.relation.sourceRule known trust i s.members[i]) ?_
    rw [List.mem_flatMap]
    exact ⟨s, member, sources ▸ List.mem_mapIdx.mpr ⟨i, bound, rfl⟩⟩
  · intro each r inside
    obtain ⟨s, member, inside⟩ := List.mem_flatMap.mp inside
    obtain ⟨known, trust, sources⟩ := (staged.led.sound s member).sources
    rw [sources] at inside
    obtain ⟨i, bound, rfl⟩ := List.mem_mapIdx.mp inside
    exact each s.members[i] (staged.given member (List.getElem_mem bound))

theorem Staged.written (staged : Staged declared trust rules grouped b stages) (own : declared.IsDeclared)
    (positive : ∀ r ∈ rules, ∀ a ∈ r.body, a.negated = false)
    (composed : b.exchange.composeVirtual b.catalog {} = (y, .ok ())) :
    Maintenance.Written b.catalog (y.minimize b.catalog) := by
  obtain ⟨-, -, -, -, derived⟩ := Build.composeVirtual_frame composed
  have targets := (Exchange.composeVirtual_parts composed).1
  have sources := Exchange.composeVirtual_has (steady_over _) (steady_reads _) (fun _ _ => nofun)
    composed (staged.sources own positive) fun q member a read => by
      obtain ⟨name, named, stored⟩ := (staged.targets own q member).2.body a read
      intro other same
      cases named.symm.trans same
      exact (stores_iff.mp stored).1
  constructor
  · intro r member
    obtain ⟨q, kept, rfl⟩ := Exchange.mem_minimize_sources.mp member
    rw [show (y.minimize b.catalog).idb = b.exchange.idb from derived]
    exact (sources q kept).minimize
  · intro r member
    obtain ⟨q, kept, rfl⟩ := Exchange.mem_minimize_targets.mp member
    obtain ⟨listed, real⟩ := targets q kept
    obtain ⟨⟨head, heads⟩, has⟩ := staged.targets own q listed
    refine Rule.Has.minimize ⟨fun a inside => ?_, has.body⟩
    rw [heads, List.mem_singleton] at inside
    subst inside
    obtain ⟨name, named, known⟩ := has.head a (heads ▸ List.mem_singleton_self a)
    rw [Rule.headRelation_of_head (congrArg List.head? heads) named] at real
    exact ⟨name, named, stores_iff.mpr ⟨known, real⟩⟩

end Synthesis

namespace Build

open Unfolding (virtualAtom?_eq_none)

variable {declared marked : Catalog} {config : Config} {trust : TrustPolicy} {b' : Build}
  {program : Maintenance}

-- The build before virtual relations are composed away, and what is added after that.
structure Composed (declared : Catalog) (trust : TrustPolicy) (rules : List Rule) (b : Build)
    (y : Exchange) (b' : Build) : Prop where
  staged : ∃ grouped stages, Synthesis.Staged declared trust rules grouped b stages
  tracks : Tracks declared b
  composed : b.exchange.composeVirtual b.catalog {} = (y, .ok ())
  localized : Synthesis.Localized b (y.minimize b.catalog) b'

theorem Tracks.isNamed {b : Build} (tracks : Tracks declared b) : b.catalog.IsNamed :=
  fun name r found => (tracks.origin name r found).1

theorem composed_ofCatalog (own : declared.IsDeclared)
    (made : Build.ofCatalog declared config trust = .ok b') :
    ∃ rules b y, Mapping.rules declared config trust = .ok rules ∧
      Synthesis.synthesize config trust rules { catalog := declared } = (b, .ok ()) ∧
      Composed declared trust rules b y b' := by
  obtain ⟨rules, b, y, given, synthesized, composed, added⟩ := ofCatalog_ok made
  obtain ⟨-, grouped, stages, -, -, staged⟩ := Synthesis.synthesize_stages synthesized
  have tracks := (Tracks.start own).synthesize synthesized
  refine ⟨rules, b, y, given, synthesized, ⟨grouped, stages, staged⟩, tracks, composed, ?_⟩
  obtain ⟨-, -, locals_, edited, derived⟩ := composeVirtual_frame composed
  refine Synthesis.localized_addLocals tracks.isNamed (locals_.trans staged.led.edited.1) ?_ ?_ added
  · intro name
    rw [show (y.minimize b.catalog).edb = (.empty : NameSet) from
      edited.trans staged.led.edited.2]
    rfl
  · intro name has
    rw [show (y.minimize b.catalog).idb = b.exchange.idb from derived] at has
    obtain none | ⟨s, member, rfl⟩ := (staged.led.derived name).mp has
    · cases none
    · exact staged.stores member

theorem closed_iff (own : declared.IsDeclared) (valid : declared.validate = .ok ())
    (made : Build.ofCatalog declared config trust = .ok b')
    (built : Maintenance.build b'.exchange b'.catalog = (marked, .ok program)) :
    ∃ rules, Mapping.rules declared config trust = .ok rules ∧
      (program.ClosedOver marked ↔
        (∃ r ∈ rules, ∃ a ∈ r.head, a.relation?.any declared.isVirtual = true) ∨
          ∀ r ∈ rules, ∀ a ∈ r.body, a.relation?.any declared.isVirtual = false) := by
  obtain ⟨rules, b, y, given, -, ⟨grouped, stages, staged⟩, tracks, composed, localized⟩ :=
    composed_ofCatalog own made
  have named := tracks.isNamed
  have shaped := Mapping.rules_fit own valid given
  have fits : ∀ r ∈ rules, ∀ a ∈ r.head, a.Fits b.catalog := fun r ruled a head =>
    Atom.Fits.mono ((shaped r ruled).head a head) staged.led.within
  have written := staged.written own (fun r ruled => (shaped r ruled).body) composed
  -- Virtual relations are declared ones.
  have apart : ∀ name, b.catalog.isVirtual name = true → b.catalog.isProvenance name = false := by
    intro name virtual
    rw [tracks.isVirtual_eq] at virtual
    unfold Catalog.isVirtual at virtual
    split at virtual
    · rename_i r found
      rw [Catalog.isProvenance, tracks.kept name r found]
      simp [(own.relations name r found).2.1]
    · cases virtual
  have virtual : b.catalog.isVirtual = declared.isVirtual := funext tracks.isVirtual_eq
  refine ⟨rules, given, ?_⟩
  calc program.ClosedOver marked
      ↔ ∀ r ∈ (y.minimize b.catalog).sourceToProvenance,
          Unfolding.virtualAtom? b.catalog r = none :=
        Maintenance.closedOver_iff_real written localized built
    _ ↔ ∀ r ∈ y.sourceToProvenance, Unfolding.virtualAtom? b.catalog r = none :=
        Exchange.minimize_reads apart
    _ ↔ (∃ q ∈ b.exchange.provenanceToTarget, b.catalog.isVirtual q.headRelation = true) ∨
          ∀ r ∈ b.exchange.sourceToProvenance, Unfolding.virtualAtom? b.catalog r = none :=
        Exchange.composeVirtual_reads composed (staged.single own)
    _ ↔ _ := by
        simp only [virtualAtom?_eq_none]
        rw [staged.defines_iff named fits, staged.bodies_iff
          (Q := fun body => ∀ a ∈ body, a.relation?.any b.catalog.isVirtual = false), virtual]

end Build

namespace Compilation

variable {text : String} {program : Program} {config : Config} {trust : TrustPolicy}
  {c compiled ready : Compilation} {m : Maintenance}

-- Virtual relations are gone from the maintenance program, unless the mappings read some and
-- derive none.
theorem maintenance_closed_iff (parsed : Program.parse text = .ok program)
    (created : ofCatalog program.catalog config = .ok c)
    (made : c.exchangeUnder trust = .ok compiled)
    (maintained : compiled.maintained = (ready, .ok ()))
    (found : ready.maintenance = some m) :
    ∃ rules, Mapping.rules c.declared c.config trust = .ok rules ∧
      (m.ClosedOver ready.catalog ↔
        (∃ r ∈ rules, ∃ a ∈ r.head, a.relation?.any c.declared.isVirtual = true) ∨
          ∀ r ∈ rules, ∀ a ∈ r.body, a.relation?.any c.declared.isVirtual = false) := by
  obtain ⟨b, built, catalog, exchange, -, valid⟩ := exchangeUnder_ok made
  have program_ := maintained_ok exchange maintained found
  rw [catalog] at program_
  exact Build.closed_iff (ofCatalog_declared parsed created) valid built program_

section Layers

-- Relations of which `V` is virtual.
def layerText (mappings : String) : String :=
  "relation R(a: int); relation T(a: int); virtual relation V(a: int);" ++ mappings

def layerCatalog (mappings : List Rule) : Catalog where
  relations := ((NameMap.empty.insert "R" { name := "R", columns := [⟨"a", .integer, false⟩] }).insert
    "T" { name := "T", columns := [⟨"a", .integer, false⟩] }).insert
    "V" { name := "V", columns := [⟨"a", .integer, false⟩], materialized := false }
  mappings := mappings

def copyRule (id target source : String) : Rule :=
  .ofHeads id [.ofRelation target [.var "x"]] [.ofRelation source [.var "x"]]

def maintain? (config : Config) (catalog : Catalog) : Option (Compilation × Maintenance) :=
  (compile? config catalog).bind fun compiled =>
    match compiled.maintained with
    | (ready, .ok ()) => ready.maintenance.map fun m => (ready, m)
    | (_, .error _) => none

theorem maintain?_parts {catalog : Catalog} (found : maintain? config catalog = some (ready, m)) :
    ∃ c compiled, ofCatalog catalog config = .ok c ∧ c.exchangeUnder {} = .ok compiled ∧
      compiled.maintained = (ready, .ok ()) ∧ ready.maintenance = some m := by
  obtain ⟨compiled, compiles, found⟩ := Option.bind_eq_some_iff.mp found
  obtain ⟨c, created, made⟩ := compile?_parts compiles
  split at found
  · rename_i maintained
    obtain ⟨m, found, same⟩ := Option.map_eq_some_iff.mp found
    cases same
    exact ⟨c, compiled, created, made, maintained, found⟩
  · cases found

-- The virtual relation is defined, and read through its definition.
theorem maintenance_closed_layers : ∃ program c compiled ready m,
    Program.parse (layerText "mapping d: V(x) :- R(x). mapping m: T(x) :- V(x).") = .ok program ∧
    ofCatalog program.catalog {} = .ok c ∧ c.exchangeUnder {} = .ok compiled ∧
    compiled.maintained = (ready, .ok ()) ∧ ready.maintenance = some m ∧
    m.ClosedOver ready.catalog := by
  let catalog := layerCatalog [copyRule "d" "V" "R", copyRule "m" "T" "V"]
  have compiles : (maintain? {} catalog).isSome = true := by decide +kernel
  have defined : (Mapping.rules catalog {} {}).toOption.map (fun rules =>
      decide (∃ r ∈ rules, ∃ a ∈ r.head, a.relation?.any catalog.isVirtual = true)) = some true := by
    cbv
  obtain ⟨⟨ready, m⟩, found⟩ := Option.isSome_iff_exists.mp compiles
  obtain ⟨c, compiled, created, made, maintained, found⟩ := maintain?_parts found
  have parses : Program.parsesTo (layerText "mapping d: V(x) :- R(x). mapping m: T(x) :- V(x).")
      catalog = true := by decide +kernel
  obtain ⟨program, parsed, same⟩ := Program.parsesTo_parts parses
  rw [← same] at created defined
  refine ⟨program, c, compiled, ready, m, parsed, created, made, maintained, found, ?_⟩
  obtain ⟨rules, given, closed⟩ := maintenance_closed_iff parsed created made maintained found
  obtain ⟨declared, config⟩ := ofCatalog_keeps created
  rw [← declared, ← config, given] at defined
  exact closed.mpr (.inl (of_decide_eq_true (Option.some.inj defined)))

-- A virtual relation that no mapping derives into stays in the program.
theorem undefined_virtual_kept : ∃ program c compiled ready m,
    Program.parse (layerText "mapping m: T(x) :- V(x).") = .ok program ∧
    ofCatalog program.catalog {} = .ok c ∧ c.exchangeUnder {} = .ok compiled ∧
    compiled.maintained = (ready, .ok ()) ∧ ready.maintenance = some m ∧
    ¬ m.ClosedOver ready.catalog := by
  have compiles : (maintain? {} (layerCatalog [copyRule "m" "T" "V"])).map
      (fun (ready, m) => decide (m.ClosedOver ready.catalog)) = some false := by decide +kernel
  obtain ⟨⟨ready, m⟩, found, left⟩ := Option.map_eq_some_iff.mp compiles
  obtain ⟨c, compiled, created, made, maintained, found⟩ := maintain?_parts found
  have parses : Program.parsesTo (layerText "mapping m: T(x) :- V(x).")
      (layerCatalog [copyRule "m" "T" "V"]) = true := by decide +kernel
  obtain ⟨program, parsed, catalog⟩ := Program.parsesTo_parts parses
  exact ⟨program, c, compiled, ready, m, parsed, catalog ▸ created, made, maintained, found,
    of_decide_eq_false left⟩

end Layers

end Compilation

end PeerExchange
