import PeerExchange.Proofs.DeltaCoverage
import PeerExchange.Proofs.EditedRelations
import PeerExchange.Proofs.SafePrograms
import PeerExchange.Proofs.TypedRules

namespace PeerExchange

open Catalog (Over Reads)

def Rule.IsOverContents (r : Rule) : Prop := r.Has (·.kind = .base) (·.kind = .base)

section Contents

variable {declared : Catalog} {config : Config} {trust : TrustPolicy} {rules : List Rule}

theorem steady_contents : Atom.Steady (·.kind = .base) := fun _ _ base => base

theorem Mapping.rules_overContents (written : ∀ m ∈ declared.mappings, m.IsWritten)
    (given : Mapping.rules declared config trust = .ok rules) : ∀ r ∈ rules, r.IsOverContents := by
  obtain ⟨⟨⟩, -, given⟩ := Compiled.bind_ok.mp given
  obtain ⟨⟨⟩, -, given⟩ := Compiled.bind_ok.mp given
  obtain ⟨⟨⟩, -, given⟩ := Compiled.bind_ok.mp given
  cases given
  refine List.forall_mem_flatMap.mpr fun m member => has_toRules steady_contents ?_
  rcases mem_withInverses.mp member with direct | ⟨-, source, direct, made⟩
  · have tables := List.forall_mem_append.mp (written m (mem_trusted.mp direct).1).tables
    exact ⟨tables.1, tables.2⟩
  · unfold Rule.inverse? at made
    split at made
    · split at made
      · cases made
        exact ⟨List.forall_mem_singleton.mpr rfl, List.forall_mem_singleton.mpr rfl⟩
      · cases made
    · cases made

theorem Build.Composed.overContents {b b' : Build} {y : Exchange}
    (composed : Composed declared trust rules b y b') (given : ∀ r ∈ rules, r.IsOverContents) :
    ∀ r ∈ b'.exchange.rules, r.IsOverContents := by
  obtain ⟨grouped, stages, staged⟩ := composed.staged
  have sources : ∀ r ∈ b.exchange.sourceToProvenance, r.IsOverContents := by
    intro r inside
    obtain ⟨s, member, known, i, bound, ruled, rfl⟩ := source_of_staged staged inside
    refine ⟨?_, (given _ ruled).body⟩
    rw [ProvenanceRelation.head_sourceRule]
    exact List.forall_mem_singleton.mpr rfl
  have targets : ∀ q ∈ b.exchange.provenanceToTarget, q.IsOverContents := by
    intro q inside
    obtain ⟨s, member, known, -, target, -, made⟩ := target_of_staged staged inside
    obtain ⟨r, args, -, -, heads, body, -⟩ := ProvenanceRelation.targetRule_ok made
    refine ⟨?_, ?_⟩
    · rw [heads]
      exact List.forall_mem_singleton.mpr rfl
    · rw [body]
      exact List.forall_mem_singleton.mpr rfl
  have unfolded := Exchange.composeVirtual_has steady_contents steady_contents (fun _ => rfl)
    composed.composed sources fun q inside => (targets q inside).body
  intro r inside
  obtain ⟨relation, rfl, -⟩ | ⟨q, source | target, rfl⟩ := composed.mem_rules inside
  · exact ⟨List.forall_mem_singleton.mpr rfl, List.forall_mem_singleton.mpr rfl⟩
  · exact (unfolded q source).minimize
  · exact (targets q target).minimize

end Contents

section Relations

variable {declared : Catalog} {config : Config} {trust : TrustPolicy} {rules : List Rule}
  {b b' : Build}

theorem Synthesis.derived_provenance
    (ran : synthesize config trust rules { catalog := declared } = (b, .ok ())) :
    ∀ p ∈ b.exchange.provenance, b.exchange.idb.has p.name = true := by
  obtain ⟨gs, grouped, -, added, shown⟩ := synthesize_ok ran
  have first : ∀ p ∈ grouped.exchange.provenance, grouped.exchange.idb.has p.name = true := by
    refine Build.inOrder_keeps
      (P := fun c => ∀ p ∈ c.exchange.provenance, c.exchange.idb.has p.name = true) ?_
      (List.forall_mem_nil _) added
    intro step listed c c' held stepped
    obtain ⟨g, -, rfl⟩ := List.mem_map.mp listed
    obtain ⟨p, targets, -, -, -, -, exchange⟩ := addGroup_ok stepped
    rw [exchange]
    exact List.forall_mem_append.mpr ⟨fun q old => NameSet.has_add.mpr (.inr (held q old)),
      List.forall_mem_singleton.mpr (NameSet.has_add.mpr (.inl rfl))⟩
  rcases shown with rfl | shown
  · exact first
  · refine Build.inOrder_keeps
      (P := fun c => ∀ p ∈ c.exchange.provenance, c.exchange.idb.has p.name = true) ?_ first shown
    intro step listed c c' held stepped
    obtain ⟨target, -, rfl⟩ := List.mem_map.mp listed
    obtain ⟨r, -, ⟨-, rfl⟩ | ⟨built, -, -, -, exchange⟩⟩ := addView_ok stepped
    · exact held
    · rw [exchange]
      exact held

-- What the relations of an exchange program are for: those that are new take edits, those that were
-- there are derived, and no others have tables.
structure Build.Parted (base : Catalog) (b : Build) : Prop where
  edited : ∀ name, b.exchange.edb.has name = true → base.relations.contains name = false
  derived : ∀ name, b.exchange.idb.has name = true → base.relations.contains name = true
  stored : ∀ name, b.catalog.Stores name →
    b.exchange.edb.has name = true ∨ b.exchange.idb.has name = true
  copied : ∀ q ∈ b.exchange.localRules, ∃ r, q = Synthesis.localRule r ∧
    b.exchange.idb.has r.name = true

theorem Build.parted_ofCatalog (own : declared.IsDeclared)
    (made : ofCatalog declared config trust = .ok b') :
    ∃ rules b y, Mapping.rules declared config trust = .ok rules ∧ Composed declared trust rules b y b' ∧
      Parted b.catalog b' := by
  obtain ⟨rules, b, y, given, synthesized, composed⟩ := composed_ofCatalog own made
  obtain ⟨rules', base, y', given', synthesized', composed', added⟩ := ofCatalog_ok made
  cases given.symm.trans given'
  cases synthesized.symm.trans synthesized'
  cases composed.composed.symm.trans composed'
  refine ⟨rules, b, y, given, composed, ?_⟩
  obtain ⟨provenance, -, locals_, edited_, derived_⟩ := composeVirtual_frame composed.composed
  obtain ⟨grouped, stages, staged⟩ := composed.staged
  obtain ⟨-, edited, derived, copies, each⟩ := Synthesis.addLocals_ok added
  have present {r : Relation} (listed : r ∈ b.catalog.relations.values.filter fun r =>
      r.role = .peer && r.materialized) : b.catalog.relations.contains r.name = true := by
    obtain ⟨name, found⟩ := NameMap.mem_values.mp (List.mem_of_mem_filter listed)
    have named := composed.tracks.isNamed name r found
    exact NameMap.contains_of_get? (named.symm ▸ found)
  have peers {r : Relation} (found : declared.relations.get? r.name = some r)
      (materialized : r.materialized = true) : r ∈ b.catalog.relations.values.filter fun r =>
        r.role = .peer && r.materialized := by
    refine List.mem_filter.mpr ⟨NameMap.mem_values.mpr ⟨_, composed.tracks.kept _ _ found⟩, ?_⟩
    simp [(own.relations _ _ found).2.1, materialized]
  refine ⟨fun name edits => ?_, fun name derives => ?_, ?_, ?_⟩
  · rcases (edited name).mp edits with old | ⟨r, listed, rfl⟩
    · rw [show (y.minimize b.catalog).edb = (.empty : NameSet) from
        edited_.trans staged.led.edited.2] at old
      cases old
    · exact (each r listed).1
  · rcases (derived name).mp derives with old | ⟨r, listed, rfl⟩
    · rw [show (y.minimize b.catalog).idb = b.exchange.idb from derived_] at old
      obtain none | ⟨s, member, rfl⟩ := (staged.led.derived name).mp old
      · cases none
      · exact NameMap.contains_of_get? (staged.led.sound s member).registered
    · exact present listed
  · rintro name ⟨r, found, stored⟩
    obtain ⟨rfl, origin⟩ := (tracks_ofCatalog own made).origin name r found
    obtain ⟨materialized, role⟩ := Bool.and_eq_true_iff.mp stored
    cases origin with
    | declared known => exact .inr ((derived _).mpr (.inr ⟨r, peers known materialized, rfl⟩))
    | @provenance p member =>
      refine .inr ((derived _).mpr (.inl ?_))
      have kept : b'.exchange.provenance = b.exchange.provenance := by
        refine (provenance_inOrder ?_ added).trans provenance
        intro step listed c
        obtain ⟨r, -, rfl⟩ := List.mem_map.mp listed
        exact Synthesis.provenance_addLocal r c
      rw [show (y.minimize b.catalog).idb = b.exchange.idb from derived_]
      exact Synthesis.derived_provenance synthesized p (kept ▸ member)
    | view member named viewed materialized =>
      rw [viewed] at role
      cases role
    | @localEdits peer known materialized =>
      exact .inl ((edited _).mpr (.inr ⟨peer, peers known materialized, rfl⟩))
  · intro q inside
    rw [copies, show (y.minimize b.catalog).localRules = [] from
      locals_.trans staged.led.edited.1, List.nil_append] at inside
    obtain ⟨r, listed, rfl⟩ := List.mem_map.mp inside
    exact ⟨r, rfl, (derived _).mpr (.inr ⟨r, listed, rfl⟩)⟩

theorem Build.stores_ofCatalog (own : declared.IsDeclared)
    (made : ofCatalog declared config trust = .ok b') {name : String}
    (either : b'.exchange.edb.has name = true ∨ b'.exchange.idb.has name = true) :
    b'.catalog.Stores name := by
  obtain ⟨rules, b, y, -, composed, -⟩ := parted_ofCatalog own made
  exact composed.localized.relations name either

end Relations

namespace Build

variable {declared marked : Catalog} {config : Config} {trust : TrustPolicy} {b : Build}
  {program : Maintenance} (own : declared.IsDeclared) (valid : declared.validate = .ok ())
  (made : ofCatalog declared config trust = .ok b)

include own valid made

theorem heads_derived : ∀ r ∈ b.exchange.rules, ∃ head name, r.head = [head] ∧
    head.relation? = some name ∧ b.exchange.idb.has name = true ∧ head.IsKnown b.catalog := by
  obtain ⟨rules, base, y, given, composed, parted⟩ := parted_ofCatalog own made
  obtain ⟨grouped, stages, staged⟩ := composed.staged
  have shaped := Mapping.rules_fit own valid given
  have written := staged.written own (fun r ruled => (shaped r ruled).body) composed.composed
  intro r inside
  obtain ⟨-, head, single, related, -, known⟩ :=
    composed.safe (Mapping.rules_safe own valid given) r inside
  obtain ⟨name, named⟩ := Option.isSome_iff_exists.mp related
  refine ⟨head, name, single, named, ?_, known⟩
  have member : head ∈ r.head := single ▸ List.mem_singleton_self _
  rcases List.mem_append.mp inside with own | mapped
  · obtain ⟨relation, rfl, derived⟩ := parted.copied r own
    cases List.mem_singleton.mp member
    cases named
    exact derived
  · rw [Exchange.mappingRules, composed.localized.sources, composed.localized.targets] at mapped
    rcases List.mem_append.mp mapped with source | target
    · obtain ⟨other, same, -, derived⟩ := (written.sources r source).head head member
      cases named.symm.trans same
      exact composed.localized.derived name derived
    · -- The target was there before local contributions were added, so that it takes no edits.
      obtain ⟨other, same, stored⟩ := (written.targets r target).head head member
      cases named.symm.trans same
      refine (parted.stored name (stored.mono composed.localized.within)).resolve_left fun edited => ?_
      obtain ⟨relation, found, -⟩ := stored
      cases (NameMap.contains_of_get? found).symm.trans (parted.edited name edited)

theorem differentiable_ofCatalog : b.exchange.IsDifferentiable b.catalog where
  heads r inside := by
    obtain ⟨head, name, single, named, derived, -⟩ := heads_derived own valid made r inside
    exact ⟨head, name, single, named, .inr derived⟩
  known name either := by
    obtain ⟨r, found, -⟩ := stores_ofCatalog own made either
    exact ⟨r, found⟩

theorem maintainable_ofCatalog (written : ∀ m ∈ declared.mappings, m.IsWritten)
    (built : Maintenance.build b.exchange b.catalog = (marked, .ok program))
    (closed : program.ClosedOver marked) : b.exchange.Maintainable b.catalog := by
  obtain ⟨rules, base, y, given, composed, parted⟩ := parted_ofCatalog own made
  have contents := composed.overContents (Mapping.rules_overContents written given)
  have derives := heads_derived own valid made
  refine ⟨fun name edited => ?_, fun r inside => ?_, fun r inside a read => ?_⟩
  · by_contra derived
    rw [Bool.not_eq_false] at derived
    cases (parted.edited name edited).symm.trans (parted.derived name derived)
  · obtain ⟨head, name, single, named, derived, relation, found, arity⟩ := derives r inside
    refine ⟨head, name, single, named, (contents r inside).head head (single ▸ List.mem_singleton_self _),
      derived, fun other held => ?_⟩
    rw [Atom.relationName_of_relation named] at found
    cases found.symm.trans held
    exact arity
  · have safe := (composed.safe (Mapping.rules_safe own valid given) r inside).1.read a read
    refine ⟨safe.plain, safe.required, fun name named =>
      ⟨(contents r inside).body a read, parted.stored name ?_⟩⟩
    obtain ⟨head, target, single, into, derived, -⟩ := derives r inside
    obtain ⟨s, present, stratum⟩ := Maintenance.maintained_iff.mpr ⟨target, .inr derived, .refl⟩
    refine (Maintenance.closedOver_iff built (fun _ => stores_ofCatalog own made) ?_).mp closed s
      present r inside ?_ a read name named
    · intro r inside a head
      obtain ⟨only, name, single, named, derived, -⟩ := derives r inside
      rw [single, List.mem_singleton] at head
      exact ⟨name, head ▸ named, stores_ofCatalog own made (.inr derived)⟩
    · rwa [Rule.headRelation_of_head (congrArg List.head? single) into]

end Build

end PeerExchange
