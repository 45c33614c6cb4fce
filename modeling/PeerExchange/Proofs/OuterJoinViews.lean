import PeerExchange.Proofs.EditedRelations
import PeerExchange.Proofs.SafePrograms

namespace PeerExchange

namespace ProvenanceRelation

variable {catalog : Catalog} {p : ProvenanceRelation} {target : String} {q : Rule}

-- A relation that was filled by rules out of a list, over a catalog with the declared relations.
structure IsFilled (declared : Catalog) (rules : List Rule) (p : ProvenanceRelation) : Prop where
  parts : ∃ known members start, known.IsNamed ∧ declared.Within known ∧
    (∀ r ∈ members, r ∈ rules) ∧ start.columns = [] ∧ start.rules = [] ∧
    addRules known members start = .ok p

-- A relation that can be read back into each relation that its rules derive into.
structure IsRead (declared catalog : Catalog) (p : ProvenanceRelation) : Prop where
  registered : catalog.relations.get? p.name = some p.relation
  back : ∀ target ∈ p.targets, (∃ r, declared.relations.get? target = some r) ∧
    ∃ q, p.targetRule catalog target = .ok q

theorem targetRule_within {wider : Catalog} (within : catalog.Within wider)
    (made : p.targetRule catalog target = .ok q) : p.targetRule wider target = .ok q := by
  obtain ⟨r, known, -⟩ := Compiled.bind_ok.mp made
  have found := Catalog.relation_ok.mpr (within _ _ (Catalog.relation_ok.mp known))
  rw [targetRule, known] at made
  rw [targetRule, found]
  exact made

theorem IsRead.mono {declared wider : Catalog} (read : p.IsRead declared catalog)
    (within : catalog.Within wider) : p.IsRead declared wider := by
  refine ⟨within _ _ read.registered, fun target listed => ?_⟩
  obtain ⟨found, q, made⟩ := read.back target listed
  exact ⟨found, q, targetRule_within within made⟩

theorem IsFilled.declared_target {declared : Catalog} {rules : List Rule}
    (fits : ∀ r ∈ rules, ∀ a ∈ r.head, a.Fits declared) (filled : p.IsFilled declared rules)
    (listed : target ∈ p.targets) : ∃ r, declared.relations.get? target = some r := by
  obtain ⟨known, members, start, named, within, given, columns, none, added⟩ := filled.parts
  obtain ⟨rows, recorded, -⟩ := recorded_addRules columns none added
  obtain ⟨c, inside, column, key⟩ := mem_targets.mp listed
  obtain ⟨e, empty | ⟨es, present, member⟩, same⟩ := recorded.columns.needed c inside
  · cases empty
  obtain ⟨rule, ruled, made⟩ := Compiled.forall₂_source recorded.entries present
  obtain ⟨read, written, -, writes, -, origin⟩ := Provenance.entries_ok made
  obtain ⟨place, placed, rfl⟩ := origin e member _ _ (same.trans key)
  obtain ⟨a, head, r, found, own⟩ := (Provenance.places_ok writes).2 place placed
  obtain ⟨name, r', related, held, -⟩ := fits rule (given rule ruled) a head
  have target_ : place.relation = target := (ColumnKey.target.inj (same.trans key)).1
  have found := Catalog.relation_ok.mp found
  rw [Atom.relationName_of_relation related] at found
  rw [Provenance.relation_of_place own, named _ _ found] at target_
  exact ⟨r', target_ ▸ held⟩

end ProvenanceRelation

namespace Build

variable {declared : Catalog} {config : Config} {trust : TrustPolicy} {rules : List Rule} {b b' : Build}

-- A view of a declared relation beside the provenance relations that lead into it.
structure Shows (declared : Catalog) (b : Build) (v : OuterJoinView) : Prop where
  parts : ∃ target, declared.relations.get? target.name = some target ∧ target.materialized = true ∧
    OuterJoinView.build target (b.exchange.provenance.filter (·.targets.contains target.name)) =
      (v, (OuterJoinView.build target
        (b.exchange.provenance.filter (·.targets.contains target.name))).2) ∧
    b.catalog.relations.get? v.name = some (OuterJoinView.build target
      (b.exchange.provenance.filter (·.targets.contains target.name))).2

theorem Shows.mono {v : OuterJoinView} (shows : Shows declared b v)
    (within : b.catalog.Within b'.catalog) (same : b'.exchange.provenance = b.exchange.provenance) :
    Shows declared b' v := by
  obtain ⟨target, found, materialized, built, described⟩ := shows.parts
  rw [← same] at built described
  exact ⟨target, found, materialized, built, within _ _ described⟩

-- The provenance relations of a build, and the views over them.
structure Woven (declared : Catalog) (rules : List Rule) (b : Build) : Prop where
  filled : ∀ p ∈ b.exchange.provenance, p.IsFilled declared rules
  read : ∀ p ∈ b.exchange.provenance, p.IsRead declared b.catalog
  distinct : (b.exchange.provenance.map ProvenanceRelation.name).Nodup
  shown : ∀ v ∈ b.exchange.views, Shows declared b v

theorem Woven.mono (woven : Woven declared rules b) (within : b.catalog.Within b'.catalog)
    (provenance : b'.exchange.provenance = b.exchange.provenance)
    (views : b'.exchange.views = b.exchange.views) : Woven declared rules b' where
  filled := provenance ▸ woven.filled
  read p member := (woven.read p (provenance ▸ member)).mono within
  distinct := provenance ▸ woven.distinct
  shown v member := (woven.shown v (views ▸ member)).mono within provenance

theorem Woven.addGroup {g : Synthesis.Group} (woven : Woven declared rules b)
    (fits : ∀ r ∈ rules, ∀ a ∈ r.head, a.Fits declared) (tracks : Tracks declared b)
    (columns : g.relation.columns = []) (none : g.relation.rules = [])
    (given : ∀ r ∈ g.members, r ∈ rules) (unseen : b.exchange.views = [])
    (ran : Synthesis.addGroup trust g b = (b', .ok ())) : Woven declared rules b' := by
  obtain ⟨p, targets, added, made, fresh, relations, exchange⟩ := Synthesis.addGroup_ok ran
  have within : b.catalog.Within b'.catalog := Catalog.within_insert (r := p.relation) fresh relations
  have provenance : b'.exchange.provenance = b.exchange.provenance ++ [p] := by rw [exchange]
  have views : b'.exchange.views = [] := by rw [exchange]; exact unseen
  have filled : p.IsFilled declared rules :=
    ⟨b.catalog, g.members, g.relation, tracks.isNamed, tracks.kept, given, columns, none, added⟩
  have made := Compiled.forall₂_of_mapM made
  refine ⟨?_, ?_, ?_, views ▸ List.forall_mem_nil _⟩
  · rw [provenance]
    exact List.forall_mem_append.mpr ⟨woven.filled, List.forall_mem_singleton.mpr filled⟩
  · rw [provenance]
    refine List.forall_mem_append.mpr ⟨fun q member => (woven.read q member).mono within,
      List.forall_mem_singleton.mpr ⟨?_, fun target listed => ⟨filled.declared_target fits listed, ?_⟩⟩⟩
    · rw [relations]
      exact (NameMap.get?_insert ..).trans (if_pos rfl)
    · obtain ⟨q, -, back⟩ := Compiled.forall₂_result made listed
      exact ⟨q, back⟩
  · rw [provenance, List.map_append, List.nodup_append]
    refine ⟨woven.distinct, List.nodup_singleton _, ?_⟩
    rintro _ old _ new rfl
    obtain ⟨q, member, same⟩ := List.mem_map.mp old
    rw [List.map_singleton, List.mem_singleton] at new
    have present := NameMap.contains_of_get? (woven.read q member).registered
    rw [same, new, fresh] at present
    cases present

theorem Woven.addView {members : List ProvenanceRelation} {target : String}
    (woven : Woven declared rules b) (kept : declared.Within b.catalog) (own : declared.IsDeclared)
    (same : b.exchange.provenance = members) (listed : ∃ p ∈ members, target ∈ p.targets)
    (ran : Synthesis.addView members target b = (b', .ok ())) :
    Woven declared rules b' ∧ b.catalog.Within b'.catalog ∧ b'.exchange.provenance = members := by
  obtain ⟨r, known, ⟨-, rfl⟩ | ⟨built, rfl, fresh, relations, exchange⟩⟩ := Synthesis.addView_ok ran
  · exact ⟨woven, fun _ _ found => found, same⟩
  · have within : b.catalog.Within b'.catalog := Catalog.within_insert fresh relations
    have provenance : b'.exchange.provenance = b.exchange.provenance := by rw [exchange]
    refine ⟨⟨provenance ▸ woven.filled, ?_, provenance ▸ woven.distinct, ?_⟩, within,
      provenance.trans same⟩
    · rw [provenance]
      exact fun p member => (woven.read p member).mono within
    · obtain ⟨p, member, inside⟩ := listed
      obtain ⟨⟨old, found⟩, -⟩ := (woven.read p (same ▸ member)).back target inside
      obtain rfl : r = old :=
        Option.some.inj ((Catalog.relation_ok.mp known).symm.trans (kept _ _ found))
      obtain rfl : r.name = target := (own.relations _ _ found).1
      have materialized : r.materialized = true := by
        by_contra virtual
        rw [Synthesis.addView, known] at ran
        dsimp only at ran
        rw [if_neg virtual] at ran
        cases ran
        exact absurd (congrArg Exchange.views exchange) (by simp)
      rw [exchange]
      refine List.forall_mem_append.mpr ⟨fun v old => (woven.shown v old).mono within provenance,
        List.forall_mem_singleton.mpr ⟨r, found, materialized, ?_, ?_⟩⟩
      · rw [provenance, same]
      · rw [provenance, same, relations]
        exact (NameMap.get?_insert ..).trans (if_pos rfl)

-- What a declared catalog is built into says where its provenance relations and views come from.
theorem woven_ofCatalog (own : declared.IsDeclared) (valid : declared.validate = .ok ())
    (made : ofCatalog declared config trust = .ok b') :
    ∃ rules, Mapping.rules declared config trust = .ok rules ∧ Woven declared rules b' := by
  obtain ⟨rules, b, x, given, synthesized, composed, added⟩ := ofCatalog_ok made
  have fits : ∀ r ∈ rules, ∀ a ∈ r.head, a.Fits declared := fun r ruled =>
    (Mapping.rules_fit own valid given r ruled).head
  obtain ⟨gs, grouped, formed, groups, shown⟩ := Synthesis.synthesize_ok synthesized
  have opened := Synthesis.open_of_groups formed
  have members := (groups_parts formed).2
  obtain ⟨tracks, woven, unseen⟩ : Tracks declared grouped ∧ Woven declared rules grouped ∧
      grouped.exchange.views = [] := by
    refine inOrder_keeps (P := fun c => Tracks declared c ∧ Woven declared rules c ∧
      c.exchange.views = []) ?_ ⟨.start own, ⟨List.forall_mem_nil _,
        List.forall_mem_nil _, .nil, List.forall_mem_nil _⟩, rfl⟩ groups
    intro step listed c c' held stepped
    obtain ⟨g, inside, rfl⟩ := List.mem_map.mp listed
    obtain ⟨tracks, woven, unseen⟩ := held
    refine ⟨tracks.addGroup stepped, woven.addGroup fits tracks (opened g inside).columns
      (opened g inside).rules (fun r member => ?_) unseen stepped, ?_⟩
    · exact (members r).mp (List.mem_flatMap.mpr ⟨g, inside, member⟩)
    · obtain ⟨p, targets, -, -, -, -, exchange⟩ := Synthesis.addGroup_ok stepped
      rw [exchange]
      exact unseen
  have viewed : Woven declared rules b := by
    rcases shown with rfl | shown
    · exact woven
    · refine (inOrder_keeps (P := fun c => Woven declared rules c ∧
        grouped.catalog.Within c.catalog ∧ c.exchange.provenance = grouped.exchange.provenance) ?_
        ⟨woven, fun _ _ found => found, rfl⟩ shown).1
      intro step listed c c' held stepped
      obtain ⟨target, inside, rfl⟩ := List.mem_map.mp listed
      obtain ⟨woven, within, same⟩ := held
      have kept : declared.Within c.catalog := fun name r found => within _ _ (tracks.kept name r found)
      obtain ⟨woven, further, same⟩ := woven.addView kept own same
        (List.mem_flatMap.mp (mem_distinctNames.mp inside)) stepped
      exact ⟨woven, within.trans further, same⟩
  obtain ⟨provenance, views, -⟩ := composeVirtual_frame composed
  have within : b.catalog.Within b'.catalog := (Synthesis.addLocals_ok added).1
  refine ⟨rules, given, viewed.mono within ?_ ?_⟩
  · refine (provenance_inOrder ?_ added).trans provenance
    intro step listed c
    obtain ⟨r, -, rfl⟩ := List.mem_map.mp listed
    exact Synthesis.provenance_addLocal r c
  · refine inOrder_keeps (P := fun c => c.exchange.views = b.exchange.views) ?_ views added
    intro step listed c c' held stepped
    obtain ⟨r, -, rfl⟩ := List.mem_map.mp listed
    obtain ⟨-, -, exchange⟩ := Synthesis.addLocal_ok stepped
    rw [exchange]
    exact held

end Build

end PeerExchange
