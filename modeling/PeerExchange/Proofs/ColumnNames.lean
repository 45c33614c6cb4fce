import PeerExchange.Proofs.OuterJoinViews
import PeerExchange.Proofs.TableNames

namespace PeerExchange

namespace ProvenanceRelation

variable {p p' : ProvenanceRelation} {key : ColumnKey} {rule : Rule} {index : Nat}
  {columns columns' : List ProvenanceColumn} {catalog : Catalog}

section Naming

def candidates (p : ProvenanceRelation) (key : ColumnKey) : List String :=
  key.baseName :: (List.range (p.columns.length + 1)).map fun n =>
    key.baseName ++ "_" ++ toString (n + 1)

theorem nodup_candidates : (p.candidates key).Nodup := by
  refine List.nodup_cons.mpr ⟨fun numbered => ?_, ?_⟩
  · obtain ⟨n, -, same⟩ := List.mem_map.mp numbered
    have lengths := congrArg (fun s : String => s.toList.length) same
    simp only [String.toList_append, List.length_append] at lengths
    rw [show "_".toList.length = 1 from rfl] at lengths
    omega
  · refine List.Nodup.map (fun m n same => ?_) List.nodup_range
    exact Nat.succ.inj (Maintenance.placeName_injective (key.baseName ++ "_") same)

theorem underscore_baseName : '_' ∈ key.baseName.toList := by
  cases key <;> simp [ColumnKey.baseName]

theorem underscore_candidates {name : String} (tried : name ∈ p.candidates key) :
    '_' ∈ name.toList := by
  rcases List.mem_cons.mp tried with rfl | numbered
  · exact underscore_baseName
  · obtain ⟨n, -, rfl⟩ := List.mem_map.mp numbered
    rw [String.toList_append, String.toList_append]
    exact List.mem_append_left _ (List.mem_append_left _ underscore_baseName)

theorem columnName_new : p.columnName key ∈ p.candidates key ∧
    p.columnName key ∉ p.columns.map ProvenanceColumn.name := by
  have called (name : String) : (!p.columns.any (·.name = name)) = true ↔
      name ∉ p.columns.map ProvenanceColumn.name := by
    simp
  unfold columnName
  change ((p.candidates key).find? _).getD _ ∈ _ ∧ ((p.candidates key).find? _).getD _ ∉ _
  cases found : (p.candidates key).find? fun name => !p.columns.any (·.name = name) with
  | some name =>
    have new : (!p.columns.any (·.name = name)) = true :=
      List.find?_some (p := fun name => !p.columns.any (·.name = name)) found
    exact ⟨List.mem_of_find?_eq_some found, (called name).mp new⟩
  | none =>
    have taken : p.candidates key ⊆ p.columns.map ProvenanceColumn.name := by
      intro name tried
      by_contra new
      exact List.find?_eq_none.mp found name tried ((called name).mpr new)
    have fewer := (nodup_candidates.subperm taken).length_le
    simp [candidates] at fewer

end Naming

-- Data columns have names of their own, and no name is without an underscore.
structure Named (columns : List ProvenanceColumn) : Prop where
  nodup : (columns.map ProvenanceColumn.name).Nodup
  parts : ∀ c ∈ columns, '_' ∈ c.name.toList

theorem Named.congr (named : Named columns)
    (same : columns'.map ProvenanceColumn.name = columns.map ProvenanceColumn.name) :
    Named columns' := by
  refine ⟨same ▸ named.nodup, fun c inside => ?_⟩
  have listed : c.name ∈ columns.map ProvenanceColumn.name := same ▸ List.mem_map_of_mem inside
  obtain ⟨d, member, equal⟩ := List.mem_map.mp listed
  exact equal ▸ named.parts d member

theorem Named.withColumn {e : Provenance.Entry} (named : Named p.columns) :
    Named (p.withColumn e).columns := by
  unfold ProvenanceRelation.withColumn
  split
  · exact named
  · obtain ⟨tried, new⟩ := @columnName_new p e.key
    constructor
    · rw [List.map_append, List.nodup_append]
      refine ⟨named.nodup, List.nodup_singleton _, ?_⟩
      rintro name old _ here rfl
      have same : name = p.columnName e.key := List.mem_singleton.mp here
      exact new (same ▸ old)
    · exact List.forall_mem_append.mpr ⟨named.parts, List.forall_mem_singleton.mpr
        (underscore_candidates tried)⟩

theorem names_fill {e : Provenance.Entry} (ran : fill rule index e columns = .ok columns') :
    columns'.map ProvenanceColumn.name = columns.map ProvenanceColumn.name := by
  induction columns generalizing columns' with
  | nil =>
    cases ran
    rfl
  | cons c rest ih =>
    unfold fill at ran
    split at ran
    · split at ran
      · cases ran
      · split at ran
        · cases ran
          rfl
        · cases ran
    · obtain ⟨others, later, ran⟩ := Compiled.bind_ok.mp ran
      cases ran
      rw [List.map_cons, List.map_cons, ih later]

theorem Named.addEntries {es : List Provenance.Entry} (named : Named p.columns)
    (ran : addEntries rule es p = (p', .ok ())) : Named p'.columns := by
  induction es generalizing p with
  | nil =>
    cases ran
    exact named
  | cons e rest ih =>
    unfold ProvenanceRelation.addEntries at ran
    dsimp only at ran
    split at ran
    · rename_i columns filled
      exact ih (p := { p.withColumn e with columns := columns })
        (named.withColumn.congr (names_fill filled)) ran
    · cases congrArg Prod.snd ran

theorem Named.addRules {members : List Rule} (named : Named p.columns)
    (ran : addRules catalog members p = .ok p') : Named p'.columns := by
  induction members generalizing p with
  | nil =>
    cases ran
    exact named
  | cons rule rest ih =>
    unfold ProvenanceRelation.addRules at ran
    split at ran
    · rename_i middle added
      refine ih ?_ ran
      unfold addRule at added
      split at added
      · cases congrArg Prod.snd added
      · split at added
        · cases congrArg Prod.snd added
        · rename_i filled entered
          cases added
          refine (named.addEntries entered).congr ?_
          rw [List.map_map]
          refine List.map_congr_left fun c _ => ?_
          rw [Function.comp_apply, padTo]
          split <;> rfl
    · cases ran

theorem IsFilled.named {declared : Catalog} {rules : List Rule} (filled : p.IsFilled declared rules) :
    Named p.columns := by
  obtain ⟨known, members, start, -, -, -, none, -, added⟩ := filled.parts
  have nothing : Named start.columns := none ▸ ⟨.nil, List.forall_mem_nil _⟩
  exact nothing.addRules added

end ProvenanceRelation

namespace Relation

variable {r : Relation} {kind : TableKind}

def markers (r : Relation) : List String := r.columns.filterMap r.markerOf?

theorem mem_markers {name : String} :
    name ∈ r.markers ↔ ∃ c ∈ r.columns, r.markerOf? c = some name := List.mem_filterMap

theorem marker_eq {c : Column} {name : String} (marked : r.markerOf? c = some name) :
    name = c.name ++ markerSuffix := by
  unfold markerOf? at marked
  split at marked
  · exact (Option.some.inj marked).symm
  · cases marked

theorem nodup_markers (distinct : (r.columns.map Column.name).Nodup) : r.markers.Nodup := by
  have listed : r.markers = ((r.columns.filter fun c => r.labeledNulls && c.nullable).map
      Column.name).map (· ++ markerSuffix) := by
    rw [markers, List.map_map]
    induction r.columns with
    | nil => rfl
    | cons c rest ih =>
      by_cases marked : (r.labeledNulls && c.nullable) = true
      · rw [List.filterMap_cons_some (by rw [markerOf?, if_pos marked]),
          List.filter_cons, if_pos marked, List.map_cons, ih]
        rfl
      · rw [List.filterMap_cons_none (by rw [markerOf?, if_neg marked]),
          List.filter_cons, if_neg marked, ih]
  rw [listed]
  refine List.Nodup.map (fun a b same => (String.append_left_inj _).mp same) ?_
  exact distinct.sublist (List.filter_sublist.map Column.name)

theorem perm_physicalColumns : ((r.physicalColumns kind).map Prod.fst).Perm
    (r.columns.map Column.name ++ r.markers ++
      if r.hasStratum kind then [stratumColumn] else []) := by
  have along (columns : List Column) : (columns.flatMap fun c =>
      c.name :: (r.markerOf? c).toList).Perm
        (columns.map Column.name ++ columns.filterMap r.markerOf?) := by
    induction columns with
    | nil => exact .nil
    | cons c rest ih =>
      have parts : (c :: rest).filterMap r.markerOf? =
          (r.markerOf? c).toList ++ rest.filterMap r.markerOf? := by
        rw [List.filterMap_cons]
        cases r.markerOf? c <;> rfl
      rw [parts, List.flatMap_cons, List.map_cons, List.cons_append, List.cons_append]
      refine .cons _ ((ih.append_left _).trans ?_)
      exact List.perm_append_comm_assoc _ _ _
  have names : (r.physicalColumns kind).map Prod.fst =
      (r.columns.flatMap fun c => c.name :: (r.markerOf? c).toList) ++
        if r.hasStratum kind then [stratumColumn] else [] := by
    rw [physicalColumns, List.map_append, List.map_flatMap]
    congr 1
    · refine List.flatMap_congr fun c _ => ?_
      cases r.markerOf? c <;> rfl
    · split <;> rfl
  rw [names]
  exact (along r.columns).append_right _

theorem nodup_physicalColumns_iff (unnamed : stratumColumn ∉ r.columns.map Column.name) :
    ((r.physicalColumns kind).map Prod.fst).Nodup ↔ (r.columns.map Column.name).Nodup ∧
      ∀ c ∈ r.columns, c.name ∉ r.markers := by
  have unmarked : stratumColumn ∉ r.markers := by
    intro marked
    obtain ⟨c, -, same⟩ := mem_markers.mp marked
    have underscore : '_' ∈ stratumColumn.toList := by
      rw [marker_eq same, String.toList_append]
      exact List.mem_append_right _ (by decide)
    exact absurd underscore (by decide)
  have last : (if r.hasStratum kind then [stratumColumn] else []).Nodup ∧
      ∀ name ∈ r.columns.map Column.name ++ r.markers,
        ∀ other ∈ (if r.hasStratum kind then [stratumColumn] else []), name ≠ other := by
    split
    · refine ⟨List.nodup_singleton _, fun name inside other here same => ?_⟩
      rw [same, List.mem_singleton.mp here] at inside
      exact (List.mem_append.mp inside).elim unnamed unmarked
    · exact ⟨.nil, fun _ _ _ none => absurd none List.not_mem_nil⟩
  rw [perm_physicalColumns.nodup_iff, List.nodup_append, and_iff_left last, List.nodup_append]
  constructor
  · rintro ⟨distinct, -, apart⟩
    exact ⟨distinct, fun c inside marked => apart _ (List.mem_map_of_mem inside) _ marked rfl⟩
  · rintro ⟨distinct, apart⟩
    refine ⟨distinct, nodup_markers distinct, ?_⟩
    rintro _ inside _ marked rfl
    obtain ⟨c, member, rfl⟩ := List.mem_map.mp inside
    exact apart c member marked

end Relation

namespace ProvenanceRelation

variable {p : ProvenanceRelation}

def trustNames (p : ProvenanceRelation) : List String := p.trust.toList.map ("TRUST_" ++ ·)

-- No data column is called like a trust column, and no column like a companion.
structure HasOwnNames (p : ProvenanceRelation) : Prop where
  trust : ∀ c ∈ p.columns, c.name ∉ p.trustNames
  companions : ∀ c ∈ p.relation.columns, c.name ∉ p.relation.markers

theorem relation_names : p.relation.columns.map Column.name =
    (if p.hasMappingColumn then [mappingColumn] else []) ++
      (p.columns.map ProvenanceColumn.name ++ p.trustNames) := by
  rw [relation, dataColumns, trustNames]
  split <;> simp [Function.comp_def]

theorem underscore_of_name (named : Named p.columns) {name : String}
    (inside : name ∈ p.columns.map ProvenanceColumn.name ++ p.trustNames) : '_' ∈ name.toList := by
  rcases List.mem_append.mp inside with data | trust
  · obtain ⟨c, member, rfl⟩ := List.mem_map.mp data
    exact named.parts c member
  · obtain ⟨peer, -, rfl⟩ := List.mem_map.mp trust
    rw [String.toList_append]
    exact List.mem_append_left _ (by decide)

theorem nodup_names_iff (named : Named p.columns) :
    (p.relation.columns.map Column.name).Nodup ↔ ∀ c ∈ p.columns, c.name ∉ p.trustNames := by
  have trust : p.trustNames.Nodup :=
    (NameMap.nodup_keys p.trust).map fun a b same => (String.append_right_inj _).mp same
  have first : (if p.hasMappingColumn then [mappingColumn] else []).Nodup ∧
      ∀ name ∈ (if p.hasMappingColumn then [mappingColumn] else []),
        ∀ other ∈ p.columns.map ProvenanceColumn.name ++ p.trustNames, name ≠ other := by
    split
    · refine ⟨List.nodup_singleton _, ?_⟩
      rintro name here _ inside rfl
      have underscore := underscore_of_name named inside
      rw [List.mem_singleton.mp here] at underscore
      exact absurd underscore (by decide)
    · exact ⟨.nil, fun _ none => absurd none List.not_mem_nil⟩
  rw [relation_names, List.nodup_append, List.nodup_append]
  constructor
  · rintro ⟨-, ⟨-, -, apart⟩, -⟩ c inside trusted
    exact apart _ (List.mem_map_of_mem inside) _ trusted rfl
  · intro apart
    refine ⟨first.1, ⟨named.nodup, trust, ?_⟩, first.2⟩
    rintro _ data _ trusted rfl
    obtain ⟨c, member, rfl⟩ := List.mem_map.mp data
    exact apart c member trusted

theorem stratum_unnamed (named : Named p.columns) :
    Relation.stratumColumn ∉ p.relation.columns.map Column.name := by
  intro inside
  rw [relation_names] at inside
  rcases List.mem_append.mp inside with first | rest
  · split at first
    · exact absurd (List.mem_singleton.mp first) (by decide)
    · cases first
  · exact absurd (underscore_of_name named rest) (by decide)

theorem nodup_tables_iff (named : Named p.columns) {r : Relation}
    (stored : r = p.relation ∨ r = { p.relation with stratified := true }) :
    (∀ kind, ((r.physicalColumns kind).map Prod.fst).Nodup) ↔ p.HasOwnNames := by
  have columns : r.columns = p.relation.columns ∧ r.markers = p.relation.markers := by
    rcases stored with rfl | rfl <;> exact ⟨rfl, rfl⟩
  have each (kind : TableKind) : ((r.physicalColumns kind).map Prod.fst).Nodup ↔ p.HasOwnNames := by
    rw [Relation.nodup_physicalColumns_iff (columns.1 ▸ stratum_unnamed named), columns.1, columns.2,
      nodup_names_iff named]
    exact ⟨fun both => ⟨both.1, both.2⟩, fun own => ⟨own.trust, own.companions⟩⟩
  exact ⟨fun all => (each .base).mp (all .base), fun own kind => (each kind).mpr own⟩

end ProvenanceRelation

namespace OuterJoinView

variable {target : Relation} {members : List ProvenanceRelation} {p : ProvenanceRelation}

def shownNames (target : Relation) (p : ProvenanceRelation) : List String :=
  (p.relation.columns.zipIdx.filter fun (_, i) => (joinedPosition? target p i).isNone).map
    fun (c, _) => p.name ++ "_" ++ c.name

theorem added_names (m : Nat) :
    ((memberPlaces target m p).filterMap Prod.snd).map (·.1.name) = shownNames target p := by
  rw [memberPlaces, List.mapIdx_eq_zipIdx_map, shownNames]
  induction p.relation.columns.zipIdx with
  | nil => rfl
  | cons entry rest ih =>
    obtain ⟨c, i⟩ := entry
    rw [List.map_cons, List.filterMap_cons, List.filter_cons]
    cases joined : joinedPosition? target p i with
    | some k => simpa [memberPlace, joined] using ih
    | none => simpa [memberPlace, joined] using ih

theorem names_build : (build target members).2.columns.map Column.name =
    target.columns.map Column.name ++ members.flatMap (shownNames target) := by
  have shown : ((members.mapIdx (memberPlaces target)).flatten.filterMap Prod.snd).map (·.1.name) =
      members.flatMap (shownNames target) := by
    rw [List.filterMap_flatten, List.map_flatten, List.flatMap_def, List.map_map]
    refine congrArg List.flatten (List.ext_getElem (by simp) fun i _ bound => ?_)
    simpa using added_names i
  rw [← shown]
  simp [build, Function.comp_def]

structure HasOwnNames (target : Relation) (members : List ProvenanceRelation) : Prop where
  kept : ∀ p ∈ members, ∀ c ∈ target.columns, c.name ∉ shownNames target p
  apart : ∀ p ∈ members, ∀ q ∈ members, p ≠ q → (shownNames target p).Disjoint (shownNames target q)

theorem nodup_build_iff (declared : (target.columns.map Column.name).Nodup)
    (distinct : members.Nodup) (own : ∀ p ∈ members, (p.relation.columns.map Column.name).Nodup) :
    ((build target members).2.columns.map Column.name).Nodup ↔ HasOwnNames target members := by
  have each : ∀ p ∈ members, (shownNames target p).Nodup := by
    intro p member
    have names : ((p.relation.columns.zipIdx.filter fun (_, i) =>
        (joinedPosition? target p i).isNone).map fun (c, _) => c.name).Nodup := by
      refine List.Nodup.sublist (List.filter_sublist.map _) ?_
      rw [show (fun (entry : Column × Nat) => entry.1.name) = Column.name ∘ Prod.fst from rfl,
        ← List.map_map, List.zipIdx_map_fst]
      exact own p member
    have prefixed : shownNames target p = ((p.relation.columns.zipIdx.filter fun (_, i) =>
        (joinedPosition? target p i).isNone).map fun (c, _) => c.name).map (p.name ++ "_" ++ ·) := by
      rw [shownNames, List.map_map]
      rfl
    rw [prefixed]
    exact names.map fun a b same => (String.append_right_inj _).mp same
  rw [names_build, List.nodup_append, List.nodup_flatMap]
  constructor
  · rintro ⟨-, ⟨-, apart⟩, outside⟩
    refine ⟨fun p member c inside shown => ?_, fun p member q other differ => ?_⟩
    · exact outside _ (List.mem_map_of_mem inside) _ (List.mem_flatMap.mpr ⟨p, member, shown⟩) rfl
    · have symmetric : Std.Symm (Function.onFun List.Disjoint (shownNames target)) :=
        ⟨fun _ _ disjoint => disjoint.symm⟩
      exact apart.forall member other differ
  · intro names
    refine ⟨declared, ⟨each, distinct.pairwise_of_forall_ne names.apart⟩, ?_⟩
    rintro _ inside _ shown rfl
    obtain ⟨c, column, rfl⟩ := List.mem_map.mp inside
    obtain ⟨p, member, shown⟩ := List.mem_flatMap.mp shown
    exact names.kept p member c column shown

end OuterJoinView

namespace Catalog

variable {c : Catalog} {r : Relation}

-- Columns of the tables of provenance relations, and of views, have names of their own.
def ColumnsApart (c : Catalog) : Prop :=
  ∀ r ∈ c.relations.values,
    (r.role = .provenance → ∀ kind, ((r.physicalColumns kind).map Prod.fst).Nodup) ∧
    (r.role = .view → (r.columns.map Column.name).Nodup)

def columnLists (c : Catalog) : List (List String) :=
  c.relations.values.flatMap fun r =>
    match r.role with
    | .provenance => TableKind.all.map fun kind => (r.physicalColumns kind).map Prod.fst
    | .view => [r.columns.map Column.name]
    | .peer | .localEdits => []

theorem columnsApart_iff : c.ColumnsApart ↔ ∀ names ∈ c.columnLists, names.Nodup := by
  rw [ColumnsApart, columnLists, List.forall_mem_flatMap]
  refine forall₂_congr fun r _ => ?_
  cases r.role with
  | provenance =>
    have listed (kind : TableKind) : kind ∈ TableKind.all := by cases kind <;> decide
    rw [List.forall_mem_map]
    exact ⟨fun both kind _ => both.1 rfl kind, fun each =>
      ⟨fun _ kind => each kind (listed kind), nofun⟩⟩
  | view => simp
  | peer => simp
  | localEdits => simp

theorem nodup_columns_of_validate (valid : c.validate = .ok ()) (declared : r ∈ c.relations.values)
    (role : r.role = .peer) : (r.columns.map Column.name).Nodup := by
  obtain ⟨⟨⟩, each, -⟩ := Compiled.bind_ok.mp valid
  have checked := Compiled.forM_ok each r declared
  rw [checkRelation, if_pos role] at checked
  obtain ⟨⟨⟩, -, checked⟩ := Compiled.bind_ok.mp checked
  obtain ⟨⟨⟩, columns, -⟩ := Compiled.bind_ok.mp checked
  unfold checkColumns at columns
  split at columns
  · cases columns
  · split at columns
    · assumption
    · cases columns

end Catalog

namespace Maintenance

variable {names : List String} {plain marked : Catalog} {name : String} {r : Relation}

theorem Marks.before (marks : Marks names plain marked)
    (found : marked.relations.get? name = some r) :
    ∃ old, plain.relations.get? name = some old ∧ (r = old ∨ r = { old with stratified := true }) := by
  rcases marks name with same | ⟨-, old, held, same⟩
  · exact ⟨r, same.symm.trans found, .inl rfl⟩
  · exact ⟨old, held, .inr (Option.some.inj (found.symm.trans same))⟩

theorem Marks.after (marks : Marks names plain marked)
    (held : plain.relations.get? name = some r) :
    ∃ new, marked.relations.get? name = some new ∧ (new = r ∨ new = { r with stratified := true }) := by
  rcases marks name with same | ⟨-, old, held', same⟩
  · exact ⟨r, same.trans held, .inl rfl⟩
  · cases held.symm.trans held'
    exact ⟨_, same, .inr rfl⟩

end Maintenance

namespace Compilation

variable {text : String} {program : Program} {config : Config} {c : Compilation} {x : Exchange}

-- Names that are made up are taken by no other column: in the tables of provenance relations, and
-- in views of the relations that they lead into.
structure OwnColumns (c : Compilation) (x : Exchange) : Prop where
  recorded : ∀ p ∈ x.provenance, p.HasOwnNames
  shown : ∀ v ∈ x.views, ∀ target, c.catalog.relations.get? v.target = some target →
    OuterJoinView.HasOwnNames target (x.provenance.filter (·.targets.contains v.target))

-- Whatever was compiled, and whether or not recursive relations are marked.
theorem columns_apart_iff (parsed : Program.parse text = .ok program)
    (reached : Reached program.catalog config c) (exchange : c.exchange = some x) :
    c.catalog.ColumnsApart ↔ c.OwnColumns x := by
  have own := Program.parse_declared parsed
  have formed := reached.formed
  obtain ⟨b, made, rfl, marks⟩ := formed.exchange x exchange
  have tracks := Build.tracks_ofCatalog own made
  obtain ⟨rules, -, woven⟩ := Build.woven_ofCatalog own formed.valid made
  have named {p : ProvenanceRelation} (member : p ∈ b.exchange.provenance) :
      ProvenanceRelation.Named p.columns := (woven.filled p member).named
  -- The view of a declared relation, once its members have columns of their own.
  have views {target : Relation} (found : program.catalog.relations.get? target.name = some target)
      (recorded : ∀ p ∈ b.exchange.provenance, p.HasOwnNames) :
      ((OuterJoinView.build target (b.exchange.provenance.filter
        (·.targets.contains target.name))).2.columns.map Column.name).Nodup ↔
        OuterJoinView.HasOwnNames target
          (b.exchange.provenance.filter (·.targets.contains target.name)) := by
    refine OuterJoinView.nodup_build_iff ?_ (woven.distinct.of_map.filter _) fun p member => ?_
    · exact Catalog.nodup_columns_of_validate formed.valid (NameMap.mem_values.mpr ⟨_, found⟩)
        (own.relations _ _ found).2.1
    · have member := List.mem_of_mem_filter member
      exact (ProvenanceRelation.nodup_names_iff (named member)).mpr (recorded p member).trust
  constructor
  · intro apart
    have recorded : ∀ p ∈ b.exchange.provenance, p.HasOwnNames := by
      intro p member
      obtain ⟨r, found, stored⟩ := marks.after (tracks.recorded p member)
      refine (ProvenanceRelation.nodup_tables_iff (named member) stored).mp ?_
      refine (apart r (NameMap.mem_values.mpr ⟨_, found⟩)).1 ?_
      rcases stored with rfl | rfl <;> rfl
    refine ⟨recorded, fun v listed target held => ?_⟩
    obtain ⟨plain, found, -, built, described⟩ := (woven.shown v listed).parts
    have into : plain.name = v.target := congrArg OuterJoinView.target (congrArg Prod.fst built)
    rw [← into] at held ⊢
    obtain ⟨r, known, stored⟩ := marks.after described
    have distinct := (apart r (NameMap.mem_values.mpr ⟨_, known⟩)).2
      (by rcases stored with rfl | rfl <;> rfl)
    have names := (views found recorded).mp (by rcases stored with rfl | rfl <;> exact distinct)
    obtain ⟨old, before, same⟩ := marks.before held
    cases before.symm.trans (tracks.kept _ _ found)
    rcases same with rfl | rfl <;> exact ⟨names.kept, names.apart⟩
  · intro names r member
    obtain ⟨name, known⟩ := NameMap.mem_values.mp member
    obtain ⟨plain, found, stored⟩ := marks.before known
    have same : r.role = plain.role ∧ r.columns = plain.columns := by
      rcases stored with rfl | rfl <;> exact ⟨rfl, rfl⟩
    obtain ⟨rfl, origin⟩ := tracks.origin name plain found
    rw [same.1, same.2]
    cases origin with
    | declared held =>
      rw [(own.relations _ _ held).2.1]
      exact ⟨nofun, nofun⟩
    | provenance listed =>
      exact ⟨fun _ => (ProvenanceRelation.nodup_tables_iff (named listed) stored).mpr
        (names.recorded _ listed), nofun⟩
    | @view r v listed called role materialized =>
      refine ⟨fun provenance => ?_, fun _ => ?_⟩
      · rw [role] at provenance
        cases provenance
      · obtain ⟨target, held, -, built, described⟩ := (woven.shown v listed).parts
        rw [called, found] at described
        obtain rfl := Option.some.inj described
        refine (views held names.recorded).mpr ?_
        have into : target.name = v.target := congrArg OuterJoinView.target (congrArg Prod.fst built)
        obtain ⟨new, found, marked⟩ := marks.after (tracks.kept _ _ held)
        have names := names.shown v listed new (into ▸ found)
        rw [← into] at names
        rcases marked with rfl | rfl <;> exact ⟨names.kept, names.apart⟩
    | localEdits => exact ⟨nofun, nofun⟩

section Trusted

-- A mapping of one peer's relation into that of another peer, under the given names.
def trustedText (relation column : String) : String :=
  "peer A \x7b relation R(a: int); \x7d peer B \x7b relation " ++ relation ++ "(" ++ column ++
    ": int); \x7d mapping m: " ++ relation ++ "(x) :- R(x)."

def trustedCatalog (relation column : String) : Catalog where
  peers := [⟨"A", ["R"]⟩, ⟨"B", [relation]⟩]
  relations := (NameMap.empty.insert "R"
    { name := "R", peer := some "A", columns := [⟨"a", .integer, false⟩] }).insert relation
    { name := relation, peer := some "B", columns := [⟨column, .integer, false⟩] }
  mappings := [.ofHeads "m" [.ofRelation relation [.var "x"]] [.ofRelation "R" [.var "x"]]]

def trustedColumns (relation column : String) : Option (List (List String)) :=
  (compile? { provenance := .outerJoin } (trustedCatalog relation column)).bind fun compiled =>
    compiled.exchange.map fun _ => compiled.catalog.columnLists

theorem trustedColumns_parts {relation column : String} {lists : List (List String)}
    (parses : Program.parsesTo (trustedText relation column) (trustedCatalog relation column) = true)
    (found : trustedColumns relation column = some lists) :
    ∃ program compiled x, Program.parse (trustedText relation column) = .ok program ∧
      Reached program.catalog { provenance := .outerJoin } compiled ∧
      compiled.exchange = some x ∧ compiled.catalog.columnLists = lists := by
  obtain ⟨compiled, found, named⟩ := Option.bind_eq_some_iff.mp found
  obtain ⟨x, exchange, same⟩ := Option.map_eq_some_iff.mp named
  obtain ⟨c, created, made⟩ := compile?_parts found
  obtain ⟨program, parsed, catalog⟩ := Program.parsesTo_parts parses
  rw [← catalog] at created
  exact ⟨program, compiled, x, parsed, (Reached.created created).exchanged made, exchange, same⟩

theorem columns_apart_trusted : ∃ program compiled x,
    Program.parse (trustedText "T" "a") = .ok program ∧
    Reached program.catalog { provenance := .outerJoin } compiled ∧ compiled.exchange = some x ∧
    ["a", "P_m_TRUST_A"] ∈ compiled.catalog.columnLists ∧ compiled.OwnColumns x := by
  have listed : trustedColumns "T" "a" = some [["a", "P_m_TRUST_A"], ["T_a", "TRUST_A"],
      ["T_a", "TRUST_A"], ["T_a", "TRUST_A"]] := by cbv
  obtain ⟨program, compiled, x, parsed, reached, exchange, lists⟩ :=
    trustedColumns_parts (by decide +kernel) listed
  refine ⟨program, compiled, x, parsed, reached, exchange, by rw [lists]; decide,
    (columns_apart_iff parsed reached exchange).mp ?_⟩
  rw [Catalog.columnsApart_iff, lists]
  decide

-- A relation and a column can be called such that their data column is called like a trust column.
theorem trust_column_repeated : ∃ program compiled x,
    Program.parse (trustedText "TRUST" "A") = .ok program ∧
    Reached program.catalog { provenance := .outerJoin } compiled ∧ compiled.exchange = some x ∧
    ¬ compiled.catalog.ColumnsApart := by
  have listed : trustedColumns "TRUST" "A" = some [["A", "P_m_TRUST_A"], ["TRUST_A", "TRUST_A"],
      ["TRUST_A", "TRUST_A"], ["TRUST_A", "TRUST_A"]] := by cbv
  obtain ⟨program, compiled, x, parsed, reached, exchange, lists⟩ :=
    trustedColumns_parts (by decide +kernel) listed
  refine ⟨program, compiled, x, parsed, reached, exchange, ?_⟩
  rw [Catalog.columnsApart_iff, lists]
  decide

end Trusted

end Compilation

end PeerExchange
