import PeerExchange.Proofs.ColumnNames
import PeerExchange.Proofs.TypedRules

namespace PeerExchange

open Provenance

variable {catalog known : Catalog} {types : Typing} {stated : Literal → Prop}

-- The constants that are recorded beside those of the rules: padding, ids of rules and priorities.
structure Provenance.Recordable (stated : Literal → Prop) (trust : TrustPolicy) : Prop where
  null : stated .null
  text : ∀ s, stated (.string s)
  priority : ∀ peer source, stated (.integer (trust.priority peer source))

theorem Provenance.Recordable.hasType_null {trust : TrustPolicy} (recordable : Recordable stated trust)
    (types : Typing) (type : ColumnType) : (Term.lit .null).HasType stated types type :=
  ⟨fun _ same => (by cases same), recordable.null⟩

theorem Provenance.hasType_of_place {a : Atom} {r : Relation} {place : AtomPlace}
    (within : known.Within catalog) (found : known.relation a.relationName = .ok r)
    (placed : place ∈ placesOf r a) (related : a.relation?.isSome = true)
    (typed : a.IsTyped stated catalog types) : place.arg.HasType stated types place.column.type := by
  obtain ⟨name, named⟩ := Option.isSome_iff_exists.mp related
  obtain ⟨r', found', each⟩ := typed.stored name named
  have own := within _ _ (Catalog.relation_ok.mp found)
  rw [Atom.relationName_of_relation named] at own
  obtain rfl : r = r' := Option.some.inj (own.symm.trans found')
  obtain ⟨⟨arg, column⟩, inside, rfl⟩ := List.mem_map.mp placed
  exact (List.forall₂_iff_zip.mp each).2 inside

namespace ProvenanceRelation

variable {p : ProvenanceRelation} {members : List Rule} {rows : List (List Provenance.Entry)} {i : Nat}
  {trust : TrustPolicy} {made : Catalog} {fresh : FreshNames}

section Filling

variable (recorded : p.Recorded known members rows) (bound : i < members.length)

section Typed

variable (recordable : Recordable stated trust)

include recorded bound recordable

theorem Recorded.hasType_sourceArg {c : ProvenanceColumn} (within : known.Within catalog)
    (heads : ∀ a ∈ members[i].head, a.relation?.isSome = true)
    (typed : ∀ a ∈ members[i].head ++ members[i].body, a.IsTyped stated catalog types)
    (inside : c ∈ p.columns) : (sourceArg i c).HasType stated types c.type := by
  unfold sourceArg
  split
  · rename_i sources targets arg found
    obtain ⟨es, listed, entries, e, member, key, given⟩ :=
      recorded.entry_of_contribution bound inside found
    obtain ⟨place, rfl, column, a, r, found, placed, from_⟩ := place_of_entry entries member given
    rw [recorded.types es listed e member c inside key.symm, ← column]
    rcases from_ with head | ⟨body, positive⟩
    · exact hasType_of_place within found placed (heads a head) (typed a (List.mem_append_left _ head))
    · exact hasType_of_place within found placed (Bool.and_eq_true_iff.mp positive).2
        (typed a (List.mem_append_right _ body))
  · exact recordable.hasType_null types _

theorem Recorded.fit_sourceArgs (within : known.Within catalog)
    (heads : ∀ a ∈ members[i].head, a.relation?.isSome = true)
    (typed : ∀ a ∈ members[i].head ++ members[i].body, a.IsTyped stated catalog types) :
    types.Fit stated (p.sourceArgs made trust i members[i]) p.relation.columns := by
  simp only [sourceArgs, sourceRule, Atom.ofRelation, List.flatMap_cons, List.flatMap_nil,
    List.append_nil, relation, dataColumns]
  refine List.rel_append (List.rel_append ?_ ?_) ?_
  · split
    · exact .cons ⟨fun own same => (Option.some.inj same).symm, recordable.text _⟩ .nil
    · exact .nil
  · rw [List.forall₂_map_left_iff, List.forall₂_map_right_iff, List.forall₂_same]
    exact fun c inside => recorded.hasType_sourceArg bound recordable within heads typed inside
  · rw [List.forall₂_map_left_iff, List.forall₂_map_right_iff, List.forall₂_same]
    intro peer _
    split
    · exact ⟨fun own same => (Option.some.inj same).symm, recordable.priority _ _⟩
    · exact recordable.hasType_null types _

theorem isTyped_sourceRule (within : known.Within catalog)
    (heads : ∀ a ∈ members[i].head, a.relation?.isSome = true) (typed : members[i].IsTyped stated catalog)
    (registered : catalog.relations.get? p.name = some p.relation) :
    (p.sourceRule made trust i members[i]).IsTyped stated catalog := by
  obtain ⟨types, typed⟩ := typed
  refine ⟨types, ?_⟩
  rw [head_sourceRule]
  exact List.forall_mem_append.mpr ⟨List.forall_mem_singleton.mpr
    (Atom.isTyped_places registered (recorded.fit_sourceArgs bound recordable within heads typed)),
    fun a inside => typed a (List.mem_append_right _ inside)⟩

end Typed

include recorded bound

theorem isPending_sourceRule (pending : members[i].IsPending fresh) :
    (p.sourceRule made trust i members[i]).IsPending fresh where
  base := pending.base
  typed := pending.typed
  names n inside := by
    rcases List.mem_append.mp inside with atoms | invented
    · obtain ⟨a, member, named⟩ := List.mem_flatMap.mp atoms
      rcases List.mem_append.mp member with head | body
      · rw [head_sourceRule] at head
        obtain rfl := List.mem_singleton.mp head
        obtain ⟨t, arg, v, within, rfl⟩ := Atom.mem_variableNames.mp named
        rcases recorded.arg_of_sourceArgs bound arg (List.ne_nil_of_mem within) with
          ⟨a, head, arg⟩ | ⟨a, body, -, arg⟩
        · exact pending.names _ (Rule.name_of_head head
            (Atom.mem_variableNames.mpr ⟨t, arg, v, within, rfl⟩))
        · exact pending.names _ (Rule.name_of_body body
            (Atom.mem_variableNames.mpr ⟨t, arg, v, within, rfl⟩))
      · exact pending.names n (Rule.name_of_body body named)
    · exact pending.names n (List.mem_append_right _ invented)

end Filling

-- A column of a target has the type of the column of the target, where those have distinct names.
theorem Recorded.type_of_target {c : ProvenanceColumn} {r : Relation} {column : Column}
    (recorded : p.Recorded known members rows) (named : catalog.IsNamed)
    (within : known.Within catalog) (found : catalog.relations.get? r.name = some r)
    (distinct : (r.columns.map Column.name).Nodup) (listed : column ∈ r.columns)
    (inside : c ∈ p.columns) (key : c.key = .target r.name column.name) : c.type = column.type := by
  obtain ⟨e, none | ⟨es, member, entry⟩, same⟩ := recorded.columns.needed c inside
  · cases none
  obtain ⟨rule, -, made⟩ := Compiled.forall₂_source recorded.entries member
  obtain ⟨read, written, -, writes, -, origin⟩ := entries_ok made
  obtain ⟨place, placed, rfl⟩ := origin e entry _ _ (same.trans key)
  obtain ⟨a, -, r', found', own⟩ := (places_ok writes).2 place placed
  obtain ⟨relation, name⟩ := ColumnKey.target.inj (same.trans key)
  -- The place is at the target's own column of that name.
  have held := within _ _ (Catalog.relation_ok.mp found')
  have same_ : r'.name = r.name := (relation_of_place own).symm.trans relation
  rw [← named _ _ held, same_, found] at held
  obtain rfl := Option.some.inj held
  obtain ⟨⟨arg, other⟩, pair, rfl⟩ := List.mem_map.mp own
  rw [recorded.types es member _ entry c inside same.symm]
  exact congrArg Column.type
    (List.inj_on_of_nodup_map distinct (List.of_mem_zip pair).2 listed name)

theorem isTyped_targetRule {target : String} {q : Rule} {after : Catalog}
    (recorded : p.Recorded known members rows) (named : catalog.IsNamed)
    (within : known.Within catalog) (included : after.Within catalog)
    (distinct : ∀ r, catalog.relations.get? target = some r → (r.columns.map Column.name).Nodup)
    (registered : catalog.relations.get? p.name = some p.relation)
    (made : p.targetRule after target = .ok q) : q.IsTyped stated catalog := by
  obtain ⟨r, args, found, mapped, heads, body, -⟩ := targetRule_ok made
  have found := included _ _ (Catalog.relation_ok.mp found)
  obtain rfl : r.name = target := named _ _ found
  obtain ⟨types, each⟩ := exists_typing "c" p.relation.columns
  have row : types.Fit stated p.bodyArgs p.relation.columns := by
    have size := @length_bodyArgs p
    rw [bodyArgs, List.length_map, List.length_range] at size
    rw [bodyArgs, size]
    exact each
  have own := Compiled.forall₂_of_mapM mapped
  have read : types.Fit stated args r.columns := by
    refine List.forall₂_iff_get.mpr ⟨own.length_eq.symm, fun k here there => ?_⟩
    obtain ⟨position, bound, key, arg⟩ := targetArg_ok ((List.forall₂_iff_get.mp own).2 k there here)
    have stored := (List.forall₂_iff_zip.mp row).2 (place_of_column bound)
    have type := recorded.type_of_target named within found (distinct r found) (List.get_mem _ _)
      (List.getElem_mem bound) key
    exact arg ▸ type ▸ stored
  refine ⟨types, ?_⟩
  rw [heads, body]
  exact List.forall_mem_cons.mpr ⟨Atom.isTyped_places found read,
    List.forall_mem_singleton.mpr (Atom.isTyped_places registered row)⟩

end ProvenanceRelation

section Steps

variable {x y : Exchange} {fresh : FreshNames}

theorem Exchange.composeVirtual_typed (ran : x.composeVirtual catalog fresh = (y, .ok ()))
    (real : ∀ r ∈ x.sourceToProvenance, catalog.isVirtual r.headRelation = false)
    (sources : ∀ r ∈ x.sourceToProvenance, r.IsTyped stated catalog ∧ r.IsPending fresh)
    (targets : ∀ r ∈ x.provenanceToTarget, r.IsDefinition ∧ r.IsTyped stated catalog) :
    ∀ r ∈ y.sourceToProvenance, r.IsTyped stated catalog := by
  obtain same | ⟨definitions, pending, n, fresh', defined, pended, ran⟩ :=
    composeVirtual_rounds ran real
  · exact fun r inside => (sources r (same ▸ inside)).1
  · exact Unfolding.typed_rounds (fun d inside => targets d (defined d inside))
      (fun r inside => sources r ((pended r).mp inside)) ran

theorem Synthesis.isTyped_localRule {relation : Relation}
    (found : catalog.relations.get? relation.name = some relation)
    (edits : catalog.relations.get? relation.localName = some relation.localRelation) :
    (localRule relation).IsTyped stated catalog := by
  obtain ⟨types, each⟩ := exists_typing "x" relation.columns
  exact ⟨types, List.forall_mem_cons.mpr ⟨Atom.isTyped_places found each,
    List.forall_mem_singleton.mpr (Atom.isTyped_places edits each)⟩⟩

end Steps

namespace Build

variable {declared : Catalog} {trust : TrustPolicy} {rules : List Rule} {b b' : Build} {y : Exchange}

-- The exchange program of typed rules is typed, through provenance relations, composition and
-- minimization.
theorem Composed.typed (composed : Composed declared trust rules b y b') (own : declared.IsDeclared)
    (valid : declared.validate = .ok ()) (fits : ∀ r ∈ rules, ∀ a ∈ r.head, a.Fits declared)
    (recordable : Recordable stated trust)
    (typed : ∀ r ∈ rules, r.IsTyped stated declared ∧ r.IsPending {}) :
    ∀ r ∈ b'.exchange.rules, r.IsTyped stated b'.catalog := by
  obtain ⟨grouped, stages, staged⟩ := composed.staged
  have named := composed.tracks.isNamed
  have registered {s : Stage} (member : s ∈ stages) :=
    (staged.led.sound s member).registered
  have sources : ∀ r ∈ b.exchange.sourceToProvenance, r.IsTyped stated b.catalog ∧ r.IsPending {} := by
    intro r inside
    obtain ⟨s, member, made, i, bound, ruled, rfl⟩ := source_of_staged staged inside
    obtain ⟨known, rows, within, recorded⟩ := (staged.led.sound s member).recorded
    obtain ⟨typed, pending⟩ := typed _ ruled
    refine ⟨ProvenanceRelation.isTyped_sourceRule recorded bound recordable within (fun a head => ?_)
      (typed.mono staged.led.within.keepsColumns) (registered member),
      ProvenanceRelation.isPending_sourceRule recorded bound pending⟩
    obtain ⟨name, -, related, -⟩ := fits _ ruled a head
    exact Option.isSome_iff_exists.mpr ⟨name, related⟩
  have targets : ∀ r ∈ b.exchange.provenanceToTarget, r.IsDefinition ∧ r.IsTyped stated b.catalog := by
    intro q inside
    obtain ⟨s, member, after, included, target, listed, made⟩ := target_of_staged staged inside
    obtain ⟨known, rows, within, recorded⟩ := (staged.led.sound s member).recorded
    refine ⟨(ProvenanceRelation.isProjection_targetRule made (registered member)).definition,
      ProvenanceRelation.isTyped_targetRule recorded named within included (fun r found => ?_)
        (registered member) made⟩
    -- Targets are declared, with columns of distinct names.
    have within := staged.led.within
    obtain ⟨rule, ruled, a, head, target_⟩ := ((staged.led.sound s member).mem_targets named
      fun rule ruled a head => Atom.Fits.mono (fits rule (staged.given member ruled) a head) within).mp
        listed
    obtain ⟨name, r', related, held, -⟩ := fits rule (staged.given member ruled) a head
    cases target_.symm.trans related
    obtain rfl : r = r' := Option.some.inj (found.symm.trans (within _ _ held))
    exact Catalog.nodup_columns_of_validate valid (NameMap.mem_values.mpr ⟨_, held⟩)
      (own.relations _ _ held).2.1
  have unfolded := Exchange.composeVirtual_typed composed.composed (fun r => real_of_staged staged)
    sources targets
  intro r inside
  obtain ⟨relation, rfl, found, edits⟩ | ⟨q, from_, rfl⟩ := composed.mem_rules inside
  · exact Synthesis.isTyped_localRule found edits
  · have typed : q.IsTyped stated b.catalog := from_.elim (unfolded q) fun target => (targets q target).2
    exact typed.minimize.mono composed.localized.within.keepsColumns

end Build

end PeerExchange
