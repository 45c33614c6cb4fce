import PeerExchange.Proofs.LowerablePrograms
import PeerExchange.Proofs.SafeMappings

namespace PeerExchange

open Provenance

namespace Provenance

variable {catalog : Catalog} {rule : Rule} {es : List Entry} {e : Entry} {arg : Term}
  {sources targets : List ColumnRef}

theorem place_sourceEntries {read ps : List AtomPlace} {passed : List String} {taken : List ColumnRef}
    (member : e ∈ sourceEntries read passed taken ps)
    (given : e.contribution = .source sources targets arg) :
    ∃ place ∈ ps, place.arg = arg ∧ place.column = e.column := by
  induction ps generalizing passed taken with
  | nil => cases member
  | cons place rest ih =>
    have later {passed : List String} {taken : List ColumnRef}
        (member : e ∈ sourceEntries read passed taken rest) :
        ∃ p ∈ place :: rest, p.arg = arg ∧ p.column = e.column := by
      obtain ⟨p, listed, same⟩ := ih member
      exact ⟨p, List.mem_cons_of_mem _ listed, same⟩
    unfold sourceEntries at member
    split at member
    · split at member
      · exact later member
      · rcases List.mem_cons.mp member with rfl | member
        · exact ⟨place, List.mem_cons_self, (Contribution.source.inj given).2.2, rfl⟩
        · exact later member
    · exact later member

theorem arg_of_place {a : Atom} {r : Relation} {place : AtomPlace} (member : place ∈ placesOf r a) :
    place.arg ∈ a.args := by
  obtain ⟨pair, inside, rfl⟩ := List.mem_map.mp member
  exact (List.of_mem_zip inside).1

theorem place_of_entry (made : entries catalog rule = .ok es) (member : e ∈ es)
    (given : e.contribution = .source sources targets arg) :
    ∃ place, place.arg = arg ∧ place.column = e.column ∧ ∃ a r,
      catalog.relation a.relationName = .ok r ∧ place ∈ placesOf r a ∧
        (a ∈ rule.head ∨ a ∈ rule.body ∧ a.isPositive = true) := by
  obtain ⟨read, reads, made⟩ := Compiled.bind_ok.mp made
  obtain ⟨written, writes, made⟩ := Compiled.bind_ok.mp made
  cases made
  rcases List.mem_append.mp member with head | source
  · obtain ⟨place, listed, rfl⟩ := List.mem_map.mp head
    obtain ⟨a, inside, r, known, placed⟩ := (places_ok writes).2 place listed
    have same : place.arg = arg := by
      unfold targetEntry at given
      dsimp only at given
      split at given
      · cases given
      · exact (Contribution.source.inj given).2.2
    exact ⟨place, same, rfl, a, r, known, placed, .inl inside⟩
  · obtain ⟨place, listed, same, column⟩ := place_sourceEntries source given
    obtain ⟨a, inside, r, known, placed⟩ := (places_ok reads).2 place listed
    exact ⟨place, same, column, a, r, known, placed, .inr (List.mem_filter.mp inside)⟩

theorem arg_of_entry (made : entries catalog rule = .ok es) (member : e ∈ es)
    (given : e.contribution = .source sources targets arg) :
    (∃ a ∈ rule.head, arg ∈ a.args) ∨ ∃ a ∈ rule.body, a.isPositive = true ∧ arg ∈ a.args := by
  obtain ⟨place, rfl, -, a, r, -, placed, head | ⟨inside, positive⟩⟩ := place_of_entry made member given
  · exact .inl ⟨a, head, arg_of_place placed⟩
  · exact .inr ⟨a, inside, positive, arg_of_place placed⟩

end Provenance

namespace ProvenanceRelation

variable {catalog known : Catalog} {trust : TrustPolicy} {p : ProvenanceRelation} {rule q : Rule}
  {members : List Rule} {rows : List (List Provenance.Entry)} {i : Nat} {t : Term} {target : String}

theorem contribution_of_sourceArgs (inside : t ∈ p.sourceArgs catalog trust i rule)
    (open_ : t.vars ≠ []) :
    ∃ c ∈ p.columns, ∃ sources targets, c.contributions[i]? = some (.source sources targets t) := by
  simp only [sourceArgs, sourceRule, Atom.ofRelation, List.flatMap_cons, List.flatMap_nil,
    List.append_nil, List.mem_append] at inside
  rcases inside with (mapping | column) | peer
  · split at mapping
    · rw [List.mem_singleton.mp mapping] at open_
      exact absurd rfl open_
    · cases mapping
  · obtain ⟨c, member, rfl⟩ := List.mem_map.mp column
    refine ⟨c, member, ?_⟩
    unfold sourceArg at open_ ⊢
    split
    · rename_i sources targets arg found
      exact ⟨sources, targets, found⟩
    · rename_i other
      split at open_
      · rename_i found
        exact absurd found (other _ _ _)
      · exact absurd rfl open_
  · obtain ⟨name, -, rfl⟩ := List.mem_map.mp peer
    split at open_ <;> exact absurd rfl open_

theorem Recorded.entry_of_contribution {c : ProvenanceColumn} {sources targets : List ColumnRef}
    (recorded : p.Recorded known members rows) (bound : i < members.length) (member : c ∈ p.columns)
    (found : c.contributions[i]? = some (.source sources targets t)) :
    ∃ es ∈ rows, Provenance.entries known members[i] = .ok es ∧
      ∃ e ∈ es, e.key = c.key ∧ e.contribution = .source sources targets t := by
  rw [recorded.columns.contributions c member, List.find?_nil, Option.map_none, Option.toList_none,
    List.append_nil, List.getElem?_map] at found
  obtain ⟨es, row, given⟩ := Option.map_eq_some_iff.mp found
  obtain ⟨here, rfl⟩ := List.getElem?_eq_some_iff.mp row
  have made := (List.forall₂_iff_get.mp recorded.entries).2 i bound here
  unfold contributionOf at given
  cases entry : rows[i].find? (·.key = c.key) with
  | none =>
    rw [entry] at given
    cases given
  | some e =>
    rw [entry] at given
    have key := List.find?_some entry
    exact ⟨_, List.getElem_mem here, made, e, List.mem_of_find?_eq_some entry,
      of_decide_eq_true key, given⟩

theorem Recorded.arg_of_sourceArgs (recorded : p.Recorded known members rows)
    (bound : i < members.length) (inside : t ∈ p.sourceArgs catalog trust i members[i])
    (open_ : t.vars ≠ []) :
    (∃ a ∈ members[i].head, t ∈ a.args) ∨
      ∃ a ∈ members[i].body, a.isPositive = true ∧ t ∈ a.args := by
  obtain ⟨c, member, sources, targets, found⟩ := contribution_of_sourceArgs inside open_
  obtain ⟨es, -, made, e, listed, -, given⟩ := recorded.entry_of_contribution bound member found
  exact arg_of_entry made listed given

theorem safe_sourceRule (recorded : p.Recorded known members rows) (bound : i < members.length)
    (safe : members[i].IsSafe catalog)
    (registered : catalog.relations.get? p.name = some p.relation) {made : Catalog} :
    (p.sourceRule made trust i members[i]).IsSafe catalog ∧
      (p.sourceRule made trust i members[i]).Fills catalog := by
  refine ⟨⟨safe.body, safe.read, ?_, safe.computed⟩, _, head_sourceRule, rfl, rfl, p.relation,
    registered, length_sourceArgs.trans length_bodyArgs⟩
  rw [head_sourceRule]
  refine List.forall_mem_singleton.mpr fun v within => ?_
  obtain ⟨t, arg, within⟩ := List.mem_flatMap.mp within
  rcases recorded.arg_of_sourceArgs bound arg (List.ne_nil_of_mem within) with
    ⟨a, head, arg⟩ | ⟨a, inside, positive, arg⟩
  · exact safe.resolved a head v (List.mem_flatMap.mpr ⟨t, arg, within⟩)
  · exact .inl ((binds_closed _).joined a inside positive v.name
      (List.mem_map_of_mem (List.mem_flatMap.mpr ⟨t, arg, within⟩)))

theorem targetRule_parts (made : p.targetRule known target = .ok q) :
    ∃ args, args ⊆ p.bodyArgs ∧ q.head = [.ofRelation target args] ∧
      q.body = [.ofRelation p.name p.bodyArgs] ∧ q.inventions = [] := by
  obtain ⟨r, args, -, mapped, heads, body, inventions⟩ := targetRule_ok made
  refine ⟨args, fun t inside => ?_, heads, body, inventions⟩
  obtain ⟨c, -, made⟩ := Compiled.forall₂_source (Compiled.forall₂_of_mapM mapped) inside
  obtain ⟨position, bound, -, rfl⟩ := targetArg_ok made
  refine List.mem_map.mpr ⟨_, List.mem_range.mpr ?_, rfl⟩
  omega

theorem unmarked_bodyArgs : ∀ t ∈ p.bodyArgs, t.IsUnmarked :=
  List.forall_mem_map.mpr fun _ _ => ⟨rfl, rfl⟩

theorem isDefinition_targetRule (made : p.targetRule known target = .ok q) : q.IsDefinition := by
  obtain ⟨args, columns, heads, body, inventions⟩ := targetRule_parts made
  have typed : ∀ t ∈ p.bodyArgs, t.OwnType := List.forall_mem_map.mpr fun _ _ => nofun
  refine ⟨⟨_, heads, fun _ => ⟨rfl, rfl⟩, fun t inside => typed t (columns inside),
    fun t inside => (unmarked_bodyArgs t (columns inside)).not_isSkolem⟩, ?_, ?_, inventions⟩
  · rw [body]
    exact List.forall_mem_singleton.mpr fun _ => ⟨rfl, rfl⟩
  · rw [body]
    exact List.forall_mem_singleton.mpr typed

theorem isProjection_targetRule (made : p.targetRule known target = .ok q)
    (registered : catalog.relations.get? p.name = some p.relation) : q.IsProjection catalog := by
  obtain ⟨args, columns, heads, body, -⟩ := targetRule_parts made
  refine ⟨isDefinition_targetRule made, ?_, ?_, ?_, ?_⟩
  · rw [body]
    exact List.cons_ne_nil _ _
  · rw [body]
    exact List.forall_mem_singleton.mpr
      ⟨⟨rfl, rfl, unmarked_bodyArgs, fun _ => ⟨p.relation, registered, length_bodyArgs⟩, nofun⟩, rfl⟩
  · rw [heads]
    exact List.forall_mem_singleton.mpr fun t inside => unmarked_bodyArgs t (columns inside)
  · rw [heads, body]
    refine List.forall_mem_singleton.mpr fun name named => ⟨_, List.mem_singleton_self _, ?_⟩
    obtain ⟨t, arg, v, within, same⟩ := Atom.mem_variableNames.mp named
    exact Atom.mem_variableNames.mpr ⟨t, columns arg, v, within, same⟩

theorem fills_targetRule (within : known.Within catalog)
    (made : p.targetRule known target = .ok q) : q.Fills catalog := by
  obtain ⟨r, args, found, mapped, heads, -, -⟩ := targetRule_ok made
  exact ⟨_, heads, rfl, rfl, r, within _ _ (Catalog.relation_ok.mp found),
    (Compiled.forall₂_of_mapM mapped).length_eq.symm⟩

end ProvenanceRelation

section Steps

variable {catalog : Catalog} {q r : Rule} {x y : Exchange} {fresh : FreshNames}

theorem Rule.IsProjection.isSafe (projection : q.IsProjection catalog) : q.IsSafe catalog where
  body := projection.body
  read a inside := (projection.read a inside).1
  resolved a head v within := by
    obtain ⟨b, listed, named⟩ := projection.joined a head v.name (List.mem_map_of_mem within)
    exact .inl ((binds_closed _).joined b listed (projection.read b listed).2 v.name named)
  computed a inside called := by
    rw [Atom.builtin?_of_isPositive (projection.read a inside).2] at called
    cases called

-- Virtual relations are unfolded in the rules that fill provenance relations, through those that
-- read them back.
theorem Exchange.composeVirtual_rounds (ran : x.composeVirtual catalog fresh = (y, .ok ()))
    (real : ∀ r ∈ x.sourceToProvenance, catalog.isVirtual r.headRelation = false) :
    y.sourceToProvenance = x.sourceToProvenance ∨ ∃ definitions pending n fresh',
      (∀ d ∈ definitions, d ∈ x.provenanceToTarget) ∧ (∀ r, r ∈ pending ↔ r ∈ x.sourceToProvenance) ∧
        Unfolding.rounds catalog definitions n pending fresh = .ok (y.sourceToProvenance, fresh') := by
  rcases (composeVirtual_parts ran).2 with same | ⟨fresh', made⟩
  · exact .inl same
  · obtain ⟨n, ran⟩ := Unfolding.compose_rounds made
    refine .inr ⟨_, _, n, fresh', fun d defined => ?_, fun r => ⟨fun pending => ?_, fun source => ?_⟩, ran⟩
    · obtain ⟨listed, virtual⟩ := Unfolding.mem_definitionsOf.mp defined
      rcases List.mem_append.mp listed with source | definition
      · exact nomatch (real d source).symm.trans virtual
      · exact List.mem_of_mem_filter definition
    · obtain ⟨listed, real⟩ := List.mem_filter.mp pending
      rcases List.mem_append.mp listed with source | definition
      · exact source
      · rw [(List.mem_filter.mp definition).2] at real
        cases real
    · exact List.mem_filter.mpr ⟨List.mem_append_left _ source, by rw [real r source]; rfl⟩

theorem Exchange.composeVirtual_safe (ran : x.composeVirtual catalog fresh = (y, .ok ()))
    (real : ∀ r ∈ x.sourceToProvenance, catalog.isVirtual r.headRelation = false)
    (sources : ∀ r ∈ x.sourceToProvenance, r.IsSafe catalog ∧ r.Fills catalog)
    (targets : ∀ r ∈ x.provenanceToTarget, r.IsProjection catalog) :
    ∀ r ∈ y.sourceToProvenance, r.IsSafe catalog ∧ r.Fills catalog := by
  obtain same | ⟨definitions, pending, n, fresh', defined, pended, ran⟩ :=
    composeVirtual_rounds ran real
  · exact same ▸ sources
  · exact Unfolding.safe_rounds (fun d inside => targets d (defined d inside))
      (fun r inside => sources r ((pended r).mp inside)) ran

theorem Rule.Fills.minimize {isProvenance : String → Bool} (fills : r.Fills catalog) :
    (r.minimize isProvenance).1.Fills catalog := by
  rw [Rule.Fills, minimize_keeps.1]
  exact fills

theorem safe_localRule {relation : Relation}
    (found : catalog.relations.get? relation.name = some relation)
    (edits : catalog.relations.get? relation.localName = some relation.localRelation) :
    (Synthesis.localRule relation).IsSafe catalog ∧ (Synthesis.localRule relation).Fills catalog := by
  have arity : ((List.range relation.arity).map fun i => Term.var ("x" ++ toString i)).length =
      relation.arity := by simp
  refine ⟨⟨List.cons_ne_nil _ _, List.forall_mem_singleton.mpr ⟨rfl, rfl, ?_,
    fun _ => ⟨_, edits, arity⟩, nofun⟩, List.forall_mem_singleton.mpr fun v within => .inl ?_,
    List.forall_mem_singleton.mpr nofun⟩, _, rfl, rfl, rfl, relation, found, arity⟩
  · exact List.forall_mem_map.mpr fun _ _ => ⟨rfl, rfl⟩
  · exact (binds_closed _).joined _ (List.mem_singleton_self _) rfl v.name (List.mem_map_of_mem within)

end Steps

namespace Build

variable {declared : Catalog} {rules : List Rule} {b b' : Build} {y : Exchange} {config : Config}
  {trust : TrustPolicy}

-- What is composed has rules that copy local contributions, and for the rest minimizes the rules
-- around the provenance relations.
theorem Composed.mem_rules {r : Rule} (composed : Composed declared trust rules b y b')
    (inside : r ∈ b'.exchange.rules) :
    (∃ relation, r = Synthesis.localRule relation ∧
      b'.catalog.relations.get? relation.name = some relation ∧
      b'.catalog.relations.get? relation.localName = some relation.localRelation) ∨
    ∃ q, (q ∈ y.sourceToProvenance ∨ q ∈ b.exchange.provenanceToTarget) ∧
      r = (q.minimize b.catalog.isProvenance).1 := by
  rcases List.mem_append.mp inside with own | mapped
  · obtain ⟨relation, rfl, -, found, edits⟩ := composed.localized.locals_ r own
    exact .inl ⟨relation, rfl, found, edits⟩
  · have left := (Exchange.composeVirtual_parts composed.composed).1
    rw [Exchange.mappingRules, composed.localized.sources, composed.localized.targets] at mapped
    rcases List.mem_append.mp mapped with source | target
    · obtain ⟨q, listed, rfl⟩ := Exchange.mem_minimize_sources.mp source
      exact .inr ⟨q, .inl listed, rfl⟩
    · obtain ⟨q, listed, rfl⟩ := Exchange.mem_minimize_targets.mp target
      exact .inr ⟨q, .inr (left q listed).1, rfl⟩

section Rules

variable {grouped : Build} {stages : List Stage} {r : Rule}

theorem source_of_staged (staged : Synthesis.Staged declared trust rules grouped b stages)
    (inside : r ∈ b.exchange.sourceToProvenance) :
    ∃ s ∈ stages, ∃ known i, ∃ bound : i < s.members.length, s.members[i] ∈ rules ∧
      r = s.relation.sourceRule known trust i s.members[i] := by
  rw [staged.led.sources, List.nil_append] at inside
  obtain ⟨s, member, inside⟩ := List.mem_flatMap.mp inside
  obtain ⟨known, sources⟩ := staged.trusting s member
  rw [sources] at inside
  obtain ⟨i, bound, rfl⟩ := List.mem_mapIdx.mp inside
  exact ⟨s, member, known, i, bound, staged.given member (List.getElem_mem bound), rfl⟩

theorem target_of_staged (staged : Synthesis.Staged declared trust rules grouped b stages)
    (inside : r ∈ b.exchange.provenanceToTarget) :
    ∃ s ∈ stages, ∃ known, known.Within b.catalog ∧
      ∃ target ∈ s.relation.targets, s.relation.targetRule known target = .ok r := by
  rw [staged.led.targets, List.nil_append] at inside
  obtain ⟨s, member, inside⟩ := List.mem_flatMap.mp inside
  obtain ⟨known, within, targets⟩ := (staged.led.sound s member).targets
  obtain ⟨target, listed, made⟩ := Compiled.forall₂_source (Compiled.forall₂_of_mapM targets) inside
  exact ⟨s, member, known, within, target, listed, made⟩

theorem real_of_staged (staged : Synthesis.Staged declared trust rules grouped b stages)
    (inside : r ∈ b.exchange.sourceToProvenance) : b.catalog.isVirtual r.headRelation = false := by
  obtain ⟨s, member, known, i, bound, -, rfl⟩ := source_of_staged staged inside
  rw [Rule.headRelation_of_head (congrArg List.head? ProvenanceRelation.head_sourceRule) rfl]
  exact (Catalog.stores_iff.mp (staged.stores member)).2

theorem safe_of_staged (staged : Synthesis.Staged declared trust rules grouped b stages)
    (safe : ∀ r ∈ rules, r.IsSafe declared) (inside : r ∈ b.exchange.sourceToProvenance) :
    r.IsSafe b.catalog ∧ r.Fills b.catalog := by
  obtain ⟨s, member, known, i, bound, ruled, rfl⟩ := source_of_staged staged inside
  have sound := staged.led.sound s member
  obtain ⟨seen, rows, -, recorded⟩ := sound.recorded
  exact ProvenanceRelation.safe_sourceRule recorded bound
    ((safe _ ruled).mono staged.led.within.covers) sound.registered

theorem projection_of_staged (staged : Synthesis.Staged declared trust rules grouped b stages)
    (inside : r ∈ b.exchange.provenanceToTarget) : r.IsProjection b.catalog ∧ r.Fills b.catalog := by
  obtain ⟨s, member, known, within, target, -, made⟩ := target_of_staged staged inside
  exact ⟨ProvenanceRelation.isProjection_targetRule made (staged.led.sound s member).registered,
    ProvenanceRelation.fills_targetRule within made⟩

end Rules

theorem Composed.safe (composed : Composed declared trust rules b y b')
    (safe : ∀ r ∈ rules, r.IsSafe declared) :
    ∀ r ∈ b'.exchange.rules, r.IsSafe b'.catalog ∧ r.Fills b'.catalog := by
  obtain ⟨grouped, stages, staged⟩ := composed.staged
  have unfolded := Exchange.composeVirtual_safe composed.composed
    (fun r => real_of_staged staged) (fun r => safe_of_staged staged safe) fun r inside =>
      (projection_of_staged staged inside).1
  intro r inside
  obtain ⟨relation, rfl, found, edits⟩ | ⟨q, from_, rfl⟩ := composed.mem_rules inside
  · exact safe_localRule found edits
  · have covers := composed.localized.within.covers
    obtain ⟨safe, fills⟩ : q.IsSafe b.catalog ∧ q.Fills b.catalog := by
      rcases from_ with source | target
      · exact unfolded q source
      · exact (projection_of_staged staged target).imp_left Rule.IsProjection.isSafe
    exact ⟨safe.minimize.mono covers, fills.minimize.mono covers⟩

end Build

namespace OuterJoinView

variable {catalog catalog' : Catalog} {v : OuterJoinView} {target : Relation}
  {members : List ProvenanceRelation} {member : ProvenanceRelation} {m : Nat} {b : Atom}

-- A view that was built over relations of the catalog, and described in it.
structure IsShown (catalog : Catalog) (v : OuterJoinView) : Prop where
  parts : ∃ target members, build target members = (v, (build target members).2) ∧
    catalog.relations.get? target.name = some target ∧
    (∀ p ∈ members, catalog.relations.get? p.name = some p.relation) ∧
    catalog.relations.get? v.name = some (build target members).2

theorem IsShown.mono (shown : v.IsShown catalog) (within : catalog.Within catalog') :
    v.IsShown catalog' := by
  obtain ⟨target, members, built, found, registered, described⟩ := shown.parts
  exact ⟨target, members, built, within _ _ found, fun p listed => within _ _ (registered p listed),
    within _ _ described⟩

def targetArgs (target : Relation) : List Term := (List.range target.arity).map targetVariable

def memberAtom (target : Relation) (m : Nat) (member : ProvenanceRelation) : Atom :=
  { Atom.ofRelation member.name ((memberPlaces target m member).map Prod.fst) with optional := true }

theorem unmarked_memberPlaces : ∀ p ∈ memberPlaces target m member, p.1.IsUnmarked ∧
    ∀ column arg, p.2 = some (column, arg) → arg = p.1 := by
  intro p inside
  obtain ⟨i, bound, rfl⟩ := List.mem_mapIdx.mp inside
  unfold memberPlace
  split
  · exact ⟨⟨rfl, rfl⟩, nofun⟩
  · refine ⟨⟨rfl, rfl⟩, fun column arg same => ?_⟩
    cases same
    rfl

theorem body_build : (build target members).1.rule.body =
    .ofRelation target.name (targetArgs target) :: members.mapIdx (memberAtom target) := by
  refine congrArg (List.cons _) (List.ext_getElem (by simp) fun i _ bound => ?_)
  simp [memberAtom]

theorem added_joined {column : Column} {arg : Term} (inside : (column, arg) ∈
    ((members.mapIdx (memberPlaces target)).flatten.filterMap Prod.snd)) :
    ∃ b ∈ members.mapIdx (memberAtom target), arg ∈ b.args := by
  obtain ⟨place, listed, added⟩ := List.mem_filterMap.mp inside
  obtain ⟨places, row, listed⟩ := List.mem_flatten.mp listed
  obtain ⟨i, bound, rfl⟩ := List.mem_mapIdx.mp row
  refine ⟨_, List.mem_mapIdx.mpr ⟨i, bound, rfl⟩, ?_⟩
  rw [(unmarked_memberPlaces place listed).2 column arg added]
  exact List.mem_map_of_mem listed

theorem IsShown.lowerable (shown : v.IsShown catalog) (covers : catalog'.Covers catalog) :
    v.rule.Lowerable catalog' := by
  obtain ⟨target, members, built, found, registered, described⟩ := shown.parts
  obtain rfl : (build target members).1 = v := congrArg Prod.fst built
  have first : (Atom.ofRelation target.name (targetArgs target)).IsKnown catalog' :=
    Atom.IsKnown.mono covers ⟨target, found, by simp [Atom.ofRelation, targetArgs]⟩
  have known : ∀ b ∈ members.mapIdx (memberAtom target), b.IsKnown catalog' := by
    intro b inside
    obtain ⟨i, bound, rfl⟩ := List.mem_mapIdx.mp inside
    refine Atom.IsKnown.mono covers ⟨_, registered _ (List.getElem_mem bound), ?_⟩
    simp [memberAtom, Atom.ofRelation, memberPlaces, Relation.arity]
  have shape : ∀ b ∈ members.mapIdx (memberAtom target), b.isPositive = true ∧ b.optional = true ∧
      ∀ t ∈ b.args, t.IsUnmarked := by
    intro b inside
    obtain ⟨i, bound, rfl⟩ := List.mem_mapIdx.mp inside
    refine ⟨rfl, rfl, fun t arg => ?_⟩
    obtain ⟨p, listed, rfl⟩ := List.mem_map.mp arg
    exact (unmarked_memberPlaces p listed).1
  have positive : ∀ b ∈ (build target members).1.rule.body, b.isPositive = true := by
    rw [body_build]
    exact List.forall_mem_cons.mpr ⟨rfl, fun b inside => (shape b inside).1⟩
  have joined : ∀ t, (t ∈ targetArgs target ∨ ∃ b ∈ members.mapIdx (memberAtom target), t ∈ b.args) →
      ∀ u ∈ t.vars, Binds (build target members).1.rule.body u.name := by
    intro t read u within
    obtain ⟨b, listed, arg⟩ : ∃ b ∈ (build target members).1.rule.body, t ∈ b.args := by
      rw [body_build]
      rcases read with own | ⟨b, listed, arg⟩
      · exact ⟨_, List.mem_cons_self, own⟩
      · exact ⟨b, List.mem_cons_of_mem _ listed, arg⟩
    exact (binds_closed _).joined b listed (positive b listed) u.name
      (Atom.mem_variableNames.mpr ⟨t, arg, u, within, rfl⟩)
  refine ⟨body_build ▸ List.cons_ne_nil _ _, ⟨?_, ?_, ?_, ?_, ?_, ?_, ?_⟩, ⟨_, rfl, ?_, rfl, rfl, ?_⟩,
    .unstamped rfl⟩
  · rw [body_build]
    exact List.forall_mem_cons.mpr ⟨fun _ => first, fun b inside _ => known b inside⟩
  · intro b inside op called
    rw [Atom.builtin?_of_isPositive (positive b inside)] at called
    cases called
  · rw [body_build]
    exact List.forall_mem_cons.mpr ⟨fun _ => List.forall_mem_map.mpr fun _ _ => ⟨rfl, rfl⟩,
      fun b inside _ => (shape b inside).2.2⟩
  · rw [body_build, List.filter_cons_of_pos rfl, List.pairwise_cons]
    exact ⟨fun _ _ optional => Bool.noConfusion optional, List.pairwise_of_forall_mem_list fun _ _ b inside _ =>
      (shape b (List.mem_of_mem_filter inside)).2.1⟩
  · intro b inside negated
    rw [Atom.negated_of_isPositive (positive b inside)] at negated
    cases negated
  · intro b inside unjoined
    rw [positive b inside] at unjoined
    cases unjoined
  · exact fun _ _ _ _ => .unguarded
  · refine Atom.IsKnown.mono covers ⟨_, described, ?_⟩
    simp only [build, Atom.ofRelation, Relation.arity, List.length_append, List.length_map,
      List.length_range]
  · intro u within
    obtain ⟨t, arg, within⟩ := List.mem_flatMap.mp within
    refine .inl (joined t ?_ u within)
    rcases List.mem_append.mp arg with own | added
    · exact .inl own
    · obtain ⟨⟨column, t⟩, inside, rfl⟩ := List.mem_map.mp added
      exact .inr (added_joined inside)

end OuterJoinView

namespace Synthesis

variable {declared : Catalog} {rules : List Rule} {b : Build} {config : Config} {trust : TrustPolicy}

theorem shown_of_synthesize (own : declared.IsDeclared)
    (ran : synthesize config trust rules { catalog := declared } = (b, .ok ())) :
    ∀ v ∈ b.exchange.views, v.IsShown b.catalog := by
  obtain ⟨gs, grouped, -, added, shown⟩ := synthesize_ok ran
  obtain ⟨tracks, none⟩ : Build.Tracks declared grouped ∧ grouped.exchange.views = [] := by
    refine Build.inOrder_keeps (P := fun c => Build.Tracks declared c ∧ c.exchange.views = []) ?_
      ⟨Build.Tracks.start own, rfl⟩ added
    intro step listed c c' held stepped
    obtain ⟨g, -, rfl⟩ := List.mem_map.mp listed
    obtain ⟨p, targets, -, -, -, -, exchange⟩ := addGroup_ok stepped
    exact ⟨held.1.addGroup stepped, by rw [exchange]; exact held.2⟩
  rcases shown with rfl | shown
  · rw [none]
    exact List.forall_mem_nil _
  · refine (Build.inOrder_keeps (P := fun c => (c.catalog.IsNamed ∧
      grouped.catalog.Within c.catalog) ∧ ∀ v ∈ c.exchange.views, v.IsShown c.catalog) ?_
      ⟨⟨tracks.isNamed, fun _ _ found => found⟩, none ▸ List.forall_mem_nil _⟩ shown).2
    intro step listed c c' held stepped
    obtain ⟨target, -, rfl⟩ := List.mem_map.mp listed
    obtain ⟨r, known, ⟨-, rfl⟩ | ⟨built, rfl, fresh, relations, exchange⟩⟩ := addView_ok stepped
    · exact held
    · obtain ⟨⟨named, earlier⟩, held⟩ := held
      have within : c.catalog.Within c'.catalog := Catalog.within_insert fresh relations
      have found := Catalog.relation_ok.mp known
      refine ⟨⟨named.insert relations, earlier.trans within⟩, ?_⟩
      rw [exchange]
      refine List.forall_mem_append.mpr ⟨fun v member => (held v member).mono within,
        List.forall_mem_singleton.mpr ⟨r, _, rfl, ?_, fun p listed => ?_, ?_⟩⟩
      · exact within _ _ ((named _ _ found).symm ▸ found)
      · exact (earlier.trans within) _ _ (tracks.recorded p (List.mem_of_mem_filter listed))
      · rw [relations]
        exact (NameMap.get?_insert ..).trans (if_pos rfl)

end Synthesis

theorem Build.shown_ofCatalog {declared : Catalog} {config : Config} {trust : TrustPolicy} {b : Build}
    (own : declared.IsDeclared) (made : ofCatalog declared config trust = .ok b) :
    ∀ v ∈ b.exchange.views, v.IsShown b.catalog := by
  obtain ⟨rules, before, y, -, synthesized, composed⟩ := composed_ofCatalog own made
  intro v member
  rw [composed.localized.views, show (y.minimize before.catalog).views = y.views from rfl,
    (composeVirtual_frame composed.composed).2.1] at member
  exact (Synthesis.shown_of_synthesize own synthesized v member).mono composed.localized.within

namespace Maintenance

theorem mem_groups {m : Maintenance} {g : LabeledGroup} {rule : Rule} (listed : g ∈ m.groups)
    (inside : rule ∈ g.rules) : rule ∈ m.allRules := by
  unfold groups at listed
  unfold allRules rules
  simp only [List.mem_append, List.mem_flatMap, List.mem_cons, List.not_mem_nil, or_false] at listed ⊢
  rcases listed with ((⟨s, member, rfl | rfl | rfl⟩ | rfl) | ⟨s, member, rfl | rfl | rfl⟩) | rfl
  · exact .inl (.inl (.inl ⟨s, member, .inl (.inl inside)⟩))
  · exact .inl (.inl (.inl ⟨s, member, .inl (.inr inside)⟩))
  · exact .inl (.inl (.inl ⟨s, member, .inr inside⟩))
  · exact .inl (.inl (.inr inside))
  · exact .inl (.inr ⟨s, member, .inl (.inl inside)⟩)
  · exact .inl (.inr ⟨s, member, .inl (.inr inside)⟩)
  · exact .inl (.inr ⟨s, member, .inr inside⟩)
  · exact .inr inside

end Maintenance

theorem Lowering.failures_lowerGroup {catalog : Catalog} {config : Config} {iteration : Iteration}
    {rules : List Rule} (range : iteration.InRange) (lowerable : ∀ r ∈ rules, r.Lowerable catalog) :
    (lowerGroup catalog config iteration rules).failures = [] := by
  refine List.foldlRecOn rules _ (motive := fun g : Group => g.failures = []) rfl ?_
  intro g none r inside
  obtain ⟨statements, lowered⟩ := @Rule.Lowerable.lower catalog config iteration r (lowerable r inside) range
  rw [Group.add, lowered]
  exact none

namespace Compilation

variable {text : String} {program : Program} {config : Config} {trust : TrustPolicy}
  {c compiled ready : Compilation} {m : Maintenance} {iteration : Iteration}

-- What compiles to a maintenance program has statements for every group and every view.
theorem accepted_lowers (parsed : Program.parse text = .ok program)
    (created : ofCatalog program.catalog config = .ok c)
    (made : c.exchangeUnder trust = .ok compiled)
    (maintained : compiled.maintained = (ready, .ok ()))
    (found : ready.maintenance = some m) (range : iteration.InRange) :
    (∀ g ∈ m.groups,
      (Lowering.lowerGroup ready.catalog ready.config iteration g.rules).failures = []) ∧
      ∃ x, ready.exchange = some x ∧
        ∀ v ∈ x.views, ∃ statements, ready.lower iteration v.rule = .ok statements := by
  obtain ⟨b', built, catalog, exchange, -, valid⟩ := exchangeUnder_ok made
  have program_ := maintained_ok exchange maintained found
  rw [catalog] at program_
  have own := ofCatalog_declared parsed created
  obtain ⟨rules, b, y, given, -, composed⟩ := Build.composed_ofCatalog own built
  have safe := composed.safe (Mapping.rules_safe own valid given)
  have lowerable := Maintenance.lowerable_build program_ safe
  have kept : ready.exchange = some b'.exchange := by
    obtain ⟨-, -, -, rfl⟩ := maintained_made exchange maintained
    rfl
  refine ⟨fun g listed => Lowering.failures_lowerGroup range fun r inside =>
    lowerable r (Maintenance.mem_groups listed inside), b'.exchange, kept, fun v member => ?_⟩
  have covers := Maintenance.covers_marked (Maintenance.build_made program_).1
  exact ((Build.shown_ofCatalog own built v member).lowerable covers).lower range

-- Views are asked for, and the virtual relation is read through its definition.
theorem accepted_lowers_layers : ∃ program c compiled ready m,
    Program.parse (layerText "mapping d: V(x) :- R(x). mapping m: T(x) :- V(x).") = .ok program ∧
    ofCatalog program.catalog { provenance := .outerJoin } = .ok c ∧
    c.exchangeUnder {} = .ok compiled ∧ compiled.maintained = (ready, .ok ()) ∧
    ready.maintenance = some m ∧ (Iteration.literal 3).InRange ∧
    (ready.exchange.map fun x => x.views.map (·.name)) = some ["J_T"] ∧
    (∀ g ∈ m.groups,
      (Lowering.lowerGroup ready.catalog ready.config (.literal 3) g.rules).failures = []) ∧
    ∃ x, ready.exchange = some x ∧
      ∀ v ∈ x.views, ∃ statements, ready.lower (.literal 3) v.rule = .ok statements := by
  let catalog := layerCatalog [copyRule "d" "V" "R", copyRule "m" "T" "V"]
  have compiles : ((maintain? { provenance := .outerJoin } catalog).map fun (ready, _) =>
      ready.exchange.map fun x => x.views.map (·.name)) = some (some ["J_T"]) := by decide +kernel
  obtain ⟨⟨ready, m⟩, found, views⟩ := Option.map_eq_some_iff.mp compiles
  obtain ⟨c, compiled, created, made, maintained, found⟩ := maintain?_parts found
  have parses : Program.parsesTo (layerText "mapping d: V(x) :- R(x). mapping m: T(x) :- V(x).")
      catalog = true := by decide +kernel
  obtain ⟨program, parsed, same⟩ := Program.parsesTo_parts parses
  rw [← same] at created
  exact ⟨program, c, compiled, ready, m, parsed, created, made, maintained, found, by decide, views,
    accepted_lowers parsed created made maintained found (by decide)⟩

end Compilation

end PeerExchange
