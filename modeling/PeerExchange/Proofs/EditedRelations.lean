import PeerExchange.Engine
import PeerExchange.Proofs.EditCycle
import PeerExchange.Proofs.TableNames

namespace PeerExchange

namespace Maintenance

variable {x : Exchange} {catalog marked plain : Catalog} {program : Maintenance}
  {names listed : List String}

def Marks (names : List String) (plain marked : Catalog) : Prop :=
  ∀ name, marked.relations.get? name = plain.relations.get? name ∨
    name ∈ names ∧ ∃ r, plain.relations.get? name = some r ∧
      marked.relations.get? name = some { r with stratified := true }

theorem Marks.refl (names : List String) (plain : Catalog) : Marks names plain plain :=
  fun _ => .inl rfl

theorem Marks.mark (marks : Marks names plain catalog) (within : listed ⊆ names) :
    Marks names plain (markStratified listed catalog).1 := by
  induction listed generalizing catalog with
  | nil => exact marks
  | cons first rest ih =>
    obtain ⟨inside, later⟩ := List.cons_subset.mp within
    unfold markStratified
    split
    · exact marks
    · rename_i r known
      have found := Catalog.relation_ok.mp known
      refine ih (fun name => ?_) later
      rw [NameMap.get?_insert]
      split
      · rename_i same
        subst same
        rcases marks first with same | ⟨-, old, given, same⟩
        · exact .inr ⟨inside, r, same.symm.trans found, rfl⟩
        · cases found.symm.trans same
          exact .inr ⟨inside, old, given, rfl⟩
      · exact marks name

theorem Marks.build (marks : Marks (recursiveNames x) plain catalog) :
    Marks (recursiveNames x) plain (build x catalog).1 := by
  have marked := marks.mark (List.Subset.refl (recursiveNames x))
  unfold Maintenance.build
  split
  · exact marks
  · dsimp only
    split <;> rename_i same <;> rwa [same] at marked

def IsMarked (catalog : Catalog) (name : String) : Prop :=
  ∃ r, catalog.relations.get? name = some r ∧ r.stratified = true

theorem isMarked_markStratified (ran : markStratified listed catalog = (marked, .ok ()))
    {name : String} (either : name ∈ listed ∨ IsMarked catalog name) : IsMarked marked name := by
  induction listed generalizing catalog with
  | nil =>
    cases ran
    exact either.resolve_left List.not_mem_nil
  | cons first rest ih =>
    unfold markStratified at ran
    split at ran
    · cases congrArg Prod.snd ran
    · rename_i r known
      by_cases same : first = name
      · exact ih ran (.inr ⟨_, (NameMap.get?_insert ..).trans (if_pos same), rfl⟩)
      · refine ih ran (either.imp (fun inside => ?_) fun ⟨r, found, flag⟩ => ?_)
        · exact (List.mem_cons.mp inside).resolve_left fun equal => same equal.symm
        · exact ⟨r, (NameMap.get?_insert ..).trans ((if_neg same).trans found), flag⟩

theorem markStratified_again (already : ∀ name ∈ listed, IsMarked marked name) :
    markStratified listed marked = (marked, .ok ()) := by
  induction listed with
  | nil => rfl
  | cons first rest ih =>
    obtain ⟨⟨r, found, flag⟩, later⟩ := List.forall_mem_cons.mp already
    have same : { r with stratified := true } = r := by rw [← flag]
    unfold markStratified
    rw [Catalog.relation_ok.mpr found]
    dsimp only
    rw [same, NameMap.insert_same found]
    exact ih later

theorem build_again (built : build x catalog = (marked, .ok program)) :
    build x marked = (marked, .ok program) := by
  unfold build at built ⊢
  split at built
  · cases congrArg Prod.snd built
  · dsimp only at built
    split at built
    · cases congrArg Prod.snd built
    · rename_i marks
      obtain ⟨rfl, made⟩ := Prod.mk.inj built
      dsimp only
      rw [markStratified_again fun name inside => isMarked_markStratified marks (.inl inside)]
      exact Prod.ext rfl made

end Maintenance

namespace Synthesis

open Catalog (Over steady_over)

variable {b b' : Build} {rs : List Relation}

-- Each relation of local contributions is new, and nothing is added but those, as edited relations,
-- with the rules that copy them into derived ones.
theorem addLocals_ok (ran : Build.inOrder (rs.map addLocal) b = (b', .ok ())) :
    b.catalog.Within b'.catalog ∧
      (∀ name, b'.exchange.edb.has name = true ↔
        b.exchange.edb.has name = true ∨ ∃ r ∈ rs, r.localName = name) ∧
      (∀ name, b'.exchange.idb.has name = true ↔
        b.exchange.idb.has name = true ∨ ∃ r ∈ rs, r.name = name) ∧
      b'.exchange.localRules = b.exchange.localRules ++ rs.map localRule ∧
      ∀ r ∈ rs, b.catalog.relations.contains r.localName = false ∧
        b'.catalog.relations.get? r.localName = some r.localRelation := by
  induction rs generalizing b with
  | nil =>
    cases ran
    exact ⟨fun _ _ => id, fun _ => by simp, fun _ => by simp, by simp, List.forall_mem_nil _⟩
  | cons r rest ih =>
    rw [List.map_cons, Build.inOrder] at ran
    split at ran
    · rename_i middle stepped
      obtain ⟨new, relations, exchange⟩ := addLocal_ok stepped
      obtain ⟨within, edited, derived, rules, each⟩ := ih ran
      have first : b.catalog.Within middle.catalog :=
        Catalog.within_insert (r := r.localRelation) new relations
      refine ⟨first.trans within, fun name => ?_, fun name => ?_, ?_,
        List.forall_mem_cons.mpr ⟨⟨new, within _ _ ?_⟩, fun other inside => ?_⟩⟩
      · rw [edited, exchange, NameSet.has_add, List.exists_mem_cons_iff, or_comm (a := _ = _), or_assoc]
      · rw [derived, exchange, NameSet.has_add, List.exists_mem_cons_iff, or_comm (a := _ = _), or_assoc]
      · rw [rules, exchange, List.map_cons, List.append_assoc]
        rfl
      · rw [relations]
        exact (NameMap.get?_insert ..).trans (if_pos rfl)
      · obtain ⟨fresh, found⟩ := each other inside
        refine ⟨?_, found⟩
        by_contra present
        obtain ⟨old, known⟩ := NameMap.get?_of_contains (by simpa using present)
        rw [NameMap.contains_of_get? (first _ _ known)] at fresh
        cases fresh
    · rename_i failed
      exact absurd ran (failed b')

theorem mappingRules_addLocals (ran : Build.inOrder (rs.map addLocal) b = (b', .ok ())) :
    b'.exchange.mappingRules = b.exchange.mappingRules := by
  refine Build.inOrder_keeps (P := fun c => c.exchange.mappingRules = b.exchange.mappingRules) ?_
    rfl ran
  intro step listed c c' same stepped
  obtain ⟨r, -, rfl⟩ := List.mem_map.mp listed
  obtain ⟨-, -, exchange⟩ := addLocal_ok stepped
  rw [exchange]
  exact same

theorem Staged.heads_known {declared : Catalog} {trust : TrustPolicy} {rules : List Rule} {grouped : Build}
    {stages : List Stage} {y : Exchange} (staged : Staged declared trust rules grouped b stages)
    (composed : b.exchange.composeVirtual b.catalog {} = (y, .ok ())) :
    ∀ rule ∈ (y.minimize b.catalog).mappingRules,
      rule.Has (Over fun name => ∃ r, b.catalog.relations.get? name = some r) (fun _ => True) := by
  have sources : ∀ rule ∈ b.exchange.sourceToProvenance,
      rule.Has (Over fun name => ∃ r, b.catalog.relations.get? name = some r) (fun _ => True) := by
    intro rule inside
    rw [staged.led.sources, List.nil_append] at inside
    obtain ⟨s, member, inside⟩ := List.mem_flatMap.mp inside
    obtain ⟨known, trust, same⟩ := (staged.led.sound s member).sources
    rw [same] at inside
    obtain ⟨i, bound, rfl⟩ := List.mem_mapIdx.mp inside
    refine ⟨?_, fun _ _ => trivial⟩
    rw [ProvenanceRelation.head_sourceRule]
    exact List.forall_mem_singleton.mpr ⟨_, rfl, _, (staged.led.sound s member).registered⟩
  have targets : ∀ rule ∈ b.exchange.provenanceToTarget,
      rule.Has (Over fun name => ∃ r, b.catalog.relations.get? name = some r) (fun _ => True) := by
    intro rule inside
    rw [staged.led.targets, List.nil_append] at inside
    obtain ⟨s, member, inside⟩ := List.mem_flatMap.mp inside
    obtain ⟨known, within, made⟩ := (staged.led.sound s member).targets
    obtain ⟨target, -, made⟩ := Compiled.forall₂_source (Compiled.forall₂_of_mapM made) inside
    obtain ⟨r, args, found, -, heads, -⟩ := ProvenanceRelation.targetRule_ok made
    refine ⟨?_, fun _ _ => trivial⟩
    rw [heads]
    exact List.forall_mem_singleton.mpr
      ⟨target, rfl, r, within _ _ (Catalog.relation_ok.mp found)⟩
  have unfolded := Exchange.composeVirtual_has (steady_over _) (fun _ _ => id) (fun _ => trivial)
    composed sources fun _ _ _ _ => trivial
  refine List.forall_mem_append.mpr ⟨fun rule inside => ?_, fun rule inside => ?_⟩
  · obtain ⟨q, member, rfl⟩ := Exchange.mem_minimize_sources.mp inside
    exact (unfolded q member).minimize
  · obtain ⟨q, member, rfl⟩ := Exchange.mem_minimize_targets.mp inside
    exact (targets q ((Exchange.composeVirtual_parts composed).1 q member).1).minimize

end Synthesis

namespace Build

variable {declared : Catalog} {config : Config} {trust : TrustPolicy} {b : Build} {r : Relation}

def AddsNoPeer (declared : Catalog) (b : Build) : Prop :=
  ∀ name r, b.catalog.relations.get? name = some r → r.role = .peer →
    declared.relations.get? name = some r

theorem AddsNoPeer.add {b b' : Build} {q : Relation} (none : AddsNoPeer declared b)
    (relations : b'.catalog.relations = b.catalog.relations.insert q.name q)
    (role : q.role ≠ .peer) : AddsNoPeer declared b' := by
  intro name r found peer
  rw [relations, NameMap.get?_insert] at found
  split at found
  · cases found
    exact absurd peer role
  · exact none name r found peer

theorem addsNoPeer_synthesize {rules : List Rule}
    (ran : Synthesis.synthesize config trust rules { catalog := declared } = (b, .ok ())) :
    AddsNoPeer declared b := by
  obtain ⟨gs, grouped, -, added, shown⟩ := Synthesis.synthesize_ok ran
  have first : AddsNoPeer declared grouped := by
    refine inOrder_keeps ?_ (fun _ _ found _ => found) added
    intro step listed c c' none stepped
    obtain ⟨g, -, rfl⟩ := List.mem_map.mp listed
    obtain ⟨p, -, -, -, -, relations, -⟩ := Synthesis.addGroup_ok stepped
    exact none.add (q := p.relation) relations nofun
  rcases shown with rfl | shown
  · exact first
  · refine inOrder_keeps ?_ first shown
    intro step listed c c' none stepped
    obtain ⟨target, -, rfl⟩ := List.mem_map.mp listed
    obtain ⟨r, -, ⟨-, rfl⟩ | ⟨built, rfl, -, relations, -⟩⟩ := Synthesis.addView_ok stepped
    · exact none
    · exact none.add relations nofun

theorem addsNoPeer_ofCatalog (made : ofCatalog declared config trust = .ok b) :
    AddsNoPeer declared b := by
  obtain ⟨rules, base, x, -, synthesized, -, added⟩ := ofCatalog_ok made
  refine inOrder_keeps (P := AddsNoPeer declared) ?_ ?_ added
  · intro step listed c c' none stepped
    obtain ⟨r, -, rfl⟩ := List.mem_map.mp listed
    obtain ⟨-, relations, -⟩ := Synthesis.addLocal_ok stepped
    exact none.add (q := r.localRelation) relations nofun
  · exact fun name r found => addsNoPeer_synthesize synthesized name r found

theorem local_underived (valid : declared.validate = .ok ())
    (made : ofCatalog declared config trust = .ok b) {name : String}
    (found : declared.relations.get? name = some r) (role : r.role = .peer)
    (materialized : r.materialized = true) :
    b.catalog.relations.get? r.localName = some r.localRelation ∧
      b.exchange.edb.has r.localName = true ∧
      ∀ rule ∈ b.exchange.rules, rule.checkHead = .ok () → rule.headRelation ≠ r.localName := by
  obtain ⟨rules, base, y, given, synthesized, composed, added⟩ := ofCatalog_ok made
  obtain ⟨gs, grouped, stages, -, -, staged⟩ := Synthesis.synthesize_stages synthesized
  obtain ⟨-, edited, -, rules_, each⟩ := Synthesis.addLocals_ok added
  have peer : r ∈ base.catalog.relations.values.filter fun r => r.role = .peer && r.materialized := by
    refine List.mem_filter.mpr ⟨NameMap.mem_values.mpr ⟨_, staged.led.within _ _ found⟩, ?_⟩
    simp [role, materialized]
  obtain ⟨fresh, known⟩ := each r peer
  refine ⟨known, (edited _).mpr (.inr ⟨r, peer, rfl⟩), fun rule member headed => ?_⟩
  rcases List.mem_append.mp member with copied | mapped
  · -- A declared relation is not called like one of contributions.
    have none : (y.minimize base.catalog).localRules = [] :=
      (composeVirtual_frame composed).2.2.1.trans staged.led.edited.1
    rw [rules_, none, List.nil_append] at copied
    obtain ⟨q, inside, rfl⟩ := List.mem_map.mp copied
    obtain ⟨inside, both⟩ := List.mem_filter.mp inside
    obtain ⟨own, held⟩ := NameMap.mem_values.mp inside
    have peer : q.role = .peer := by simpa using (Bool.and_eq_true_iff.mp both).1
    have declared_ := addsNoPeer_synthesize synthesized own q held peer
    exact Catalog.name_ne_suffixed valid (NameMap.mem_values.mpr ⟨own, declared_⟩) peer (by decide) _
  · -- Whatever is derived was in the catalog before.
    rw [Synthesis.mappingRules_addLocals added] at mapped
    obtain ⟨other, held⟩ := Maintenance.headRelation_of_has headed
      (staged.heads_known composed rule mapped)
    intro same
    rw [← same, NameMap.contains_of_get? held] at fresh
    cases fresh

theorem strata_stored (own : declared.IsDeclared) (valid : declared.validate = .ok ())
    (made : ofCatalog declared config trust = .ok b)
    (headed : ∀ rule ∈ b.exchange.rules, rule.checkHead = .ok ()) {s : Stratum} {name : String}
    (present : s ∈ Maintenance.strataOf b.exchange) (inside : name ∈ s.relations) :
    b.catalog.Stores name := by
  obtain ⟨rules, base, y, given, -, ⟨grouped, stages, staged⟩, tracks, composed, localized⟩ :=
    composed_ofCatalog own made
  have shaped := Mapping.rules_fit own valid given
  have written := staged.written own (fun r ruled => (shaped r ruled).body) composed
  refine Maintenance.strata_store present inside localized.relations fun rule member => ?_
  exact Maintenance.headRelation_of_has (B := fun _ => True) (headed rule member)
    ⟨Maintenance.heads_stored written localized rule member, fun _ _ => trivial⟩

end Build

namespace Compilation

variable {declared : Catalog} {config : Config} {trust : TrustPolicy} {c c' : Compilation}
  {m : Maintenance}

-- The compilations of an engine on a catalog, whatever it compiled and whatever of it failed.
inductive Reached (declared : Catalog) (config : Config) : Compilation → Prop
  | created {c : Compilation} (created : ofCatalog declared config = .ok c) : Reached declared config c
  | exchanged {c c' : Compilation} {trust : TrustPolicy} (before : Reached declared config c)
    (made : c.exchangeUnder trust = .ok c') : Reached declared config c'
  | maintained {c : Compilation} (before : Reached declared config c) :
    Reached declared config c.maintained.1

theorem Reached.ready (reached : Reached declared config c) : Reached declared config c.ready.1 := by
  unfold Compilation.ready
  split
  · exact reached
  · exact reached.maintained

structure Formed (declared : Catalog) (c : Compilation) : Prop where
  same : c.declared = declared
  valid : declared.validate = .ok ()
  exchange : ∀ x, c.exchange = some x → ∃ b, Build.ofCatalog declared c.config c.trust = .ok b ∧
    x = b.exchange ∧ Maintenance.Marks (Maintenance.recursiveNames x) b.catalog c.catalog
  maintenance : ∀ m, c.maintenance = some m → ∃ x catalog, c.exchange = some x ∧
    Maintenance.build x catalog = (c.catalog, .ok m)

theorem Formed.exchanged (formed : Formed declared c) (made : c.exchangeUnder trust = .ok c') :
    Formed declared c' := by
  obtain ⟨-, -, made⟩ := Compiled.bind_ok.mp made
  obtain ⟨⟨⟩, -, made⟩ := Compiled.bind_ok.mp made
  obtain ⟨b, built, made⟩ := Compiled.bind_ok.mp made
  cases made
  refine ⟨formed.same, formed.valid, fun x same => ?_, nofun⟩
  cases same
  exact ⟨b, formed.same ▸ built, rfl, .refl _ _⟩

theorem Formed.rebuilt {x : Exchange} {catalog : Catalog} (formed : Formed declared c)
    (found : c.exchange = some x) {result : Compiled Maintenance}
    (made : Maintenance.build x c.catalog = (catalog, result)) :
    (∀ m, result = .ok m → Formed declared { c with catalog := catalog, maintenance := some m }) ∧
      ∀ cause, result = .error cause → Formed declared { c with catalog := catalog } := by
  obtain ⟨b, built, rfl, marks⟩ := formed.exchange x found
  have marked := marks.build
  rw [made] at marked
  have exchange : ∀ x, c.exchange = some x → ∃ b, Build.ofCatalog declared c.config c.trust = .ok b ∧
      x = b.exchange ∧ Maintenance.Marks (Maintenance.recursiveNames x) b.catalog catalog := by
    intro x same
    cases found.symm.trans same
    exact ⟨b, built, rfl, marked⟩
  constructor
  · rintro m rfl
    refine ⟨formed.same, formed.valid, exchange, fun m' same => ?_⟩
    cases same
    exact ⟨_, _, found, made⟩
  · rintro cause rfl
    refine ⟨formed.same, formed.valid, exchange, fun m had => ?_⟩
    obtain ⟨x, old, given, before⟩ := formed.maintenance m had
    cases found.symm.trans given
    cases congrArg Prod.snd ((Maintenance.build_again before).symm.trans made)

theorem Formed.maintained (formed : Formed declared c) : Formed declared c.maintained.1 := by
  unfold Compilation.maintained
  split
  · exact formed
  · rename_i c' given
    have later : Formed declared c' := by
      split at given
      · cases given
        exact formed
      · exact formed.exchanged given
    split
    · exact later
    · rename_i x found
      split
      · rename_i catalog m made
        exact (later.rebuilt found made).1 m rfl
      · rename_i catalog cause made
        exact (later.rebuilt found made).2 cause rfl

theorem Reached.formed (reached : Reached declared config c) : Formed declared c := by
  induction reached with
  | created created =>
    obtain ⟨-, -, created⟩ := Compiled.bind_ok.mp created
    obtain ⟨⟨⟩, valid, created⟩ := Compiled.bind_ok.mp created
    cases created
    exact ⟨rfl, valid, nofun, nofun⟩
  | exchanged _ made formed => exact formed.exchanged made
  | maintained _ formed => exact formed.maintained

-- No table of another stored relation is called like one of the relation's.
def OwnsTables (c : Catalog) (r : Relation) : Prop :=
  ∀ other ∈ c.relations.values, other.isStored = true → other.name ≠ r.name →
    ∀ kind kind', Sql.fold (other.tableName kind) ≠ Sql.fold (r.tableName kind')

theorem editable_ok {name : String} {r : Relation} (accepts : Engine.editable c name = .ok r) :
    ∃ peer, c.catalog.relations.get? name = some peer ∧ peer.role = .peer ∧
      peer.materialized = true ∧ c.catalog.relations.get? peer.localName = some r := by
  obtain ⟨peer, known, accepts⟩ := Compiled.bind_ok.mp accepts
  split at accepts
  · rename_i both
    rw [Bool.and_eq_true, decide_eq_true_eq] at both
    exact ⟨peer, Catalog.relation_ok.mp known, both.1, both.2, Catalog.relation_ok.mp accepts⟩
  · cases accepts

theorem aliasName_ne_local {r : Relation} (n : Nat) (kind : TableKind) :
    Sql.fold (Lowering.aliasName n) ≠ Sql.fold (r.localRelation.tableName kind) := by
  refine Maintenance.aliasName_ne ?_ n
  rw [Relation.tableName, String.toList_append, List.mem_append]
  refine .inl ?_
  rw [show r.localRelation.name = r.name ++ Relation.localSuffix from rfl, String.toList_append,
    List.mem_append]
  exact .inr (by decide)

-- The relation that edits of a declared one go to. Nothing derives into it.
structure EditsGo (declared : Catalog) (x : Exchange) (c : Catalog) (r : Relation) : Prop where
  declared : ∃ name plain, declared.relations.get? name = some plain ∧ plain.role = .peer ∧
    plain.localRelation = r
  known : c.relations.get? r.name = some r
  listed : x.edb.has r.name = true
  underived : ∀ rule ∈ x.rules, rule.headRelation ≠ r.name

theorem Formed.editsGo (formed : Formed declared c) (found : c.maintenance = some m) {name : String}
    {r : Relation} (accepts : Engine.editable c name = .ok r) :
    ∃ b catalog, Build.ofCatalog declared c.config c.trust = .ok b ∧
      Maintenance.Marks (Maintenance.recursiveNames b.exchange) b.catalog c.catalog ∧
      Maintenance.build b.exchange catalog = (c.catalog, .ok m) ∧
      EditsGo declared b.exchange c.catalog r := by
  obtain ⟨x, catalog, exchange, built⟩ := formed.maintenance m found
  obtain ⟨b, made, rfl, marks⟩ := formed.exchange x exchange
  obtain ⟨-, headed, -⟩ := Maintenance.build_made built
  have headed := Compiled.forM_ok headed
  obtain ⟨peer, known, role, materialized, into⟩ := editable_ok accepts
  -- The relation as it was declared, without a mark.
  obtain ⟨plain, held, named, same⟩ : ∃ plain, b.catalog.relations.get? name = some plain ∧
      plain.localName = peer.localName ∧ plain.role = peer.role ∧
        plain.materialized = peer.materialized := by
    rcases marks name with same | ⟨-, plain, held, same⟩
    · exact ⟨peer, same.symm.trans known, rfl, rfl, rfl⟩
    · cases known.symm.trans same
      exact ⟨plain, held, rfl, rfl, rfl⟩
  have role := same.1.trans role
  have declared_ := Build.addsNoPeer_ofCatalog made name plain held role
  obtain ⟨stored, listed, underived⟩ := Build.local_underived formed.valid made declared_ role
    (same.2.trans materialized)
  have underived := fun rule member => underived rule member (headed rule member)
  have unmarked : plain.localName ∉ Maintenance.recursiveNames b.exchange := by
    intro inside
    obtain ⟨s, present, inside⟩ := List.mem_flatMap.mp inside
    obtain ⟨present, recursive⟩ := List.mem_filter.mp present
    rw [Maintenance.flat_of_underived underived present inside] at recursive
    cases recursive
  rw [← named] at into
  obtain rfl : plain.localRelation = r := by
    rcases marks plain.localName with same | ⟨marked, -⟩
    · exact Option.some.inj (stored.symm.trans (same.symm.trans into))
    · exact absurd marked unmarked
  exact ⟨b, catalog, made, marks, built, ⟨name, plain, declared_, role, rfl⟩, into,
    listed, underived⟩

theorem Formed.edited (formed : Formed declared c) (own : declared.IsDeclared)
    (found : c.maintenance = some m) {name : String} {r : Relation}
    (accepts : Engine.editable c name = .ok r) (apart : OwnsTables c.catalog r) :
    ∃ x catalog, Maintenance.Edited x c.catalog r ∧
      Maintenance.build x catalog = (c.catalog, .ok m) := by
  obtain ⟨b, catalog, made, marks, built, edits⟩ := formed.editsGo found accepts
  have tracks := Build.tracks_ofCatalog own made
  obtain ⟨-, headed, -⟩ := Maintenance.build_made built
  have headed := Compiled.forM_ok headed
  obtain ⟨_, plain, declared_, -, rfl⟩ := edits.declared
  refine ⟨b.exchange, catalog, ?_, built⟩
  exact {
    known := edits.known
    flat := rfl
    columned := (own.relations _ _ declared_).2.2
    uncalled := aliasName_ne_local 0
    listed := edits.listed
    underived := edits.underived
    apart := fun s present other inside differ relation has kind kind' => by
      obtain ⟨r, found, stored⟩ := Build.strata_stored own formed.valid made headed present inside
      have kept : relation.name = other ∧ relation.isStored = true := by
        have named := tracks.isNamed other r found
        rcases marks other with same | ⟨-, old, held, same⟩
        · cases found.symm.trans (same.symm.trans has)
          exact ⟨named, stored⟩
        · cases found.symm.trans held
          cases has.symm.trans same
          exact ⟨named, stored⟩
      exact apart relation (NameMap.mem_values.mpr ⟨_, has⟩) kept.2
        (fun equal => differ (kept.1.symm.trans equal)) kind kind' }

end Compilation

end PeerExchange
