import PeerExchange.Proofs.JoiningRules
import PeerExchange.Proofs.MaintainablePrograms
import PeerExchange.Proofs.Recomputation

namespace PeerExchange

-- No rule into the relation joins anything.
def Exchange.OnlyComputes (x : Exchange) (name : String) : Prop :=
  ∀ r ∈ x.rules, r.headRelation = name → ¬ r.Joins

instance (x : Exchange) (name : String) : Decidable (x.OnlyComputes name) :=
  inferInstanceAs (Decidable (∀ r ∈ x.rules, r.headRelation = name → ¬ r.Joins))

namespace Maintenance

variable {D : Type} {I : Interpretation D} {catalog marked : Catalog} {limit : Nat} {x : Exchange}
  {program : Maintenance} {rule r : Rule} {db after : Tables D} {name : String} {kind : TableKind}
  {k : Int}

section Vacancy

def Vacant (name : String) (db : Tables D) : Prop := db name .base = ∅ ∧ db name .insertion = ∅

theorem runOn_subset (idle : r.action ≠ .retract → ∀ e, ¬ r.Derives I catalog db k name kind e) :
    r.runOn I catalog k db name kind ⊆ db name kind := by
  intro e inside
  unfold Rule.runOn at inside
  split at inside <;> rename_i action
  · exact inside.resolve_right (idle (by rw [action]; nofun) e)
  · exact inside.1
  · exact (inside.resolve_left (idle (by rw [action]; nofun) e)).1
  · exact inside

theorem Vacant.mono (vacant : Vacant name db)
    (within : ∀ kind ≠ .deletion, after name kind ⊆ db name kind) : Vacant name after :=
  ⟨Set.subset_empty_iff.mp (vacant.1 ▸ within .base (by decide)),
    Set.subset_empty_iff.mp (vacant.2 ▸ within .insertion (by decide))⟩

theorem writes_change {d : Direction} {scc : List String} {recursive : Bool}
    (member : rule ∈ (changeRules d scc recursive r).1 ∨ rule ∈ (changeRules d scc recursive r).2)
    (writes : rule.Writes name kind) : kind = d.kind ∧ r.headRelation = name ∧ r.Joins := by
  obtain ⟨head, i, b, first, joined, positive, rfl⟩ := mem_changeRules member
  obtain ⟨a, inside, named, same⟩ := writes
  obtain rfl := List.mem_singleton.mp inside
  exact ⟨same.symm, Rule.headRelation_of_head first named, b, joined, positive⟩

-- What the rules of a program are: changes, rules that take tuples away, and those that move
-- insertions into contents or contents into insertions.
theorem mem_allRules_cases (built : build x catalog = (marked, .ok program))
    (member : rule ∈ program.allRules) :
    (∃ d scc recursive, ∃ r ∈ markedRules x.rules (recursiveNames x),
      rule ∈ (changeRules d scc recursive r).1 ∨ rule ∈ (changeRules d scc recursive r).2) ∨
    rule.action = .retract ∨ (∃ relation own recursive, rule = mergeRule relation own recursive) ∨
    ∃ relation own, rule = resetRule relation own := by
  obtain ⟨-, -, parts, each, rfl⟩ := build_made built
  obtain ⟨part, listed, inside⟩ := mem_allRules.mp member
  obtain ⟨s, present, index, made⟩ := Compiled.forall₂_source each listed
  obtain ⟨relations, -, deletion, insertion, applied⟩ := stratumProgram_parts made
  have change {d : Direction}
      (changed : (∃ r ∈ ownRules (markedRules x.rules (recursiveNames x)) s,
          rule ∈ (changeRules d s.relations s.recursive r).1) ∨
        ∃ r ∈ ownRules (markedRules x.rules (recursiveNames x)) s,
          rule ∈ (changeRules d s.relations s.recursive r).2) :
      ∃ d scc recursive, ∃ r ∈ markedRules x.rules (recursiveNames x),
        rule ∈ (changeRules d scc recursive r).1 ∨ rule ∈ (changeRules d scc recursive r).2 := by
    rcases changed with ⟨r, own, changed⟩ | ⟨r, own, changed⟩
    · exact ⟨d, _, _, r, (mem_ownRules.mp own).1, .inl changed⟩
    · exact ⟨d, _, _, r, (mem_ownRules.mp own).1, .inr changed⟩
  rw [deletion, applied, insertion, mem_reset made] at inside
  simp only [deletionStratum, insertionStratum, List.mem_append, List.flatMap_map,
    List.mem_flatMap] at inside
  rcases inside with ((changed | changed) | again) | applied |
    (((changed | pruned) | changed) | merged) | ⟨own, -, -, relation, -, rfl⟩
  · exact .inl (change (.inl changed))
  · exact .inl (change (.inr changed))
  · obtain ⟨r, -, rfl⟩ := List.mem_map.mp again
    exact .inr (.inl rfl)
  · obtain ⟨entry, -, rfl⟩ := List.mem_map.mp applied
    exact .inr (.inl rfl)
  · exact .inl (change (.inl changed))
  · obtain ⟨entry, -, rfl⟩ := List.mem_map.mp pruned
    exact .inr (.inl rfl)
  · exact .inl (change (.inr changed))
  · obtain ⟨entry, -, rfl⟩ := List.mem_map.mp merged
    exact .inr (.inr (.inl ⟨_, _, _, rfl⟩))
  · exact .inr (.inr (.inr ⟨relation, own, rfl⟩))

theorem keptBy_vacant (built : build x catalog = (marked, .ok program))
    (computes : x.OnlyComputes name) : KeptBy I marked (Vacant name) program.allRules := by
  intro rule member k db vacant
  refine vacant.mono fun kind pending => runOn_subset fun acts e derived => ?_
  rcases mem_allRules_cases built member with ⟨d, scc, recursive, r, own, changed⟩ | retracts |
    ⟨relation, own, recursive, rfl⟩ | ⟨relation, own, rfl⟩
  · obtain ⟨-, into, joins⟩ := writes_change changed derived.writes
    obtain ⟨plain, ruled, rfl⟩ := List.mem_map.mp own
    exact computes plain ruled into joins
  · exact acts retracts
  · obtain ⟨rfl, -, stored, there, -⟩ := mergeRule_derives.mp derived
    rw [vacant.2] at there
    exact there
  · obtain ⟨rfl, -, stored, there, -⟩ := (tableRule_derives rfl rfl rfl).mp derived
    rw [vacant.1] at there
    exact there

theorem History.vacant (built : build x catalog = (marked, .ok program))
    (unedited : x.edb.has name = false) (computes : x.OnlyComputes name)
    (history : History I x catalog marked limit program db) : Vacant name db := by
  induction history with
  | empty => exact ⟨rfl, rfl⟩
  | round _ edits ended ih =>
    have same (kind : TableKind) := edits.others name kind fun edited => by
      cases unedited.symm.trans edited
    refine runProgram_keeps (Vacant name) ?_ ?_ _ _ _ ended ?_
    · exact fun r member => keptBy_vacant built computes r (List.mem_append_left _ member)
    · exact fun own _ db vacant => vacant.mono fun kind _ e both => both.1
    · exact ⟨(same .base).trans ih.1, (same .insertion).trans ih.2⟩

end Vacancy

section Following

theorem UpToDate.isModel (maintainable : x.Maintainable catalog)
    (settled : UpToDate I x catalog db) : IsModel I x.rules (db.facts .base) := by
  have plain : ∀ r ∈ x.rules, r.Plain := fun r ruled a read => by
    obtain ⟨positive, -, reads⟩ := maintainable.bodies r ruled a read
    refine ⟨positive, fun related => ?_⟩
    obtain ⟨name, named⟩ := Option.isSome_iff_exists.mp related
    exact (reads name named).1
  refine isModel_of_supports plain fun r ruled θ supported a head name named => ?_
  obtain ⟨only, target, single, into, -, derived, -⟩ := maintainable.heads r ruled
  rw [single, List.mem_singleton] at head
  subst head
  cases named.symm.trans into
  rw [settled.derives name derived]
  refine leastModel_closed plain ruled (supported.mono fun b read other reads there => ?_)
    (single ▸ List.mem_singleton_self _) named
  rcases ((maintainable.bodies r ruled b read).2.2 other reads).2 with edited | derived
  · exact given_subset_leastModel ⟨edited, there⟩
  · rwa [← settled.derives other derived]

-- Some rule of the program carries insertions through the rule.
def Follows (m : Maintenance) (marked : Catalog) (r : Rule) : Prop :=
  ∃ s ∈ m.insertion, ∃ inside i, ∃ changed ∈ s.seed ++ s.iterate,
    Differentiates inserting marked ⟨s.relations, s.recursive⟩ inside (r, i) changed

theorem Follows.joins (follows : program.Follows marked r) : r.Joins := by
  obtain ⟨s, -, inside, i, changed, -, -, head, a, -, found, positive, -⟩ := follows
  exact ⟨a, List.mem_of_getElem? found, positive⟩

theorem follows_iff {lists : List ChangeLists} (cover : Cover inserting marked x.rules lists)
    (inserts : List.Forall₂ (Inserts x marked) lists program.insertion) (ruled : r ∈ x.rules) :
    program.Follows marked r ↔ r.Joins := by
  refine ⟨Follows.joins, ?_⟩
  rintro ⟨a, read, positive⟩
  obtain ⟨i, bound, rfl⟩ := List.getElem_of_mem read
  obtain ⟨reached, each, covered⟩ := cover
  have place : (r, i) ∈ joinedPlaces x.rules := by
    refine List.mem_flatMap.mpr ⟨r, ruled, List.mem_map_of_mem (List.mem_filter.mpr ?_)⟩
    simp [bound, positive]
  obtain ⟨part, reaches, place⟩ := List.mem_flatMap.mp (covered.mem_iff.mpr place)
  obtain ⟨l, listed, seeds, iterates⟩ := Compiled.forall₂_result each reaches
  obtain ⟨s, present, same, ⟨prunes, seed, -⟩, iterate⟩ := Compiled.forall₂_result inserts listed
  rw [same] at seeds iterates
  rcases List.mem_append.mp place with below | within
  · obtain ⟨changed, member, differentiates⟩ := Compiled.forall₂_result seeds below
    refine ⟨s, present, false, i, changed, List.mem_append_left _ ?_, differentiates⟩
    exact seed ▸ List.mem_append_left _ member
  · obtain ⟨changed, member, differentiates⟩ := Compiled.forall₂_result iterates within
    exact ⟨s, present, true, i, changed, List.mem_append_right _ (iterate ▸ member), differentiates⟩

end Following

end Maintenance

namespace Compilation

open Maintenance

variable {text : String} {program : Program} {config : Config} {trust : TrustPolicy}
  {c compiled : Compilation}

-- Every rule of what is compiled is followed by an insertion rule exactly if every trusted mapping
-- joins something. Then, unless virtual relations are left, satisfied bodies have their heads after
-- any history. Relations that are only computed stay empty.
theorem accepted_propagates (parsed : Program.parse text = .ok program)
    (created : ofCatalog program.catalog config = .ok c)
    (made : c.exchangeUnder trust = .ok compiled) :
    ∃ x marked maintenance, compiled.exchange = some x ∧
      Maintenance.build x compiled.catalog = (marked, .ok maintenance) ∧
      ((∀ r ∈ x.rules, maintenance.Follows marked r) ↔
        ∀ m ∈ Mapping.trusted c.declared trust, m.Joins) ∧
      ∀ {D : Type} (I : Interpretation D) (limit : Nat) (db : Tables D),
        History I x compiled.catalog marked limit maintenance db →
        (maintenance.ClosedOver marked → (∀ m ∈ Mapping.trusted c.declared trust, m.Joins) →
          IsModel I x.rules (db.facts .base)) ∧
        ∀ name, x.edb.has name = false → x.OnlyComputes name → db.facts .base name = ∅ := by
  obtain ⟨b, built, catalog, exchange, -, valid⟩ := exchangeUnder_ok made
  have own := ofCatalog_declared parsed created
  have written : ∀ m ∈ c.declared.mappings, m.IsWritten := by
    rw [(ofCatalog_keeps created).1]
    exact Program.written_of_parse parsed
  obtain ⟨rules, base, y, given, -, composed⟩ := Build.composed_ofCatalog own built
  have joins : (∀ r ∈ b.exchange.rules, r.Joins) ↔
      ∀ m ∈ Mapping.trusted c.declared trust, m.Joins :=
    (composed.joins_iff (Mapping.rules_safe own valid given)).trans (Mapping.rules_join_iff valid given)
  obtain ⟨marked, maintenance, made_, -, -, -, lists, cover, inserts⟩ :=
    build_covers (Build.differentiable_ofCatalog own valid built)
  rw [catalog]
  refine ⟨b.exchange, marked, maintenance, exchange, made_, ?_, fun I limit db history => ⟨?_, ?_⟩⟩
  · rw [← joins]
    exact forall₂_congr fun r ruled => follows_iff cover inserts ruled
  · intro closed all
    have maintainable := Build.maintainable_ofCatalog own valid built written made_ closed
    refine (history.upToDate maintainable (fun r ruled => ?_) made_).isModel maintainable
    obtain ⟨a, read, positive⟩ := joins.mpr all r ruled
    exact ⟨a, read, (Bool.and_eq_true_iff.mp positive).2⟩
  · intro name unedited computes
    have empty := (history.vacant made_ unedited computes).1
    exact Set.eq_empty_of_forall_notMem fun t ⟨e, stored, _⟩ => by
      rw [empty] at stored
      exact stored

-- A mapping that copies is carried through.
theorem accepted_propagates_copy : ∃ program c compiled x marked maintenance,
    Program.parse (layerText "mapping m: T(x) :- R(x).") = .ok program ∧
    ofCatalog program.catalog {} = .ok c ∧ c.exchangeUnder {} = .ok compiled ∧
    compiled.exchange = some x ∧
    Maintenance.build x compiled.catalog = (marked, .ok maintenance) ∧
    (∀ r ∈ x.rules, maintenance.Follows marked r) ∧
    ∀ (limit : Nat) (db : Tables Int), History integers x compiled.catalog marked limit maintenance db →
      IsModel integers x.rules (db.facts .base) := by
  let catalog := layerCatalog [copyRule "m" "T" "R"]
  have compiles : (maintain? {} catalog).map
      (fun (ready, m) => decide (m.ClosedOver ready.catalog)) = some true := by decide +kernel
  have joins : ∀ m ∈ Mapping.trusted catalog {}, m.Joins := by decide +kernel
  obtain ⟨⟨ready, m⟩, found, closed⟩ := Option.map_eq_some_iff.mp compiles
  obtain ⟨c, compiled, created, made, maintained, found⟩ := maintain?_parts found
  have parses : Program.parsesTo (layerText "mapping m: T(x) :- R(x).") catalog = true := by
    decide +kernel
  obtain ⟨program, parsed, same⟩ := Program.parsesTo_parts parses
  rw [← same] at created joins
  rw [← (ofCatalog_keeps created).1] at joins
  obtain ⟨x, marked, maintenance, exchange, built, follows, histories⟩ :=
    accepted_propagates parsed created made
  obtain ⟨rfl, rfl⟩ : ready.catalog = marked ∧ m = maintenance := by
    have program_ := maintained_ok exchange maintained found
    rw [built] at program_
    cases program_
    exact ⟨rfl, rfl⟩
  exact ⟨program, c, compiled, x, _, _, parsed, created, made, exchange, built, follows.mpr joins,
    fun limit db history => (histories integers limit db history).1 (of_decide_eq_true closed) joins⟩

def computedText : String := "peer A { relation T(a: int); }\nmapping m: T(x) :- x = 1."

def computedCatalog : Catalog where
  peers := [⟨"A", ["T"]⟩]
  relations := NameMap.empty.insert "T"
    { name := "T", peer := some "A", columns := [⟨"a", .integer, false⟩] }
  mappings := [.ofHeads "m" [.ofRelation "T" [.var "x"]]
    [.ofBuiltin .eq [.var "x", .lit (.integer 1)]]]

-- A mapping that only computes is accepted, and its body holds, but its head is never there.
theorem computed_mapping_inert : ∃ program c compiled x marked maintenance,
    Program.parse computedText = .ok program ∧ ofCatalog program.catalog {} = .ok c ∧
    c.exchangeUnder {} = .ok compiled ∧ compiled.exchange = some x ∧
    Maintenance.build x compiled.catalog = (marked, .ok maintenance) ∧
    ∃ r ∈ x.rules, ¬ r.Joins ∧ ¬ maintenance.Follows marked r ∧
      ∀ (limit : Nat) (db : Tables Int),
        History integers x compiled.catalog marked limit maintenance db →
          ∃ θ, r.Supports integers (db.facts .base) θ ∧
            r.headTuple integers θ ∉ db.facts .base r.headRelation := by
  have compiles : (compile? {} computedCatalog).bind (fun compiled =>
      compiled.exchange.bind fun x => (x.rules.find? (·.headRelation = "P_m")).map fun r =>
        (r.body, r.inventions, x.edb.has "P_m", decide (x.OnlyComputes "P_m"))) =
      some ([.ofBuiltin .eq [.var "x", .lit (.integer 1)]], [], false, true) := by cbv
  obtain ⟨compiled, found, compiles⟩ := Option.bind_eq_some_iff.mp compiles
  obtain ⟨x, exchange, compiles⟩ := Option.bind_eq_some_iff.mp compiles
  obtain ⟨r, ruled, compiles⟩ := Option.map_eq_some_iff.mp compiles
  obtain ⟨body, inventions, unedited, computes⟩ :=
    (by simpa only [Prod.mk.injEq] using compiles : _ ∧ _ ∧ _ ∧ _)
  obtain ⟨c, created, made⟩ := compile?_parts found
  have parses : Program.parsesTo computedText computedCatalog = true := by decide +kernel
  obtain ⟨program, parsed, same⟩ := Program.parsesTo_parts parses
  rw [← same] at created
  obtain ⟨b, built, catalog, given, -, valid⟩ := exchangeUnder_ok made
  cases exchange.symm.trans given
  obtain ⟨marked, maintenance, program_⟩ := build_runs (Build.differentiable_ofCatalog
    (ofCatalog_declared parsed created) valid built)
  rw [← catalog] at program_
  have listed := List.mem_of_find?_eq_some ruled
  have chosen := List.find?_some ruled
  have into : r.headRelation = "P_m" := of_decide_eq_true chosen
  have computes : b.exchange.OnlyComputes "P_m" := of_decide_eq_true computes
  have unjoined := computes r listed into
  refine ⟨program, c, compiled, b.exchange, marked, maintenance, parsed, created, made, given, program_, r,
    listed, unjoined, mt Follows.joins unjoined, fun limit db history => ?_⟩
  have vacant := history.vacant program_ unedited computes
  refine ⟨fun _ => 1, ⟨fun v _ _ t invented => ?_, fun a read name named => ?_,
    fun a read op called => ?_⟩, ?_⟩
  · obtain ⟨k, -, invented⟩ := Option.bind_eq_some_iff.mp invented
    simp [Rule.invention?, inventions] at invented
  · rw [body, List.mem_singleton] at read
    subst read
    cases named
  · rw [body, List.mem_singleton] at read
    subst read
    cases called
    rfl
  · rw [into]
    rintro ⟨e, stored, -⟩
    rw [vacant.1] at stored
    exact stored

end Compilation

end PeerExchange
