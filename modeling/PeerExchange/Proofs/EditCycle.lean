import PeerExchange.Proofs.ProgramClosure
import PeerExchange.Proofs.TableMoves

namespace PeerExchange

open Sql (Database Row Statement)

namespace Maintenance

variable {x : Exchange} {catalog marked : Catalog} {program : Maintenance} {rule : Rule}
  {r : Relation}

def Outside (r : Relation) (table : String) : Prop :=
  ∀ kind, Sql.fold table ≠ Sql.fold (r.tableName kind)

-- A relation that edits go to and no rule derives into, with tables of its own.
structure Edited (x : Exchange) (marked : Catalog) (r : Relation) : Prop where
  known : marked.relations.get? r.name = some r
  flat : r.stratified = false
  columned : r.columns ≠ []
  uncalled : ∀ kind, Sql.fold (Lowering.aliasName 0) ≠ Sql.fold (r.tableName kind)
  listed : x.edb.has r.name = true
  underived : ∀ rule ∈ x.rules, rule.headRelation ≠ r.name
  apart : ∀ s ∈ strataOf x, ∀ name ∈ s.relations, name ≠ r.name → ∀ other,
    marked.relations.get? name = some other → ∀ kind, Outside r (other.tableName kind)

-- Rules that add to a relation other than the given one, or take from it.
structure Writes (marked : Catalog) (r : Relation) (rule : Rule) : Prop where
  moves : rule.action = .derive ∨ rule.action = .retract
  into : ∃ head, rule.head = [head] ∧ ∀ other, marked.relations.get? head.relationName = some other →
    Outside r (other.tableName head.kind)

section Rules

variable {d : Direction} {scc : List String} {recursive : Bool} {given : Rule}

theorem changeRules_head (member : rule ∈ (changeRules d scc recursive given).1 ∨
      rule ∈ (changeRules d scc recursive given).2) :
    ∃ head, rule.head = [head] ∧ head.relationName = given.headRelation := by
  unfold changeRules at member
  split at member
  · rcases member with inside | inside <;> cases inside
  · rename_i head first
    have same : given.headRelation = head.relationName := by rw [Rule.headRelation, first]; rfl
    simp only [List.mem_map, List.mem_filter] at member
    rcases member with ⟨_, ⟨⟨_, _, rfl⟩, _⟩, rfl⟩ | ⟨_, ⟨⟨_, _, rfl⟩, _⟩, rfl⟩ <;>
      exact ⟨head.withKind d.kind, rfl, same.symm⟩

theorem rederiveRule_headed :
    ∃ head, (rederiveRule given).head = [head] ∧ head.relationName = given.headRelation := by
  refine ⟨_, rfl, ?_⟩
  unfold Rule.headRelation
  cases given.head? <;> rfl

end Rules

theorem flat_of_underived {name : String} {s : Stratum}
    (underived : ∀ rule ∈ x.rules, rule.headRelation ≠ name) (present : s ∈ strataOf x)
    (inside : name ∈ s.relations) : s.recursive = false := by
  by_contra recursive
  obtain ⟨source, -, edge⟩ := Stratification.edge_into_recursive present
    (by simpa using recursive) inside
  obtain ⟨rule, member, -, same⟩ := Stratification.edge_graph.mp edge
  exact underived rule member same

namespace Edited

variable {s : Stratum} {part : StratumProgram} {index : Nat}

theorem outside (edited : Edited x marked r) (present : s ∈ strataOf x) {name : String}
    (inside : name ∈ s.relations) (differ : name ≠ r.name) {other : Relation}
    (found : marked.relations.get? name = some other) (kind : TableKind) :
    Outside r (other.tableName kind) := edited.apart s present name inside differ other found kind

theorem alone (edited : Edited x marked r) (present : s ∈ strataOf x)
    (inside : r.name ∈ s.relations) : s.recursive = false ∧ s.relations = [r.name] := by
  have flat := flat_of_underived edited.underived present inside
  refine ⟨flat, ?_⟩
  rw [(Stratification.stratum_found present).2] at flat
  match same : s.relations with
  | [] => rw [same] at inside; cases inside
  | [name] =>
    rw [same] at inside
    rw [List.mem_singleton.mp inside]
  | first :: second :: rest =>
    rw [same] at flat
    simp [Stratification.isRecursive] at flat

theorem present (edited : Edited x marked r) : ∃ s ∈ strataOf x, r.name ∈ s.relations :=
  Stratification.exists_stratum_iff.mpr
    ⟨r.name, NameSet.has_foldl_add.mpr (.inl (NameSet.mem_toList.mpr edited.listed)), .refl⟩

theorem writes_own (edited : Edited x marked r) (present : s ∈ strataOf x) {given : Rule}
    (own : given ∈ ownRules (markedRules x.rules (recursiveNames x)) s)
    (moves : rule.action = .derive ∨ rule.action = .retract)
    (heads : ∃ head, rule.head = [head] ∧ head.relationName = given.headRelation) :
    Writes marked r rule := by
  obtain ⟨head, only, same⟩ := heads
  obtain ⟨member, inside⟩ := mem_ownRules.mp own
  obtain ⟨plain, listed, rfl⟩ := List.mem_map.mp member
  refine ⟨moves, head, only, fun other found => ?_⟩
  rw [same] at found
  exact edited.outside present inside (edited.underived plain listed) found _

theorem writes_changes (edited : Edited x marked r) (present : s ∈ strataOf x) {d : Direction}
    (changed : rule ∈ ((ownRules (markedRules x.rules (recursiveNames x)) s).map
        (changeRules d s.relations s.recursive)).flatMap Prod.fst ∨
      rule ∈ ((ownRules (markedRules x.rules (recursiveNames x)) s).map
        (changeRules d s.relations s.recursive)).flatMap Prod.snd) : Writes marked r rule := by
  simp only [List.flatMap_map, List.mem_flatMap] at changed
  rcases changed with ⟨given, own, changed⟩ | ⟨given, own, changed⟩
  · exact edited.writes_own present own (.inl (changeRules_action (.inl changed)))
      (changeRules_head (.inl changed))
  · exact edited.writes_own present own (.inl (changeRules_action (.inr changed)))
      (changeRules_head (.inr changed))

theorem writes_table (edited : Edited x marked r) (present : s ∈ strataOf x)
    {relations : List (String × Relation)} (resolved : Resolved marked s relations)
    {entry : String × Relation} (known : entry ∈ relations) (differ : entry.1 ≠ r.name)
    {suffix : String} {action : Action} {into source : TableKind}
    (moves : action = .derive ∨ action = .retract)
    (heads : rule.head = (tableRule entry.2 entry.1 suffix action into source).head)
    (same : rule.action = action) : Writes marked r rule := by
  obtain ⟨inside, found⟩ := resolved.known entry known
  exact ⟨same ▸ moves, _, heads, fun other found => edited.outside present inside differ found _⟩

theorem writes_deletion (edited : Edited x marked r) (present : s ∈ strataOf x)
    (made : stratumProgram marked x.edb (markedRules x.rules (recursiveNames x)) index s = .ok part) :
    ∀ rule ∈ part.deletion.seed ++ part.deletion.iterate ++ part.deletion.rederive,
      Writes marked r rule := by
  intro rule member
  obtain ⟨relations, -, deletion, -, -⟩ := stratumProgram_parts made
  rw [deletion] at member
  simp only [deletionStratum, List.mem_append] at member
  rcases member with (seed | iterate) | again
  · exact edited.writes_changes present (.inl seed)
  · exact edited.writes_changes present (.inr iterate)
  · obtain ⟨given, own, rfl⟩ := List.mem_map.mp again
    exact edited.writes_own present own (.inr rfl) rederiveRule_headed

theorem writes_insertion (edited : Edited x marked r) (present : s ∈ strataOf x)
    (absent : r.name ∉ s.relations)
    (made : stratumProgram marked x.edb (markedRules x.rules (recursiveNames x)) index s = .ok part) :
    ∀ rule ∈ part.insertion.seed ++ part.insertion.iterate ++ part.insertion.merge,
      Writes marked r rule := by
  intro rule member
  obtain ⟨relations, resolved, -, insertion, -⟩ := stratumProgram_parts made
  have differ {entry : String × Relation} (known : entry ∈ relations) : entry.1 ≠ r.name := by
    intro same
    exact absent (same ▸ (resolved.known entry known).1)
  rw [insertion] at member
  simp only [insertionStratum, List.mem_append] at member
  rcases member with ((seed | pruned) | iterate) | merged
  · exact edited.writes_changes present (.inl seed)
  · obtain ⟨entry, known, rfl⟩ := List.mem_map.mp pruned
    have known := List.mem_of_mem_filter known
    exact edited.writes_table present resolved known (differ known) (.inr rfl) rfl rfl
  · exact edited.writes_changes present (.inr iterate)
  · obtain ⟨entry, known, rfl⟩ := List.mem_map.mp merged
    have heads : (mergeRule entry.2 entry.1 s.recursive).head =
        (tableRule entry.2 entry.1 "_merge" .derive .base .insertion).head := by
      unfold mergeRule
      split <;> rfl
    exact edited.writes_table present resolved known (differ known) (.inl rfl) heads mergeRule_action

theorem insertion_alone (edited : Edited x marked r) (present : s ∈ strataOf x)
    (inside : r.name ∈ s.relations)
    (made : stratumProgram marked x.edb (markedRules x.rules (recursiveNames x)) index s = .ok part) :
    part.insertion.recursive = false ∧ part.insertion.seed = [pruneRule r r.name] ∧
      part.insertion.iterate = [] ∧ part.insertion.merge = [mergeRule r r.name false] := by
  obtain ⟨flat, only⟩ := edited.alone present inside
  have own : ownRules (markedRules x.rules (recursiveNames x)) s = [] := by
    refine List.filter_eq_nil_iff.mpr fun given member => ?_
    obtain ⟨plain, listed, rfl⟩ := List.mem_map.mp member
    rw [only]
    exact fun same => edited.underived plain listed
      (List.mem_singleton.mp (List.contains_iff_mem.mp same))
  obtain ⟨relations, resolved, made⟩ := Compiled.bind_ok.mp made
  cases made
  rw [only] at resolved
  obtain ⟨entry, none, found, rest, rfl⟩ :=
    List.forall₂_cons_left_iff.mp (Compiled.forall₂_of_mapM resolved)
  cases rest
  obtain ⟨relation, got, same⟩ := Compiled.bind_ok.mp found
  cases same
  cases Option.some.inj ((Catalog.relation_ok.mp got).symm.trans edited.known)
  have none : (markedRules x.rules (recursiveNames x)).filter
      (fun r => s.relations.contains r.headRelation) = [] := own
  simp only [insertionStratum, none]
  exact ⟨flat, by simp [edited.listed], rfl, by rw [flat]; rfl⟩

theorem apply_rules (edited : Edited x marked r) (built : build x catalog = (marked, .ok program)) :
    applyRule r r.name ∈ program.apply ∧
      ∀ rule ∈ program.apply, rule = applyRule r r.name ∨ Writes marked r rule := by
  obtain ⟨-, parts, each, -, applied, -⟩ := build_parts built
  rw [applied]
  constructor
  · obtain ⟨s, present, inside⟩ := edited.present
    obtain ⟨part, listed, index, made⟩ := Compiled.forall₂_result each present
    obtain ⟨relations, resolved, -, -, same⟩ := stratumProgram_parts made
    obtain ⟨relation, known⟩ := resolved.complete r.name inside
    obtain rfl : relation = r := Option.some.inj ((resolved.known _ known).2.symm.trans edited.known)
    exact List.mem_flatMap.mpr ⟨part, listed, same ▸ List.mem_map.mpr ⟨_, known, rfl⟩⟩
  · intro rule member
    obtain ⟨part, listed, inside⟩ := List.mem_flatMap.mp member
    obtain ⟨s, present, index, made⟩ := Compiled.forall₂_source each listed
    obtain ⟨relations, resolved, -, -, same⟩ := stratumProgram_parts made
    rw [same] at inside
    obtain ⟨⟨name, relation⟩, known, rfl⟩ := List.mem_map.mp inside
    by_cases own : name = r.name
    · subst own
      obtain rfl : relation = r :=
        Option.some.inj ((resolved.known _ known).2.symm.trans edited.known)
      exact .inl rfl
    · exact .inr (edited.writes_table present resolved known own (.inr rfl) rfl rfl)

end Edited

section Cycle

variable {c : Compilation} {iteration : Iteration} {rules : List Rule} {ss : List Statement}
  {P Q : (TableKind → Row → Prop) → Prop} {db db' : Database}

-- What holds of the rows of the relation's tables, which are as the schema creates them.
structure Standing (r : Relation) (P : (TableKind → Row → Prop) → Prop) (db : Database) : Prop where
  stored : ∀ kind, r.StoredIn kind db
  holds : P (r.Contains db)

theorem Standing.outside (standing : Standing r P db)
    (changes : Database.ChangesIn (Outside r) db db') : Standing r P db' := by
  have same (kind : TableKind) : db'.rows (r.tableName kind) = db.rows (r.tableName kind) :=
    changes.rows fun table outside => outside kind
  refine ⟨fun kind => (standing.stored kind).changed changes fun row inside => ?_, ?_⟩
  · exact (standing.stored kind).keeps (same kind ▸ inside)
  · have rows : r.Contains db' = r.Contains db := by
      funext kind row
      rw [Relation.Contains, Relation.Contains, same kind]
    rw [rows]
    exact standing.holds

theorem Standing.becomes {into : TableKind} {held : Row → Prop} (standing : Standing r P db)
    (becomes : r.Becomes db db' into held)
    (implies : P (r.Contains db) → Q (Function.update (r.Contains db) into held)) :
    Standing r Q db' :=
  ⟨becomes.stored, becomes.contains ▸ implies standing.holds⟩

theorem edits_outside (writes : Writes c.catalog r rule) {own : List Statement}
    (lowered : c.lower iteration rule = .ok own) : ∀ s ∈ own, s.Edits (Outside r) := by
  obtain ⟨head, only, outside⟩ := writes.into
  obtain ⟨head', other, heads, found, edits⟩ :=
    @Lowering.edits_lowerRule ⟨c.catalog, c.config, rule, iteration⟩ own writes.moves
      (Lowering.lower_ok lowered)
  cases only.symm.trans heads
  intro s inside
  refine (edits s inside).mono ?_
  rintro table rfl
  exact outside other (Lowering.relationOf_ok found).1

theorem keptBy_outside (writes : ∀ rule ∈ rules, Writes c.catalog r rule) :
    Running.KeptBy c (Standing r P) rules := by
  intro iteration ss lowered s inside k db db' n before ran
  have edits := Compilation.all_lowerGroup (P := Statement.Edits (Outside r))
    (fun first _ => Sql.Batch.edits_merge first) lowered
    (fun rule member own lowers => edits_outside (writes rule member) lowers) s inside
  exact before.outside (Database.changesIn_execute edits ran)

section Groups

variable {k : Int} {n : Nat} {s t : Running Store} {into source : TableKind} {suffix : String}

theorem Standing.and (first : Standing r P db) (second : Standing r Q db) :
    Standing r (fun v => P v ∧ Q v) db := ⟨first.stored, first.holds, second.holds⟩

theorem becomes_removal (known : c.catalog.relations.get? r.name = some r)
    (flat : r.stratified = false) (uncalled : Sql.fold (Lowering.aliasName 0) ≠ Sql.fold (r.tableName into))
    (stored : ∀ kind, r.StoredIn kind s.state.database)
    (ended : Run.Ends (Running.runGroup Store.session c
      [tableRule r r.name suffix .retract into source] k) s n t) :
    r.Becomes s.state.database t.state.database into fun row =>
      r.Contains s.state.database into row ∧ ¬ r.Contains s.state.database source row := by
  obtain ⟨iteration, ss, changed, lowered, ran⟩ := Running.executes_runGroup ended
  obtain ⟨own, lowers, only⟩ := Compilation.lowerGroup_singleton lowered
  obtain ⟨conditions, rfl, moves⟩ :=
    @Lowering.execute_removal ⟨c.catalog, c.config, _, iteration⟩ r into source suffix own known rfl
      flat uncalled (Lowering.lower_ok lowers)
  rw [only _ rfl] at ran
  exact moves _ _ _ _ stored ran.single

theorem becomes_addition (known : c.catalog.relations.get? r.name = some r)
    (flat : r.stratified = false) (columned : r.columns ≠ [])
    (stored : ∀ kind, r.StoredIn kind s.state.database)
    (ended : Run.Ends (Running.runGroup Store.session c [mergeRule r r.name false] k) s n t) :
    r.Becomes s.state.database t.state.database .base fun row =>
      r.Contains s.state.database .base row ∨ r.Contains s.state.database .insertion row := by
  obtain ⟨iteration, ss, changed, lowered, ran⟩ := Running.executes_runGroup ended
  obtain ⟨own, lowers, only⟩ := Compilation.lowerGroup_singleton lowered
  obtain ⟨statement, rfl, moves⟩ :=
    @Lowering.execute_addition ⟨c.catalog, c.config, _, iteration⟩ r own known rfl flat columned
      (Lowering.lower_ok lowers)
  rw [only _ rfl] at ran
  exact moves _ _ _ _ stored ran.single

theorem runGroup_nil (ended : Run.Ends (Running.runGroup Store.session c [] k) s n t) :
    t.state.database = s.state.database := by
  obtain ⟨iteration, ss, changed, lowered, ran⟩ := Running.executes_runGroup ended
  cases Compilation.lowerGroup_nil.symm.trans lowered
  exact ran.nothing

variable {v : TableKind → Row → Prop}

def applied (v : TableKind → Row → Prop) : TableKind → Row → Prop :=
  Function.update v .base fun row => v .base row ∧ ¬ v .deletion row

theorem standing_apply (edited : Edited x c.catalog r)
    (built : build x catalog = (c.catalog, .ok program))
    (standing : Standing r (· = v) s.state.database)
    (ended : Run.Ends (Running.runGroup Store.session c program.apply k) s n t) :
    Standing r (· = applied v) t.state.database := by
  obtain ⟨member, others⟩ := edited.apply_rules built
  obtain ⟨iteration, ss, changed, lowered, ran⟩ := Running.executes_runGroup ended
  obtain ⟨own, lowers, listed⟩ := Compilation.mem_lowerGroup lowered member
  obtain ⟨conditions, rfl, moves⟩ :=
    @Lowering.execute_removal ⟨c.catalog, c.config, _, iteration⟩ r .base .deletion "_apply" own
      edited.known rfl edited.flat (edited.uncalled _) (Lowering.lower_ok lowers)
  have shapes : ∀ s ∈ ss, s.Edits (Outside r) ∨ s = .delete (r.tableName .base) conditions := by
    refine Compilation.all_lowerGroup (fun first _ merged => ?_) lowered fun rule inside own' found => ?_
    · rcases first with outside | rfl
      · exact .inl (Sql.Batch.edits_merge outside merged)
      · cases Sql.Batch.merge?_delete.2.symm.trans merged
    · rcases others rule inside with rfl | writes
      · cases lowers.symm.trans found
        exact List.forall_mem_singleton.mpr (.inr rfl)
      · exact fun s listed => .inl (edits_outside writes found s listed)
  -- On the way some deletions may be applied and others not.
  let Between (v' : TableKind → Row → Prop) : Prop := v' .insertion = v .insertion ∧
    v' .deletion = v .deletion ∧ (∀ row, v' .base row → v .base row) ∧
      ∀ row, v .base row → ¬ v .deletion row → v' .base row
  let Clean (v' : TableKind → Row → Prop) : Prop := ∀ row, v' .base row → ¬ v .deletion row
  have removes {db db' : Database} {n : Nat} (before : Standing r Between db)
      (executed : db.execute k (.delete (r.tableName .base) conditions) = .ok (db', n)) :
      Standing r (fun v' => Between v' ∧ Clean v') db' := by
    refine before.becomes (moves db db' k n before.stored executed) ?_
    rintro ⟨insertions, deletions, smaller, larger⟩
    refine ⟨⟨insertions, deletions, fun row held => smaller row held.1,
      fun row held alive => ⟨larger row held alive, ?_⟩⟩, fun row held gone => held.2 ?_⟩
    · rwa [deletions]
    · rwa [deletions]
  have keeps : ∀ s ∈ ss, ∀ db db' n, Standing r Between db → db.execute k s = .ok (db', n) →
      Standing r Between db' := by
    intro s inside db db' n before executed
    rcases shapes s inside with outside | rfl
    · exact before.outside (Database.changesIn_execute outside executed)
    · exact ⟨(removes before executed).stored, (removes before executed).holds.1⟩
  have start : Standing r Between s.state.database :=
    ⟨standing.stored, standing.holds ▸ ⟨rfl, rfl, fun _ => id, fun _ held _ => held⟩⟩
  have last := ran.keeps keeps start
  have clean : Standing r Clean t.state.database := by
    have brought := listed _ _ List.mem_cons_self
    refine ran.brings (Q := Standing r Clean) keeps ?_ brought (fun db db' n before executed =>
      ⟨(removes before executed).stored, (removes before executed).holds.2⟩) start
    intro s inside db db' n before already executed
    rcases shapes s inside with outside | rfl
    · exact already.outside (Database.changesIn_execute outside executed)
    · exact ⟨(removes before executed).stored, (removes before executed).holds.2⟩
  obtain ⟨stored, insertions, deletions, smaller, larger⟩ := last
  refine ⟨stored, funext fun kind => ?_⟩
  cases kind with
  | base =>
    funext row
    exact propext ⟨fun held => ⟨smaller row held, clean.holds row held⟩,
      fun held => larger row held.1 held.2⟩
  | insertion => exact insertions
  | deletion => exact deletions

def Merging (v v' : TableKind → Row → Prop) : Prop :=
  v' .deletion = v .deletion ∧
    ∀ row, v' .base row ∨ v' .insertion row ↔ v .base row ∨ v .insertion row

def Merged (v : TableKind → Row → Prop) : Prop := ∀ row, v .insertion row → v .base row

theorem standing_merged (edited : Edited x c.catalog r) {own : InsertionStratum}
    (flat : own.recursive = false) (seed : own.seed = [pruneRule r r.name])
    (iterate : own.iterate = []) (merge : own.merge = [mergeRule r r.name false])
    (standing : Standing r (Merging v) s.state.database)
    (ended : Run.Ends ((Running.machine Store.session c).runInsertion own) s () t) :
    Standing r (fun v' => Merging v v' ∧ Merged v') t.state.database := by
  unfold Machine.runInsertion at ended
  rw [flat, seed, iterate, merge, if_neg Bool.false_ne_true] at ended
  obtain ⟨⟨⟩, s₁, first, ended⟩ := Run.ends_bind.mp ended
  obtain ⟨⟨⟩, s₂, second, ended⟩ := Run.ends_bind.mp ended
  obtain ⟨_, pruned⟩ := Run.ends_discard.mp first
  obtain ⟨_, nothing⟩ := Run.ends_discard.mp second
  obtain ⟨_, added⟩ := Run.ends_discard.mp ended
  have idle := runGroup_nil nothing
  have after := becomes_removal edited.known edited.flat (edited.uncalled _) standing.stored pruned
  have moved := becomes_addition edited.known edited.flat edited.columned
    (idle.symm ▸ after.stored) added
  rw [idle] at moved
  refine ⟨moved.stored, ?_⟩
  rw [moved.contains, after.contains]
  obtain ⟨deletions, rows⟩ := standing.holds
  refine ⟨⟨deletions, fun row => ?_⟩, fun row held => .inr held⟩
  rw [← rows row]
  simp only [Function.update_self, ne_eq, reduceCtorEq, not_false_eq_true, Function.update_of_ne]
  tauto

theorem standing_insertion (edited : Edited x c.catalog r)
    (built : build x catalog = (c.catalog, .ok program))
    (standing : Standing r (· = v) s.state.database)
    (ended : Run.Ends (program.insertion.forM (Running.machine Store.session c).runInsertion) s () t) :
    Standing r (fun v' => Merging v v' ∧ Merged v') t.state.database := by
  obtain ⟨-, parts, each, -, -, insertion, -⟩ := build_parts built
  rw [insertion] at ended
  -- The stratum of the relation moves its rows, and the others write elsewhere.
  have steps : ∀ own ∈ parts.map StratumProgram.insertion,
      (∀ s t, Run.Ends ((Running.machine Store.session c).runInsertion own) s () t →
        Standing r (Merging v) s.state.database →
        Standing r (fun v' => Merging v v' ∧ Merged v') t.state.database) ∨
      ∀ P, Running.Keeps (Standing r P) ((Running.machine Store.session c).runInsertion own) := by
    intro own listed
    obtain ⟨part, given, rfl⟩ := List.mem_map.mp listed
    obtain ⟨stratum, present, index, made⟩ := Compiled.forall₂_source each given
    by_cases inside : r.name ∈ stratum.relations
    · obtain ⟨flat, seed, iterate, merge⟩ := edited.insertion_alone present inside made
      exact .inl fun s t ran before => standing_merged edited flat seed iterate merge before ran
    · have writes := edited.writes_insertion present inside made
      simp only [List.forall_mem_append] at writes
      obtain ⟨⟨seed, iterate⟩, merge⟩ := writes
      exact .inr fun P => (Running.keeps_machine c _).runInsertion (keptBy_outside seed)
        (keptBy_outside iterate) (keptBy_outside merge)
  have brings : ∃ own ∈ parts.map StratumProgram.insertion, ∀ s t,
      Run.Ends ((Running.machine Store.session c).runInsertion own) s () t →
      Standing r (Merging v) s.state.database → Standing r Merged t.state.database := by
    obtain ⟨stratum, present, inside⟩ := edited.present
    obtain ⟨part, given, index, made⟩ := Compiled.forall₂_result each present
    obtain ⟨flat, seed, iterate, merge⟩ := edited.insertion_alone present inside made
    refine ⟨part.insertion, List.mem_map.mpr ⟨part, given, rfl⟩, fun s t ran before => ?_⟩
    have both := standing_merged edited flat seed iterate merge before ran
    exact ⟨both.stored, both.holds.2⟩
  have start : Standing r (Merging v) s.state.database :=
    ⟨standing.stored, standing.holds ▸ ⟨rfl, fun _ => .rfl⟩⟩
  obtain ⟨kept, moved⟩ := Run.forM_brings
    (P := fun s : Running Store => Standing r (Merging v) s.state.database)
    (Q := fun s => Standing r Merged s.state.database) (fun own listed s t ran before => by
      rcases steps own listed with moves | keeps
      · exact ⟨(moves s t ran before).stored, (moves s t ran before).holds.1⟩
      · exact keeps _ s () t ran before)
    (fun own listed s t ran before already => by
      rcases steps own listed with moves | keeps
      · exact ⟨(moves s t ran before).stored, (moves s t ran before).holds.2⟩
      · exact keeps _ s () t ran already)
    brings ended start
  exact kept.and moved

theorem standing_deletion (edited : Edited x c.catalog r)
    (built : build x catalog = (c.catalog, .ok program)) :
    Running.Keeps (Standing r P)
      (program.deletion.forM (Running.machine Store.session c).runDeletion) := by
  obtain ⟨-, parts, each, deletion, -⟩ := build_parts built
  rw [deletion]
  refine (Running.keeps_machine c _).forM fun own listed => ?_
  obtain ⟨part, given, rfl⟩ := List.mem_map.mp listed
  obtain ⟨stratum, present, index, made⟩ := Compiled.forall₂_source each given
  have writes := edited.writes_deletion present made
  simp only [List.forall_mem_append] at writes
  obtain ⟨⟨seed, iterate⟩, rederive⟩ := writes
  exact (Running.keeps_machine c _).runDeletion (keptBy_outside seed) (keptBy_outside iterate)
    (keptBy_outside rederive)

theorem becomes_clear (stored : ∀ kind, r.StoredIn kind db)
    (ran : db.execute k (.clearTable (r.tableName into)) = .ok (db', n)) :
    r.Becomes db db' into fun _ => False := by
  obtain ⟨changes, rows⟩ := Database.execute_clearTable_ok ran
  refine Relation.becomes_of_rows stored changes ?_ fun row => ?_
  · rw [rows]
    exact List.forall_mem_nil _
  · rw [rows, Row.HeldIn]
    simp

theorem ends_clearPending {name : String} {u : Unit}
    (ended : Run.Ends (Running.clearPending Store.session c name) s u t) :
    ∃ other db n m, c.catalog.relations.get? name = some other ∧
      s.state.database.execute 0 (.clearTable (other.tableName .insertion)) = .ok (db, n) ∧
      db.execute 0 (.clearTable (other.tableName .deletion)) = .ok (t.state.database, m) := by
  obtain ⟨other, s₁, known, ended⟩ := Run.ends_bind.mp ended
  obtain ⟨found, rfl⟩ := Run.ends_compiled.mp known
  obtain ⟨s₂, first, ended⟩ := Run.ends_forM_cons.mp ended
  obtain ⟨s₃, second, ended⟩ := Run.ends_forM_cons.mp ended
  cases Run.ends_forM_nil.mp ended
  obtain ⟨n, first⟩ := Run.ends_discard.mp first
  obtain ⟨m, second⟩ := Run.ends_discard.mp second
  exact ⟨other, s₂.state.database, n, m, Catalog.relation_ok.mp found,
    (Store.ends_evaluate (Running.ends_inner.mp first).1).1,
    (Store.ends_evaluate (Running.ends_inner.mp second).1).1⟩

def Settled (v : TableKind → Row → Prop) : Prop :=
  ∀ row, ¬ v .insertion row ∧ ¬ v .deletion row

theorem standing_clear (edited : Edited x c.catalog r)
    (built : build x catalog = (c.catalog, .ok program)) {held : Row → Prop}
    (standing : Standing r (fun v => v .base = held) s.state.database)
    (ended : Run.Ends (program.relations.forM (Running.machine Store.session c).clearPending) s () t) :
    Standing r (fun v => v .base = held ∧ Settled v) t.state.database := by
  obtain ⟨-, parts, each, -, -, -, relations⟩ := build_parts built
  rw [relations] at ended
  have empties {s t : Running Store}
      (ran : Run.Ends (Running.clearPending Store.session c r.name) s () t)
      (before : Standing r (fun v => v .base = held) s.state.database) :
      Standing r (fun v => v .base = held ∧ Settled v) t.state.database := by
    obtain ⟨other, db, n, m, found, first, second⟩ := ends_clearPending ran
    cases Option.some.inj (found.symm.trans edited.known)
    have cleared := becomes_clear before.stored first
    have done := becomes_clear cleared.stored second
    refine ⟨done.stored, ?_⟩
    rw [done.contains, cleared.contains]
    exact ⟨before.holds, fun row => ⟨id, id⟩⟩
  have steps : ∀ name ∈ (strataOf x).flatMap Stratum.relations, name = r.name ∨
      ∀ P, Running.Keeps (Standing r P) (Running.clearPending Store.session c name) := by
    intro name listed
    obtain ⟨stratum, present, inside⟩ := List.mem_flatMap.mp listed
    by_cases own : name = r.name
    · exact .inl own
    · refine .inr fun P s a t ran before => ?_
      obtain ⟨other, db, n, m, found, first, second⟩ := ends_clearPending ran
      have edits (kind : TableKind) :
          (Statement.clearTable (other.tableName kind)).Edits (Outside r) :=
        edited.outside present inside own found kind
      exact (before.outside (Database.changesIn_execute (edits .insertion) first)).outside
        (Database.changesIn_execute (edits .deletion) second)
  obtain ⟨kept, done⟩ := Run.forM_brings
    (P := fun s : Running Store => Standing r (fun v => v .base = held) s.state.database)
    (Q := fun s => Standing r Settled s.state.database) (fun name listed s t ran before => by
      rcases steps name listed with rfl | keeps
      · exact ⟨(empties ran before).stored, (empties ran before).holds.1⟩
      · exact keeps _ s () t ran before)
    (fun name listed s t ran before already => by
      rcases steps name listed with rfl | keeps
      · exact ⟨(empties ran before).stored, (empties ran before).holds.2⟩
      · exact keeps _ s () t ran already)
    (by
      obtain ⟨stratum, present, inside⟩ := edited.present
      exact ⟨r.name, List.mem_flatMap.mpr ⟨stratum, present, inside⟩, fun s t ran before =>
        ⟨(empties ran before).stored, (empties ran before).holds.2⟩⟩)
    ended standing
  exact kept.and done

theorem standing_cycle (edited : Edited x c.catalog r)
    (built : build x catalog = (c.catalog, .ok program))
    (standing : Standing r (· = v) s.state.database)
    (ended : Run.Ends ((Running.machine Store.session c).runProgram program) s () t) :
    Standing r (fun v' => (∀ row, v' .base row ↔
      (v .base row ∧ ¬ v .deletion row) ∨ v .insertion row) ∧ Settled v') t.state.database := by
  obtain ⟨⟨⟩, s₁, deleted, ended⟩ := Run.ends_bind.mp ended
  obtain ⟨⟨⟩, s₂, gone, ended⟩ := Run.ends_bind.mp ended
  obtain ⟨⟨⟩, s₃, inserted, cleared⟩ := Run.ends_bind.mp ended
  obtain ⟨_, gone⟩ := Run.ends_discard.mp gone
  have unchanged := standing_deletion edited built s () s₁ deleted standing
  have taken := standing_apply edited built unchanged gone
  have added := standing_insertion edited built taken inserted
  have held : Standing r (fun v' => v' .base = fun row =>
      (v .base row ∧ ¬ v .deletion row) ∨ v .insertion row) s₃.state.database := by
    refine ⟨added.stored, funext fun row => propext ?_⟩
    obtain ⟨⟨-, rows⟩, moved⟩ := added.holds
    refine Iff.trans ?_ (rows row)
    exact ⟨.inl, fun held => held.elim id (moved row)⟩
  have last := standing_clear edited built held cleared
  exact ⟨last.stored, fun row => by rw [last.holds.1], last.holds.2⟩

end Groups

end Cycle

end Maintenance

end PeerExchange
