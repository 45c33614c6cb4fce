import PeerExchange.Proofs.CompiledCatalogs
import PeerExchange.Proofs.Exactness
import PeerExchange.Proofs.Retraction

namespace PeerExchange

open RowSemantics (Correlated Match)
open Sql (Database Row Statement)

namespace Maintenance

variable {x : Exchange} {catalog marked : Catalog} {program : Maintenance} {rule : Rule}

section Shapes

theorem changeRules_action {d : Direction} {scc : List String} {recursive : Bool} {r : Rule}
    (member : rule ∈ (changeRules d scc recursive r).1 ∨ rule ∈ (changeRules d scc recursive r).2) :
    rule.action = .derive := by
  unfold changeRules at member
  split at member
  · rcases member with inside | inside <;> cases inside
  · simp only [List.mem_map, List.mem_filter] at member
    rcases member with ⟨_, ⟨⟨_, _, rfl⟩, _⟩, rfl⟩ | ⟨_, ⟨⟨_, _, rfl⟩, _⟩, rfl⟩ <;> rfl

-- What retracts: taking back deletions, dropping insertions of what is there, and applying
-- deletions.
inductive Retracting (x : Exchange) (marked : Catalog) : Rule → Prop where
  | rederive {r : Rule} (own : r ∈ markedRules x.rules (recursiveNames x)) :
    Retracting x marked (rederiveRule r)
  | prune {name : String} {r : Relation} (known : marked.relations.get? name = some r) :
    Retracting x marked (pruneRule r name)
  | apply {name : String} {r : Relation} (known : marked.relations.get? name = some r) :
    Retracting x marked (applyRule r name)

theorem retracting_of_member (built : build x catalog = (marked, .ok program))
    (member : rule ∈ program.rules) (retracts : rule.action = .retract) :
    Retracting x marked rule := by
  obtain ⟨-, parts, each, deletion, applied, insertion, -⟩ := build_parts built
  have partOf {part : StratumProgram} (listed : part ∈ parts) :
      ∃ s index, stratumProgram marked x.edb (markedRules x.rules (recursiveNames x)) index s =
        .ok part := by
    obtain ⟨s, -, index, made⟩ := Compiled.forall₂_source each listed
    exact ⟨s, index, made⟩
  unfold rules at member
  rw [deletion, applied, insertion, List.mem_append, List.mem_append, List.mem_flatMap,
    List.mem_flatMap, List.mem_flatMap] at member
  rcases member with (⟨_, listed, inside⟩ | ⟨part, listed, inside⟩) | ⟨_, listed, inside⟩
  · obtain ⟨part, given, rfl⟩ := List.mem_map.mp listed
    obtain ⟨s, index, made⟩ := partOf given
    obtain ⟨relations, -, same, -, -⟩ := stratumProgram_parts made
    rw [same] at inside
    simp only [deletionStratum, List.mem_append, List.mem_flatMap, List.mem_map] at inside
    rcases inside with (⟨_, ⟨r, -, rfl⟩, changed⟩ | ⟨_, ⟨r, -, rfl⟩, changed⟩) | ⟨r, own, rfl⟩
    · cases (changeRules_action (.inl changed)).symm.trans retracts
    · cases (changeRules_action (.inr changed)).symm.trans retracts
    · exact .rederive (List.mem_of_mem_filter own)
  · obtain ⟨s, index, made⟩ := partOf listed
    obtain ⟨relations, resolved, -, -, same⟩ := stratumProgram_parts made
    rw [same] at inside
    obtain ⟨⟨name, r⟩, known, rfl⟩ := List.mem_map.mp inside
    exact .apply (resolved.known _ known).2
  · obtain ⟨part, given, rfl⟩ := List.mem_map.mp listed
    obtain ⟨s, index, made⟩ := partOf given
    obtain ⟨relations, resolved, -, same, -⟩ := stratumProgram_parts made
    rw [same] at inside
    simp only [insertionStratum, List.mem_append, List.mem_flatMap, List.mem_map] at inside
    rcases inside with ((⟨_, ⟨r, -, rfl⟩, changed⟩ | ⟨⟨name, r⟩, edited, rfl⟩) |
      ⟨_, ⟨r, -, rfl⟩, changed⟩) | ⟨⟨name, r⟩, -, rfl⟩
    · cases (changeRules_action (.inl changed)).symm.trans retracts
    · exact .prune (resolved.known _ (List.mem_of_mem_filter edited)).2
    · cases (changeRules_action (.inr changed)).symm.trans retracts
    · cases mergeRule_action.symm.trans retracts

theorem Retracting.inner (retracting : Retracting x marked rule) (inner : x.IsInner) :
    rule.IsInner := by
  cases retracting with
  | rederive own =>
    obtain ⟨r, given, rfl⟩ := List.mem_map.mp own
    have plain := inner r given
    refine List.forall_mem_append.mpr ⟨plain, fun a negated => ?_⟩
    obtain ⟨b, joined, rfl⟩ := List.mem_map.mp negated
    exact plain b (List.mem_of_mem_filter joined)
  | prune known => exact List.forall_mem_singleton.mpr rfl
  | apply known => exact List.forall_mem_singleton.mpr rfl

end Shapes

section Tables

variable {ctx : Lowering.Context} {db : Database} {parameter : Int} {head : Atom} {row : Row}
  {r : Relation} {sc : Lowering.Scope} {own : List Sql.Expr} {joins : List Lowering.Join}

theorem aliasName_ne {name : String} (marked : '_' ∈ name.toList) (n : Nat) :
    Sql.fold (Lowering.aliasName n) ≠ Sql.fold name := by
  intro same
  have kept : '_' ∈ (Sql.fold name).toList :=
    Sql.fold_toList name ▸ List.mem_map.mpr ⟨'_', marked, by decide⟩
  rw [← same, Lowering.toList_fold_aliasName] at kept
  rcases List.mem_cons.mp kept with letter | digit
  · exact absurd letter (by decide)
  · have numeral : '_'.isDigit = true := Nat.isDigit_of_mem_toDigits (by decide) (by decide) digit
    exact absurd numeral (by decide)

theorem aliasName_ne_tableName {kind : TableKind} (pending : kind ≠ .base) (n : Nat) :
    Sql.fold (Lowering.aliasName n) ≠ Sql.fold (r.tableName kind) := by
  refine aliasName_ne ?_ n
  rw [Relation.tableName, String.toList_append, List.mem_append]
  cases kind with
  | base => exact absurd rfl pending
  | insertion => exact .inr (by decide)
  | deletion => exact .inr (by decide)

def Matched (ctx : Lowering.Context) (db : Database) (parameter : Int) : Prop :=
  ∃ rows env, Match ctx db parameter ctx.rule.guard ctx.rule.body rows env

-- The row is identical to the head tuple of some match of the body.
def Retracts (ctx : Lowering.Context) (db : Database) (parameter : Int) (head : Atom) (row : Row) :
    Prop :=
  ∃ rows env, Match ctx db parameter ctx.rule.guard ctx.rule.body rows env ∧
    Correlated ctx env (RowSemantics.places ctx.catalog db head row)

theorem Retracts.matched (retracts : Retracts ctx db parameter head row) :
    Matched ctx db parameter := by
  obtain ⟨rows, env, holds, -⟩ := retracts
  exact ⟨rows, env, holds⟩

theorem Retracting.taken_iff (retracting : Retracting x ctx.catalog ctx.rule)
    (heads : ctx.rule.head = [head])
    (lowered : Lowering.Lowered ctx db ctx.rule.guard ctx.rule.body sc joins)
    (known : ctx.catalog.relations.get? head.relationName = some r)
    (stored : r.StoredIn head.kind db) (fits : fitsWord parameter = true)
    (correlated : Lowering.correlate ctx (r.tableName head.kind) r sc.bindings
      (head.args.zip r.columns) = .ok own) :
    Sql.Expr.allHold ⟨db, parameter⟩
        [[⟨r.tableName head.kind, db.columns (r.tableName head.kind), row⟩]]
        [.exists false (.mk false [] sc.sources (sc.conditions ++ own))] = true ↔
      if Sql.fold (r.tableName head.kind) = Sql.fold (Lowering.aliasName 0) then Matched ctx db parameter
      else Retracts ctx db parameter head row := by
  have pending (kind : head.kind ≠ .base) : Sql.Expr.allHold ⟨db, parameter⟩
      [[⟨r.tableName head.kind, db.columns (r.tableName head.kind), row⟩]]
      [.exists false (.mk false [] sc.sources (sc.conditions ++ own))] = true ↔
        if Sql.fold (r.tableName head.kind) = Sql.fold (Lowering.aliasName 0) then Matched ctx db parameter
        else Retracts ctx db parameter head row := by
    rw [if_neg (aliasName_ne_tableName kind 0).symm,
      Lowering.taken_iff lowered known stored fits correlated
        fun j _ => aliasName_ne_tableName kind j.number]
    rfl
  generalize same : ctx.rule = rule at retracting
  cases retracting with
  | rederive own =>
    rw [same] at heads
    cases heads
    exact pending nofun
  | prune found =>
    rw [same] at heads
    cases heads
    exact pending nofun
  | @apply name r' found =>
    have body : ctx.rule.body = [(Atom.ofRelation name ((List.range r'.arity).map fun i =>
      Term.var ("x" ++ toString i))).withKind .deletion] := by rw [same]; rfl
    rw [same] at heads
    cases heads
    split
    · rename_i captured
      rw [body] at lowered
      rw [Matched, body]
      refine Lowering.captured_iff captured lowered rfl rfl ?_ ?_ known fits correlated
      · intro t inside
        obtain ⟨i, -, rfl⟩ := List.mem_map.mp inside
        rfl
      · have names : ((List.range r'.arity).map fun i => Term.var ("x" ++ toString i)).map
            RowSemantics.name? = (List.range r'.arity).map fun i => some ("x" ++ toString i) := by
          rw [List.map_map]
          rfl
        change (((List.range r'.arity).map fun i => Term.var ("x" ++ toString i)).map
          RowSemantics.name?).Nodup
        rw [names]
        exact List.Nodup.map ((Option.some_injective _).comp (placeName_injective "x")) List.nodup_range
    · rename_i free
      refine Lowering.taken_iff lowered known stored fits correlated fun j joined => ?_
      have count : joins.length = 1 := by
        have only := congrArg List.length lowered.positives
        rw [body] at only
        simpa [RowSemantics.positives, Atom.isPositive, Atom.withKind, Atom.ofRelation,
          Atom.relation?] using only
      have first := lowered.joinable.number_lt joined
      rw [Lowering.Join.qualifier, show j.number = 0 by omega]
      exact fun taken => free taken.symm

end Tables

end Maintenance

namespace Compilation

variable {c compiled ready : Compilation} {trust : TrustPolicy} {program : Maintenance}

theorem maintained_parts (made : c.exchangeUnder trust = .ok compiled)
    (maintained : compiled.maintained = (ready, .ok ()))
    (found : ready.maintenance = some program) :
    ∃ x, x.IsInner ∧ Maintenance.build x compiled.catalog = (ready.catalog, .ok program) := by
  obtain ⟨b, built, catalog, exchange, -, -⟩ := exchangeUnder_ok made
  exact ⟨b.exchange, Build.inner_ofCatalog built, maintained_ok exchange maintained found⟩

end Compilation

namespace Maintenance

section Deletion

variable {ctx : Lowering.Context} {db : Database} {parameter : Int} {head : Atom} {rows : List Row}

-- Rows of the head's table without those that the rule retracts, and with all others in their
-- places.
def Retracted (ctx : Lowering.Context) (db : Database) (parameter : Int) (head : Atom)
    (rows : List Row) : Prop :=
  ∃ keep : Row → Bool, (∀ row, keep row = true ↔ ¬ Retracts ctx db parameter head row) ∧
    rows = (db.rows (RowSemantics.tableOf ctx.catalog head)).filter keep

theorem retracted_nil_iff : Retracted ctx db parameter head [] ↔
    ∀ row ∈ db.rows (RowSemantics.tableOf ctx.catalog head), Retracts ctx db parameter head row := by
  constructor
  · rintro ⟨keep, exactly, none⟩ row inside
    by_contra left
    exact List.filter_eq_nil_iff.mp none.symm row inside ((exactly row).mpr left)
  · intro all
    classical
    refine ⟨fun row => decide (¬ Retracts ctx db parameter head row), fun row => decide_eq_true_iff,
      (List.filter_eq_nil_iff.mpr fun row inside => ?_).symm⟩
    simpa using all row inside

theorem retracted_of_unmatched (unmatched : ¬ Matched ctx db parameter) :
    Retracted ctx db parameter head (db.rows (RowSemantics.tableOf ctx.catalog head)) :=
  ⟨fun _ => true, fun _ => ⟨fun _ retracts => unmatched retracts.matched, fun _ => rfl⟩,
    (List.filter_true _).symm⟩

theorem Retracting.executes {x : Exchange} {statements : List Statement}
    (retracting : Retracting x ctx.catalog ctx.rule) (inner : x.IsInner)
    (retracts : ctx.rule.action = .retract) (joined : ctx.rule.body ≠ [])
    (lowered : Lowering.lowerRule ctx = .ok statements)
    (target : ∀ a ∈ ctx.rule.head, Lowering.StoresAtom ctx.catalog db a)
    (stores : ∀ a ∈ ctx.rule.body, a.builtin? = none → Lowering.StoresAtom ctx.catalog db a)
    (fits : fitsWord parameter = true) :
    ∃ head statement count keep, ctx.rule.head = [head] ∧ statements = [statement] ∧
      db.tables.contains (RowSemantics.tableOf ctx.catalog head) = true ∧
      db.execute parameter statement = .ok (db.setRows (RowSemantics.tableOf ctx.catalog head)
        ((db.rows (RowSemantics.tableOf ctx.catalog head)).filter keep), count) ∧
      ∀ row, keep row = true ↔
        ¬ if Sql.fold (RowSemantics.tableOf ctx.catalog head) = Sql.fold (Lowering.aliasName 0) then
            Matched ctx db parameter
          else Retracts ctx db parameter head row := by
  unfold Lowering.lowerRule at lowered
  split at lowered
  · rename_i head heads
    obtain ⟨r, known, lowered⟩ := Compiled.bind_ok.mp lowered
    rw [retracts] at lowered
    obtain ⟨statement, deletes, lowered⟩ := Compiled.bind_ok.mp lowered
    cases lowered
    obtain ⟨sc, own, body, correlated, rfl⟩ := Lowering.lowerDelete_ok joined deletes
    obtain ⟨joins, lowered⟩ := Lowering.lowerBody_lowered (retracting.inner inner) stores body
    have given := (Lowering.relationOf_ok known).1
    have stored := target head (heads ▸ List.mem_singleton.mpr rfl) r given
    obtain ⟨count, executed⟩ := @Lowering.execute_deletion _ _ _ _ _ _ _ _ _ parameter lowered stored
      correlated
    refine ⟨head, ?_⟩
    rw [Lowering.tableOf_eq known]
    refine ⟨_, count, _, heads, rfl, stored.present, executed, fun row => ?_⟩
    rw [← retracting.taken_iff heads lowered given stored fits correlated, Bool.not_eq_true',
      Bool.not_eq_true]
  · cases lowered

end Deletion

theorem retraction_exact_iff {c compiled ready : Compilation} {trust : TrustPolicy}
    {program : Maintenance} {rule : Rule} {iteration : Iteration} {statements : List Statement}
    {db : Database} {parameter : Int} (made : c.exchangeUnder trust = .ok compiled)
    (maintained : compiled.maintained = (ready, .ok ()))
    (found : ready.maintenance = some program) (member : rule ∈ program.rules)
    (retracts : rule.action = .retract) (joined : rule.body ≠ [])
    (lowered : ready.lower iteration rule = .ok statements)
    (target : ∀ a ∈ rule.head, Lowering.StoresAtom ready.catalog db a)
    (stores : ∀ a ∈ rule.body, a.builtin? = none → Lowering.StoresAtom ready.catalog db a)
    (fits : fitsWord parameter = true) :
    ∃ head table statement db' count, rule.head = [head] ∧
      RowSemantics.tableOf ready.catalog head = table ∧ statements = [statement] ∧
      db.execute parameter statement = .ok (db', count) ∧ db'.views = db.views ∧
      (∀ other, Sql.fold other ≠ Sql.fold table → db'.tables.get? other = db.tables.get? other) ∧
      db'.columns table = db.columns table ∧
      (Retracted ⟨ready.catalog, ready.config, rule, iteration⟩ db parameter head (db'.rows table) ↔
        (Sql.fold table = Sql.fold (Lowering.aliasName 0) →
          Matched ⟨ready.catalog, ready.config, rule, iteration⟩ db parameter →
          ∀ row ∈ db.rows table,
            Retracts ⟨ready.catalog, ready.config, rule, iteration⟩ db parameter head row)) := by
  obtain ⟨x, inner, built⟩ := Compilation.maintained_parts made maintained found
  have retracting := retracting_of_member built member retracts
  have ran : Lowering.lowerRule ⟨ready.catalog, ready.config, rule, iteration⟩ = .ok statements := by
    unfold Compilation.lower Rule.lower at lowered
    split at lowered
    · rename_i same
      cases lowered
      exact same
    · cases lowered
  obtain ⟨head, statement, count, keep, heads, rfl, present, executed, kept⟩ :=
    @Retracting.executes ⟨ready.catalog, ready.config, rule, iteration⟩ _ _ _ _ retracting inner
      retracts joined ran target stores fits
  obtain ⟨t, there, columns, -⟩ := Database.found_of_contains present
  refine ⟨head, _, statement, _, count, heads, rfl, rfl, executed, rfl, fun other differs => ?_, ?_, ?_⟩
  · rw [Database.tables_setRows there, if_neg differs.symm]
  · rw [columns]
    simp [Database.columns, Database.tables_setRows there]
  · rw [Database.rows_setRows there]
    by_cases captured : Sql.fold (RowSemantics.tableOf ready.catalog head) =
        Sql.fold (Lowering.aliasName 0)
    · simp only [if_pos captured] at kept
      by_cases matched : Matched ⟨ready.catalog, ready.config, rule, iteration⟩ db parameter
      · have none : (db.rows (RowSemantics.tableOf ready.catalog head)).filter keep = [] :=
          List.filter_eq_nil_iff.mpr fun row _ keeps => (kept row).mp keeps matched
        rw [none, retracted_nil_iff]
        exact ⟨fun all _ _ => all, fun all => all captured matched⟩
      · have every : (db.rows (RowSemantics.tableOf ready.catalog head)).filter keep =
            db.rows (RowSemantics.tableOf ready.catalog head) :=
          List.filter_eq_self.mpr fun row _ => (kept row).mpr matched
        rw [every]
        exact ⟨fun _ _ holds => absurd holds matched, fun _ => retracted_of_unmatched matched⟩
    · simp only [if_neg captured] at kept
      exact ⟨fun _ taken => absurd taken captured, fun _ => ⟨keep, kept, rfl⟩⟩

section Lone

-- One relation of integers, with nothing derived from it.
def lone (name : String) : Relation :=
  { name := name, peer := some "A", columns := [⟨"a", .integer, false⟩] }

def loneCatalog (name : String) : Catalog where
  peers := [⟨"A", [name]⟩]
  relations := .ofList [(name, lone name)]

def loneCompilation (name : String) : Compilation :=
  { declared := loneCatalog name, catalog := loneCatalog name, config := {} }

-- It holds 1 and 2, and 1 is to be deleted.
def loneTables (name : String) : Database where
  tables := .ofList [
    (name, { columns := [("a", some .integer)], rows := [[.integer 1], [.integer 2]] }),
    (name ++ "_DEL", { columns := [("a", some .integer)], rows := [[.integer 1]] })]

def loneRemaining (name : String) : Option (List Row) :=
  match (loneCompilation name).exchangeUnder {} with
  | .error _ => none
  | .ok compiled =>
    match compiled.maintained with
    | (_, .error _) => none
    | (ready, .ok ()) =>
      match ready.maintenance, ready.lower (.literal 0) (applyRule (lone name) name) with
      | some program, .ok [statement] =>
        if ready.catalog.relations.get? name = some (lone name) ∧
            applyRule (lone name) name ∈ program.rules then
          match (loneTables name).execute 0 statement with
          | .ok (db, _) => some (db.rows name)
          | .error _ => none
        else none
      | _, _ => none

theorem lone_parts {name : String} {rows : List Row} (remaining : loneRemaining name = some rows) :
    ∃ compiled ready program statement db count,
      (loneCompilation name).exchangeUnder {} = .ok compiled ∧
      compiled.maintained = (ready, .ok ()) ∧ ready.maintenance = some program ∧
      ready.catalog.relations.get? name = some (lone name) ∧
      applyRule (lone name) name ∈ program.rules ∧
      ready.lower (.literal 0) (applyRule (lone name) name) = .ok [statement] ∧
      (loneTables name).execute 0 statement = .ok (db, count) ∧ db.rows name = rows := by
  unfold loneRemaining at remaining
  split at remaining
  · cases remaining
  · rename_i compiled made
    split at remaining
    · cases remaining
    · rename_i ready maintained
      split at remaining
      · rename_i program statement found lowered
        split at remaining
        · rename_i present
          split at remaining
          · rename_i db count executed
            exact ⟨compiled, ready, program, statement, db, count, made, maintained, found, present.1,
              present.2, lowered, executed, Option.some.inj remaining⟩
          · cases remaining
        · cases remaining
      · cases remaining

theorem lone_stored {name : String} {kind : TableKind} {rows : List Row}
    (found : (loneTables name).tables.get? ((lone name).tableName kind) =
      some { columns := [("a", some .integer)], rows := rows })
    (integers : ∀ row ∈ rows, ∃ n, row = [.integer n]) :
    (lone name).StoredIn kind (loneTables name) where
  present := Sql.Names.contains_of_get? found
  columns := by
    rw [Database.columns, found]
    rfl
  distinct := List.nodup_singleton _
  kept := by
    rw [Database.rows, found]
    intro row inside
    obtain ⟨n, rfl⟩ := integers row inside
    exact .cons rfl .nil

theorem lone_integers {row : Row} (inside : row ∈ [[Sql.Value.integer 1], [.integer 2]]) :
    ∃ n, row = [.integer n] := by
  rcases List.mem_cons.mp inside with rfl | second
  · exact ⟨1, rfl⟩
  · exact ⟨2, List.mem_singleton.mp second⟩

def loneContext (ready : Compilation) (name : String) : Lowering.Context :=
  ⟨ready.catalog, ready.config, applyRule (lone name) name, .literal 0⟩

theorem lone_tableOf {ready : Compilation} {name : String}
    (known : ready.catalog.relations.get? name = some (lone name)) :
    RowSemantics.tableOf ready.catalog (.ofRelation name [.var "x0"]) = name := by
  rw [RowSemantics.tableOf, show (Atom.ofRelation name [.var "x0"]).relationName = name from rfl, known]
  exact String.append_empty

-- The deletion of 1 is applied, and 2 stays.
theorem retraction_exact_lone : ∃ (compiled ready : Compilation) (program : Maintenance)
      (statement : Statement) (db : Database) (count : Nat),
    (loneCompilation "E").exchangeUnder {} = .ok compiled ∧
    compiled.maintained = (ready, .ok ()) ∧ ready.maintenance = some program ∧
    applyRule (lone "E") "E" ∈ program.rules ∧
    ready.lower (.literal 0) (applyRule (lone "E") "E") = .ok [statement] ∧
    (loneTables "E").execute 0 statement = .ok (db, count) ∧ db.rows "E" = [[.integer 2]] ∧
    Retracted (loneContext ready "E") (loneTables "E") 0 (.ofRelation "E" [.var "x0"])
      (db.rows "E") := by
  have remaining : loneRemaining "E" = some [[.integer 2]] := by decide +kernel
  obtain ⟨compiled, ready, program, statement, db, count, made, maintained, found, known, member,
    lowered, executed, rows⟩ := lone_parts remaining
  have base : (lone "E").StoredIn .base (loneTables "E") := lone_stored rfl fun _ => lone_integers
  have pending : (lone "E").StoredIn .deletion (loneTables "E") :=
    lone_stored rfl fun _ inside => ⟨1, List.mem_singleton.mp inside⟩
  have result := @retraction_exact_iff _ _ _ _ _ _ _ _ _ 0 made maintained found member rfl
    (List.cons_ne_nil _ _) lowered
    (List.forall_mem_singleton.mpr fun r present => by
      cases known.symm.trans present
      exact base)
    (List.forall_mem_singleton.mpr fun _ r present => by
      cases known.symm.trans present
      exact pending)
    (by decide)
  obtain ⟨head, table, statement', db', count', heads, named, same, ran, -, -, -, exact_⟩ := result
  cases heads
  cases same
  cases executed.symm.trans ran
  cases (lone_tableOf known).symm.trans named
  exact ⟨compiled, ready, program, statement, db, count, made, maintained, found, member, lowered,
    executed, rows, exact_.mpr fun called => absurd called (by decide)⟩

theorem lone_places {ready : Compilation} {name : String} {db : Database} {row : Row}
    (known : ready.catalog.relations.get? name = some (lone name)) (kind : TableKind) :
    RowSemantics.places ready.catalog db ((Atom.ofRelation name [.var "x0"]).withKind kind) row =
      [(⟨RowSemantics.cell db ((lone name).tableName kind) row "a", none⟩, .var "x0")] := by
  rw [RowSemantics.places, show ((Atom.ofRelation name [.var "x0"]).withKind kind).relationName = name
    from rfl, known]
  rfl

theorem lone_unretracted {ready : Compilation}
    (known : ready.catalog.relations.get? "R0" = some (lone "R0")) :
    ¬ Retracts (loneContext ready "R0") (loneTables "R0") 0 (.ofRelation "R0" [.var "x0"])
      [.integer 2] := by
  rintro ⟨rows, env, holds, correlated⟩
  obtain ⟨row, rfl, rfl⟩ := Lowering.match_single rfl rfl holds
  obtain ⟨⟨stored, -⟩, -⟩ := List.forall₂_cons.mp holds.chosen
  have only : row = [.integer 1] := by
    rw [RowSemantics.tableOf, show Atom.relationName _ = "R0" from rfl,
      show (loneContext ready "R0").catalog = ready.catalog from rfl, known] at stored
    exact List.mem_singleton.mp stored
  subst only
  change Correlated (loneContext ready "R0")
    (RowSemantics.bound .empty (RowSemantics.places ready.catalog (loneTables "R0")
      ((Atom.ofRelation "R0" [.var "x0"]).withKind .deletion) [.integer 1]))
    (RowSemantics.places ready.catalog (loneTables "R0")
      ((Atom.ofRelation "R0" [.var "x0"]).withKind .base) [.integer 2]) at correlated
  rw [lone_places known, lone_places known] at correlated
  obtain ⟨m, meant, -, same⟩ := correlated _ (List.mem_singleton.mpr rfl)
  cases meant
  exact absurd same (by unfold RowSemantics.Holds; decide)

example : loneRemaining "r0" = some [] := by decide +kernel

-- A relation by the name of an alias loses rows that no deletion is pending for.
theorem aliased_relation_emptied : ∃ (compiled ready : Compilation) (program : Maintenance)
      (statement : Statement) (db : Database) (count : Nat),
    (loneCompilation "R0").exchangeUnder {} = .ok compiled ∧
    compiled.maintained = (ready, .ok ()) ∧ ready.maintenance = some program ∧
    applyRule (lone "R0") "R0" ∈ program.rules ∧
    ready.lower (.literal 0) (applyRule (lone "R0") "R0") = .ok [statement] ∧
    (loneTables "R0").execute 0 statement = .ok (db, count) ∧ db.rows "R0" = [] ∧
    ¬ Retracted (loneContext ready "R0") (loneTables "R0") 0 (.ofRelation "R0" [.var "x0"])
      (db.rows "R0") := by
  have remaining : loneRemaining "R0" = some [] := by decide +kernel
  obtain ⟨compiled, ready, program, statement, db, count, made, maintained, found, known, member,
    lowered, executed, rows⟩ := lone_parts remaining
  refine ⟨compiled, ready, program, statement, db, count, made, maintained, found, member, lowered,
    executed, rows, ?_⟩
  rw [rows, retracted_nil_iff]
  intro all
  refine lone_unretracted known (all [.integer 2] ?_)
  rw [show RowSemantics.tableOf (loneContext ready "R0").catalog _ = _ from lone_tableOf known]
  exact List.mem_cons_of_mem _ List.mem_cons_self

end Lone

end Maintenance

end PeerExchange
