import PeerExchange.Proofs.ColumnNames
import PeerExchange.Proofs.OuterJoins

namespace PeerExchange

open RowSemantics (Holds Meaning cell name?)
open Sql (Database Row Typed Value)

section Reading

variable {db : Database} {row t : Row} {r : Relation}

namespace Relation

def reading (db : Database) (r : Relation) (row : Row) (c : Column) : Meaning :=
  ⟨cell db (r.tableName .base) row c.name, (r.markerOf? c).map (cell db (r.tableName .base) row)⟩

def valuesAt (db : Database) (r : Relation) (columns : List Column) (row : Row) : Row :=
  columns.map fun c => (cell db (r.tableName .base) row c.name).value

theorem StoredIn.nodup_names {kind : TableKind} (stored : r.StoredIn kind db) :
    (r.columns.map Column.name).Nodup := by
  have all := perm_physicalColumns.nodup_iff.mp stored.distinct.nodup
  exact (List.nodup_append.mp (List.nodup_append.mp all).1).1

def IsMarked (r marked : Relation) : Prop := marked = r ∨ marked = { r with stratified := true }

variable {marked : Relation}

theorem IsMarked.columns (same : r.IsMarked marked) : marked.columns = r.columns := by
  rcases same with rfl | rfl <;> rfl

theorem IsMarked.name (same : r.IsMarked marked) : marked.name = r.name := by
  rcases same with rfl | rfl <;> rfl

theorem IsMarked.tableName (same : r.IsMarked marked) (kind : TableKind) :
    marked.tableName kind = r.tableName kind := congrArg (· ++ kind.suffix) same.name

theorem IsMarked.reading (same : r.IsMarked marked) : marked.reading db = r.reading db := by
  rcases same with rfl | rfl <;> rfl

theorem IsMarked.storedIn (same : r.IsMarked marked) (stored : r.StoredIn .base db) :
    marked.StoredIn .base db := by
  rcases same with rfl | rfl
  · exact stored
  · have columns : ({ r with stratified := true } : Relation).physicalColumns .base =
        r.physicalColumns .base := by
      simp [physicalColumns, hasStratum, markerOf?]
    exact ⟨stored.present, columns ▸ stored.columns, columns ▸ stored.distinct, columns ▸ stored.kept⟩

end Relation

namespace Lowering

variable {ctx : Context} {a : Atom} {env : RowSemantics.Env} {n : Int}

theorem relationOf_found {r : Relation} (found : ctx.catalog.relations.get? a.relationName = some r)
    (arity : a.args.length = r.arity) : relationOf ctx a = .ok r := by
  rw [relationOf, Catalog.relation_ok.mpr found]
  exact if_pos arity

theorem agree_distinct {final : RowSemantics.Env} {op : Sql.BinaryOp} {ps : List (Meaning × Term)}
    (named : ∀ p ∈ ps, (name? p.2).isSome = true) (distinct : (ps.map fun p => name? p.2).Nodup) :
    RowSemantics.Agree ctx final op .empty ps := by
  refine RowSemantics.agree_iff.mpr fun before p after split unbound => ?_
  obtain ⟨x, own⟩ := Option.isSome_iff_exists.mp (named p (by simp [split]))
  have free : (RowSemantics.bound .empty before).contains x = false := by
    by_contra taken
    rcases RowSemantics.contains_bound.mp (Bool.not_eq_false _ ▸ taken) with none | earlier
    · cases none
    · obtain ⟨q, inside, same⟩ := List.mem_filterMap.mp earlier
      rw [split, List.map_append, List.nodup_append] at distinct
      exact distinct.2.2 _ (List.mem_map_of_mem inside) _ List.mem_cons_self (same.trans own.symm)
  rw [RowSemantics.binder?_eq_some.mpr ⟨own, free⟩] at unbound
  cases unbound

theorem match_reading (positive : a.isPositive = true)
    (named : ∀ t ∈ a.args, (name? t).isSome = true) (distinct : (a.args.map name?).Nodup)
    {r : Relation} (found : relationOf ctx a = .ok r) :
    RowSemantics.Match ctx db n none [a] [row] env ↔
      row ∈ db.rows (r.tableName a.kind) ∧
        env = RowSemantics.bound .empty (RowSemantics.places ctx.catalog db a row) := by
  have only : RowSemantics.positives 0 [a] = [(0, a)] := by simp [RowSemantics.positives, positive]
  have places : RowSemantics.joinedPlaces ctx db [a] [row] =
      RowSemantics.places ctx.catalog db a row := by
    simp [RowSemantics.joinedPlaces, only]
  have builtins : RowSemantics.builtins [a] = [] := by
    simp [RowSemantics.builtins, Atom.builtin?_of_isPositive positive]
  constructor
  · intro holds
    obtain ⟨other, same, bound⟩ := match_single (Atom.builtin?_of_isPositive positive) positive holds
    cases same
    have chosen := holds.chosen
    rw [only] at chosen
    exact ⟨tableOf_eq found ▸ (List.forall₂_cons.mp chosen).1.1, bound⟩
  · rintro ⟨stored, rfl⟩
    have terms := @places_terms _ db _ _ row found
    refine ⟨?_, ?_, ?_, List.forall_mem_singleton.mpr fun negated => ?_⟩
    · rw [only]
      exact .cons ⟨(tableOf_eq found).symm ▸ stored, by rintro _ ⟨⟩⟩ .nil
    · rw [places]
      refine agree_distinct (fun p inside => named p.2 (terms ▸ List.mem_map_of_mem inside)) ?_
      change ((RowSemantics.places ctx.catalog db a row).map (name? ∘ Prod.snd)).Nodup
      rw [← List.map_map, terms]
      exact distinct
    · rw [places, builtins]
      rfl
    · rw [Atom.negated_of_isPositive positive] at negated
      cases negated

theorem holds_is_comm {x y : Typed} : Holds .is x y ↔ Holds .is y x := by
  have types : Typed.comparisonType x.type y.type = Typed.comparisonType y.type x.type := by
    rcases x.type with _ | (_ | _) <;> rcases y.type with _ | (_ | _) <;> rfl
  rw [RowSemantics.holds_is_iff, RowSemantics.holds_is_iff, Typed.order, Typed.order, types,
    ← Value.order_swap, Ordering.swap_eq_eq]

-- Places hold the same with all companions where they do with those of one side, and the
-- companion of the other side says no more than the value.
theorem alike_iff_kept {a b : Meaning} : Alike a b ↔
    ((b.marker.isSome = true → Holds .is b.mark a.mark) ∧ Holds .is b.value a.value) ∧
      (b.marker = none → a.marker.isSome = true → Holds .is a.mark (Meaning.mark ⟨a.value, none⟩)) := by
  have unmarked (values : Holds .is b.value a.value) (none : b.marker = none) :
      b.mark = Meaning.mark ⟨a.value, .none⟩ := by
    simp only [Meaning.mark, none, Option.getD_none,
      RowSemantics.null_of_order (RowSemantics.holds_is_iff.mp values)]
  constructor
  · rintro ⟨markers, values⟩
    have values := holds_is_comm.mp values
    refine ⟨⟨fun own => holds_is_comm.mp (markers (by simp [own])), values⟩, fun none other => ?_⟩
    rw [← unmarked values none]
    exact markers (by simp [other])
  · rintro ⟨⟨own, values⟩, other⟩
    refine ⟨fun either => ?_, holds_is_comm.mp values⟩
    cases marked : b.marker with
    | some m => exact holds_is_comm.mp (own (by simp [marked]))
    | none =>
      rw [unmarked values marked]
      exact other marked (by simpa [marked] using either)

end Lowering

theorem places_reading {catalog : Catalog} {a : Atom}
    (found : catalog.relations.get? a.relationName = some r) (base : a.kind = .base) :
    RowSemantics.places catalog db a row = (a.args.zip r.columns).map fun (arg, column) =>
      (r.reading db row column, arg) := by
  rw [RowSemantics.places, found, base]
  rfl

end Reading

namespace ProvenanceRelation

variable {p : ProvenanceRelation} {c : Compilation} {db : Database} {target r : Relation}
  {q : Rule} {row t : Row}

-- The target rule reads a tuple back from a recorded row.
def DerivesInto (c : Compilation) (db : Database) (p : ProvenanceRelation) (target : String)
    (row t : Row) : Prop :=
  ∃ q head env, p.targetRule c.catalog target = .ok q ∧ q.head = [head] ∧
    RowSemantics.Match ⟨c.catalog, c.config, q, .prepared⟩ db 0 q.guard q.body [row] env ∧
      RowSemantics.Correlated ⟨c.catalog, c.config, q, .prepared⟩ env
        (RowSemantics.places c.catalog db head t)

-- Where a target keeps no companion, that of a recorded row says no more than whether the value is
-- null.
def KeepsLabels (db : Database) (p : ProvenanceRelation) (target : Relation) (row : Row) : Prop :=
  ∀ d ∈ p.columns, ∀ b ∈ target.columns, d.key = .target target.name b.name →
    target.markerOf? b = none → ∀ marker, p.relation.markerOf? d.column = some marker →
      Holds .is (cell db (p.relation.tableName .base) row marker)
        ⟨.integer (if (cell db (p.relation.tableName .base) row d.name).value = .null then 0 else 1),
          none⟩

theorem name?_bodyArgs : p.bodyArgs.map name? =
    (List.range p.bodyArgs.length).map fun i => some ("c" ++ toString i) := by
  simp [bodyArgs, Function.comp_def, name?, Term.var]

section Recorded

variable (registered : c.catalog.relations.get? p.name = some r) (same : p.relation.IsMarked r)

def recordAtom (p : ProvenanceRelation) : Atom := .ofRelation p.name p.bodyArgs

theorem named_recordAtom : ∀ u ∈ p.recordAtom.args, (name? u).isSome = true := by
  intro u inside
  obtain ⟨i, -, rfl⟩ := List.mem_map.mp inside
  rfl

theorem distinct_recordAtom : (p.recordAtom.args.map name?).Nodup := by
  change (p.bodyArgs.map name?).Nodup
  rw [name?_bodyArgs]
  exact List.Nodup.map ((Option.some_injective _).comp (Maintenance.placeName_injective "c"))
    List.nodup_range

include registered same

theorem places_recordAtom : RowSemantics.places c.catalog db p.recordAtom row =
    (p.bodyArgs.zip p.relation.columns).map fun (arg, column) =>
      (p.relation.reading db row column, arg) := by
  rw [← same.columns, ← same.reading]
  exact places_reading registered rfl

theorem relationOf_recordAtom : Lowering.relationOf ⟨c.catalog, c.config, q, .prepared⟩ p.recordAtom =
    .ok r := by
  refine Lowering.relationOf_found registered ?_
  rw [Relation.arity, same.columns]
  exact length_bodyArgs

theorem denote_recorded {i : Nat} (inside : i < p.columns.length) :
    RowSemantics.denote ⟨c.catalog, c.config, q, .prepared⟩
      (RowSemantics.bound .empty (RowSemantics.places c.catalog db p.recordAtom row))
      (.var ("c" ++ toString (p.dataOffset + i))) =
        some (p.relation.reading db row p.columns[i].column) := by
  refine RowSemantics.denote_variable ?_
  have place : (p.relation.reading db row p.columns[i].column,
      Term.var ("c" ++ toString (p.dataOffset + i))) ∈
        RowSemantics.places c.catalog db p.recordAtom row := by
    rw [places_recordAtom registered same]
    exact List.mem_map.mpr ⟨_, place_of_column inside, rfl⟩
  have distinct : ((RowSemantics.places c.catalog db p.recordAtom row).map
      fun place => name? place.2).Nodup := by
    have terms := @Lowering.places_terms _ db _ _ row
      (relationOf_recordAtom (q := q) registered same)
    change ((RowSemantics.places c.catalog db p.recordAtom row).map (name? ∘ Prod.snd)).Nodup
    rw [← List.map_map, terms]
    exact distinct_recordAtom
  rw [RowSemantics.get?_bound, RowSemantics.first?_of_nodup distinct place rfl]
  rfl

end Recorded

theorem derivesInto_iff (known : c.catalog.relations.get? target.name = some target)
    (registered : c.catalog.relations.get? p.name = some r) (same : p.relation.IsMarked r)
    (keys : (p.columns.map ProvenanceColumn.key).Nodup)
    (made : p.targetRule c.catalog target.name = .ok q) :
    p.DerivesInto c db target.name row t ↔ row ∈ db.rows (p.relation.tableName .base) ∧
      ∀ d ∈ p.columns, ∀ b ∈ target.columns, d.key = .target target.name b.name →
        ((target.reading db t b).marker.isSome = true → Holds .is (target.reading db t b).mark
            (p.relation.reading db row d.column).mark) ∧
          Holds .is (target.reading db t b).value (p.relation.reading db row d.column).value := by
  obtain ⟨found, args, related, mapped, heads, body, -⟩ := targetRule_ok made
  obtain rfl : found = target := by
    rw [Catalog.relation, known] at related
    exact (Except.ok.inj related).symm
  have unguarded : q.guard = none := by
    obtain ⟨_, -, built⟩ := Compiled.bind_ok.mp made
    obtain ⟨_, -, built⟩ := Compiled.bind_ok.mp built
    cases built
    rfl
  have matched (env : RowSemantics.Env) :
      RowSemantics.Match ⟨c.catalog, c.config, q, .prepared⟩ db 0 q.guard q.body [row] env ↔
        row ∈ db.rows (p.relation.tableName .base) ∧
          env = RowSemantics.bound .empty (RowSemantics.places c.catalog db p.recordAtom row) := by
    rw [unguarded, body, ← same.tableName]
    exact Lowering.match_reading rfl named_recordAtom distinct_recordAtom
      (relationOf_recordAtom registered same)
  have places : RowSemantics.places c.catalog db (.ofRelation found.name args) t =
      (args.zip found.columns).map fun place => (found.reading db t place.2, place.1) :=
    places_reading known rfl
  have columns : List.Forall₂ (fun arg b => p.targetArg found b = .ok arg) args found.columns :=
    (Compiled.forall₂_of_mapM mapped).flip
  constructor
  · rintro ⟨q', head, env, made', heads', holds, correlated⟩
    cases made.symm.trans made'
    rw [heads] at heads'
    cases heads'
    obtain ⟨stored, rfl⟩ := (matched env).mp holds
    refine ⟨stored, fun d inside b column key => ?_⟩
    obtain ⟨⟨arg, b⟩, listed, rfl⟩ : ∃ place ∈ args.zip found.columns, place.2 = b := by
      rw [← List.map_snd_zip columns.length_eq.ge] at column
      exact List.mem_map.mp column
    obtain ⟨position, bound, key', rfl⟩ := targetArg_ok ((List.forall₂_iff_zip.mp columns).2 listed)
    obtain rfl : p.columns[position] = d :=
      List.inj_on_of_nodup_map keys (List.getElem_mem bound) inside (key'.trans key.symm)
    obtain ⟨m, meant, markers, values⟩ := correlated _ (places ▸ List.mem_map_of_mem listed)
    rw [denote_recorded registered same bound] at meant
    cases meant
    exact ⟨markers, values⟩
  · rintro ⟨stored, each⟩
    refine ⟨q, _, _, made, heads, (matched _).mpr ⟨stored, rfl⟩, ?_⟩
    rw [places]
    refine List.forall_mem_map.mpr ?_
    rintro ⟨arg, b⟩ listed
    obtain ⟨position, bound, key, rfl⟩ := targetArg_ok ((List.forall₂_iff_zip.mp columns).2 listed)
    exact ⟨_, denote_recorded registered same bound,
      each _ (List.getElem_mem bound) b (List.of_mem_zip listed).2 key⟩

end ProvenanceRelation

namespace ProvenanceRelation

variable {plain catalog : Catalog} {p : ProvenanceRelation} {target : String} {old new : Relation}
  {q : Rule}

theorem targetRule_marked (made : p.targetRule plain target = .ok q)
    (known : plain.relations.get? target = some old) (found : catalog.relations.get? target = some new)
    (same : old.IsMarked new) : p.targetRule catalog target = .ok q := by
  rw [targetRule, Catalog.relation_ok.mpr known] at made
  rw [targetRule, Catalog.relation_ok.mpr found]
  rcases same with rfl | rfl
  · exact made
  · exact made

end ProvenanceRelation

end PeerExchange
