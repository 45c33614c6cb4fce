import PeerExchange.Proofs.BoundNames
import PeerExchange.Proofs.TableMoves

namespace PeerExchange

theorem forall₂_congr_mem {α β : Type} {R S : α → β → Prop} {as : List α} {bs : List β}
    (same : ∀ a ∈ as, ∀ b, R a b ↔ S a b) : List.Forall₂ R as bs ↔ List.Forall₂ S as bs :=
  ⟨fun each => ((List.forall₂_and_left _ _).mpr ⟨same, each⟩).imp fun _ b both => (both.1 b).mp both.2,
    fun each => ((List.forall₂_and_left _ _).mpr ⟨same, each⟩).imp fun _ b both => (both.1 b).mpr both.2⟩

namespace Sql.Source

variable {w : World} {scope : Scope} {frame more : Frame} {base : Visible} {s : Source}
  {sources : List Source} {row : Row}

def IsOuter (s : Source) : Prop := s = mk s.table s.qualifier true s.on

-- A stored row that the conditions let through beside a frame.
structure Joins (w : World) (scope : Scope) (frame : Frame) (s : Source) (row : Row) : Prop where
  stored : row ∈ w.database.rows s.table
  holds : Expr.allHold w ((item w.database s row :: frame) :: scope) s.on = true

def nulls (db : Database) (s : Source) : Row := (db.columns s.table).map fun _ => .null

def Extends (w : World) (scope : Scope) (frame : Frame) (s : Source) (row : Row) : Prop :=
  Joins w scope frame s row ∨ (∀ other, ¬ Joins w scope frame s other) ∧ row = nulls w.database s

theorem frameOf_cons {db : Database} {rows : List Row} :
    frameOf db (s :: sources) (row :: rows) = frameOf db sources rows ++ ([item db s row] : Frame) := by
  simp [frameOf]

theorem mem_frames_cons {f : Frame} (outer : s.IsOuter) :
    f ∈ frames w scope frame (s :: sources) ↔ ∃ row, Extends w scope frame s row ∧
      f ∈ frames w scope (item w.database s row :: frame) sources := by
  have items (i : Item) : i ∈ ((w.database.rows s.table).map
      (Item.mk s.qualifier (w.database.columns s.table))).filter
        (fun i => Expr.allHold w ((i :: frame) :: scope) s.on) ↔
      ∃ row, Joins w scope frame s row ∧ item w.database s row = i := by
    rw [List.mem_filter, List.mem_map]
    constructor
    · rintro ⟨⟨row, stored, rfl⟩, holds⟩
      exact ⟨row, ⟨stored, holds⟩, rfl⟩
    · rintro ⟨row, joins, rfl⟩
      exact ⟨⟨row, joins.stored, rfl⟩, joins.holds⟩
  rw [outer]
  simp only [frames, if_true, List.mem_flatMap]
  rw [← outer]
  split
  · rename_i empty
    have none (other : Row) : ¬ Joins w scope frame s other := fun joins => by
      have inside := (items _).mpr ⟨other, joins, rfl⟩
      rw [List.isEmpty_iff.mp empty] at inside
      cases inside
    simp only [List.mem_singleton, exists_eq_left]
    constructor
    · exact fun later => ⟨_, .inr ⟨none, rfl⟩, later⟩
    · rintro ⟨row, joins | ⟨-, rfl⟩, later⟩
      · exact absurd joins (none row)
      · exact later
  · rename_i some
    obtain ⟨i, first⟩ := List.exists_mem_of_ne_nil _ fun empty => some (List.isEmpty_iff.mpr empty)
    obtain ⟨present, joins, -⟩ := (items i).mp first
    constructor
    · rintro ⟨i, inside, later⟩
      obtain ⟨row, joins, rfl⟩ := (items i).mp inside
      exact ⟨row, .inl joins, later⟩
    · rintro ⟨row, joins | ⟨none, -⟩, later⟩
      · exact ⟨_, (items _).mpr ⟨row, joins, rfl⟩, later⟩
      · exact absurd joins (none present)

theorem joins_congr {i : Item} (reads : ∀ e ∈ s.on, e.Within (base ++ visible w.database [s]))
    (other : fold i.name ≠ fold s.qualifier) (unread : ∀ entry ∈ base, fold entry.1 ≠ fold i.name) :
    Joins w scope (i :: frame) s row ↔ Joins w scope frame s row := by
  have agree : Scope.AgreeOn (base ++ visible w.database [s])
      ((item w.database s row :: i :: frame) :: scope) ((item w.database s row :: frame) :: scope) := by
    intro qualifier column seen
    have differ : fold i.name ≠ fold qualifier := by
      rw [Visible.lists_append, Bool.or_eq_true] at seen
      rcases seen with here | own
      · obtain ⟨columns, inside, -⟩ := Visible.lists_iff.mp here
        exact (unread _ inside).symm
      · obtain ⟨own, inside, rfl, -⟩ := mem_visible.mp own
        rw [List.mem_singleton.mp inside]
        exact other
    have skipped : Frame.get? (item w.database s row :: i :: frame) qualifier column =
        Frame.get? (item w.database s row :: frame) qualifier column := by
      simp only [Frame.get?, List.findSome?_cons, differ, if_false]
    simp only [Scope.get?, List.findSome?_cons, skipped]
  have same : Expr.allHold w ((item w.database s row :: i :: frame) :: scope) s.on =
      Expr.allHold w ((item w.database s row :: frame) :: scope) s.on := by
    rw [Expr.allHold_eq_all, Expr.allHold_eq_all, Bool.eq_iff_iff, List.all_eq_true, List.all_eq_true]
    refine forall₂_congr fun e inside => ?_
    rw [Expr.eval_congr agree e (reads e inside)]
  exact ⟨fun joins => ⟨joins.stored, same ▸ joins.holds⟩, fun joins => ⟨joins.stored, same ▸ joins.holds⟩⟩

theorem mem_frames_outer {f : Frame} (outer : ∀ s ∈ sources, s.IsOuter)
    (distinct : (sources.map fun s => fold s.qualifier).Nodup)
    (reads : ∀ s ∈ sources, ∀ e ∈ s.on, e.Within (base ++ visible w.database [s]))
    (unread : ∀ s ∈ sources, ∀ entry ∈ base, fold entry.1 ≠ fold s.qualifier) :
    f ∈ frames w scope frame sources ↔ ∃ rows,
      List.Forall₂ (Extends w scope frame) sources rows ∧
        f = frameOf w.database sources rows ++ frame := by
  induction sources generalizing frame with
  | nil => simp [frames, frameOf]
  | cons s rest ih =>
    rw [List.forall_mem_cons] at outer reads unread
    obtain ⟨apart, distinct⟩ := List.nodup_cons.mp distinct
    have same (row : Row) : ∀ t ∈ rest, ∀ other, Extends w scope (item w.database s row :: frame) t other ↔
        Extends w scope frame t other := by
      intro t inside other
      have each (other : Row) : Joins w scope (item w.database s row :: frame) t other ↔
          Joins w scope frame t other :=
        joins_congr (reads.2 t inside)
          (fun called => apart (List.mem_map.mpr ⟨t, inside, called.symm⟩)) unread.1
      simp only [Extends, each]
    have unchanged (row : Row) (rows : List Row) :
        List.Forall₂ (Extends w scope (item w.database s row :: frame)) rest rows ↔
          List.Forall₂ (Extends w scope frame) rest rows := forall₂_congr_mem (same row)
    simp only [mem_frames_cons outer.1, ih outer.2 distinct reads.2 unread.2, unchanged,
      List.forall₂_cons_left_iff]
    constructor
    · rintro ⟨row, first, rows, each, rfl⟩
      exact ⟨row :: rows, ⟨row, rows, first, each, rfl⟩, by simp [frameOf_cons]⟩
    · rintro ⟨_, ⟨row, rows, first, each, rfl⟩, rfl⟩
      exact ⟨row, first, rows, each, by simp [frameOf_cons]⟩

end Sql.Source

namespace Lowering

open RowSemantics (Holds Meaning first? name?)
open Sql (BinaryOp Database Expr Row Source Visible World)

variable {ctx : Context} {w : World} {scope : Sql.Scope} {v : Visible} {known bindings : Bindings}
  {before ps : List Place} {p : Place} {x : String}

def alike (left right : Binding) : List Expr :=
  (if left.marker.isSome || right.marker.isSome then
    [compare true left.markerExpr right.markerExpr] else []) ++
    [compare true left.value right.value]

def onPlace (known : Bindings) (p : Place) : List Expr :=
  (((name? p.term).bind known.get?).map (alike p.column)).getD []

def Fresh (known : Bindings) (ts : List Term) : Prop :=
  ts.Pairwise fun s t => ∀ x, name? s = some x → name? t = some x → known.contains x = true

def Bound (known : Bindings) (before : List Place) (bindings : Bindings) : Prop :=
  ∀ x, bindings.get? x = (known.get? x).or (first? x (before.map fun p => (p.column, p.term)))

theorem conditions_bound {b : Binding} (named : name? p.term = some x)
    (found : bindings.get? x = some b) : conditions ctx bindings true p = .ok (alike p.column b) := by
  obtain ⟨u, same, rfl, -⟩ := RowSemantics.name?_eq named
  have valued : value ctx bindings p.term = .ok b := by rw [same, value, valueWith, found]
  have other : p.term.isNull = false := by rw [same]; rfl
  rw [conditions, other, if_neg Bool.false_ne_true, valued]
  rfl

theorem Bound.place (bound : Bound known before bindings) :
    Bound known (before ++ [p]) (bindPlaces bindings [p]).1 := by
  intro x
  rw [List.map_append, RowSemantics.first?_append, ← Option.or_assoc, ← bound x, bindPlaces_cons]
  cases binds : RowSemantics.binder? bindings p.term with
  | some y =>
    obtain ⟨named, free⟩ := RowSemantics.binder?_eq_some.mp binds
    have unbound : bindings.get? y = none := by simpa [NameMap.contains] using free
    simp only [bindPlaces, NameMap.get?_insert]
    by_cases same : y = x
    · subst same
      simp [unbound, first?, named]
    · simp [first?, named, same]
  | none =>
    simp only [bindPlaces]
    by_cases named : name? p.term = some x
    · have taken : bindings.contains x = true := by
        by_contra free
        have binds' := RowSemantics.binder?_eq_some.mpr ⟨named, Bool.eq_false_iff.mpr free⟩
        rw [binds] at binds'
        cases binds'
      obtain ⟨b, found⟩ := NameMap.get?_of_contains taken
      simp [found]
    · simp [first?, named]

theorem Bound.places (bound : Bound known before bindings) :
    Bound known (before ++ ps) (bindPlaces bindings ps).1 := by
  induction ps generalizing before bindings with
  | nil => rwa [List.append_nil]
  | cons p rest ih =>
    rw [List.append_cons, show p :: rest = [p] ++ rest from rfl, bindPlaces_append]
    exact ih bound.place

theorem Bound.fresh (bound : Bound known before bindings) (named : name? p.term = some x)
    (fresh : Fresh known ((before ++ [p]).map Place.term)) (new : known.get? x = none) :
    bindings.get? x = none := by
  rw [bound x, new, Option.none_or]
  by_contra some
  have listed := RowSemantics.first?_isSome.mp (Option.isSome_iff_ne_none.mpr some)
  obtain ⟨q, inside, same⟩ := List.mem_filterMap.mp listed
  obtain ⟨q, earlier, rfl⟩ := List.mem_map.mp inside
  rw [Fresh, List.map_append, List.pairwise_append] at fresh
  have old := fresh.2.2 _ (List.mem_map_of_mem earlier) _ List.mem_cons_self x same named
  rw [NameMap.contains, new] at old
  cases old

theorem optionalPlaces_bound (bound : Bound known before bindings)
    (named : ∀ p ∈ ps, (name? p.term).isSome = true)
    (fresh : Fresh known ((before ++ ps).map Place.term)) :
    ∃ bindings', optionalPlaces ctx bindings ps = .ok (bindings', ps.flatMap (onPlace known)) ∧
      Bound known (before ++ ps) bindings' := by
  induction ps generalizing before bindings with
  | nil => exact ⟨bindings, rfl, by rwa [List.append_nil]⟩
  | cons p rest ih =>
    obtain ⟨own, others⟩ := List.forall_mem_cons.mp named
    obtain ⟨x, own⟩ := Option.isSome_iff_exists.mp own
    rw [List.append_cons] at fresh ⊢
    have here : Fresh known ((before ++ [p]).map Place.term) := by
      rw [Fresh, List.map_append, List.pairwise_append] at fresh
      exact fresh.1
    obtain ⟨bindings', settled, bound'⟩ := ih bound.place others fresh
    refine ⟨bindings', ?_, bound'⟩
    rw [optionalPlaces, bindPlaces_cons]
    rw [bindPlaces_cons] at settled
    cases earlier : known.get? x with
    | some b =>
      have found : bindings.get? x = some b := by rw [bound x, earlier, Option.some_or]
      have unbinding : RowSemantics.binder? bindings p.term = none := by
        by_contra some
        obtain ⟨y, binds⟩ := Option.ne_none_iff_exists'.mp some
        obtain ⟨called, free⟩ := RowSemantics.binder?_eq_some.mp binds
        cases own.symm.trans called
        rw [NameMap.contains, found] at free
        cases free
      simp only [unbinding, bindPlaces] at settled ⊢
      rw [conditions_bound own found, settled]
      simp [onPlace, own, earlier, bind, Except.bind]
    | none =>
      have unbound := bound.fresh own here earlier
      have binds : RowSemantics.binder? bindings p.term = some x :=
        RowSemantics.binder?_eq_some.mpr ⟨own, by rw [NameMap.contains, unbound]; rfl⟩
      simp only [binds, bindPlaces] at settled ⊢
      rw [settled]
      simp [onPlace, own, earlier]

def Join.outer (known : Bindings) (j : Join) : Source :=
  .mk j.table j.qualifier true (j.places.flatMap (onPlace known))

structure OuterJoined (known : Bindings) (before : List Place) (s s' : Scope) (joins : List Join) :
    Prop where
  sources : s'.sources = s.sources ++ joins.map (Join.outer known)
  conditions : s'.conditions = s.conditions
  pending : s'.pending = s.pending
  bound : Bound known (before ++ joins.flatMap Join.places) s'.bindings

theorem joinAtoms_outer {joins : List Join} {s : Scope} {position : Nat}
    (optional : ∀ j ∈ joins, j.atom.isPositive = true ∧ j.atom.optional = true)
    (relations : ∀ j ∈ joins, relationOf ctx j.atom = .ok j.relation)
    (numbers : joins.map Join.number = List.range' s.aliases joins.length)
    (named : ∀ p ∈ joins.flatMap Join.places, (name? p.term).isSome = true)
    (fresh : Fresh known ((before ++ joins.flatMap Join.places).map Place.term))
    (bound : Bound known before s.bindings) :
    ∃ s', joinAtoms ctx none s position (joins.map Join.atom) = .ok s' ∧
      OuterJoined known before s s' joins := by
  induction joins generalizing s position before with
  | nil => exact ⟨s, rfl, by simp, rfl, rfl, by simpa using bound⟩
  | cons j rest ih =>
    obtain ⟨⟨positive, own⟩, optional⟩ := List.forall_mem_cons.mp optional
    obtain ⟨known', relations⟩ := List.forall_mem_cons.mp relations
    rw [List.map_cons, List.length_cons, List.range'_succ] at numbers
    obtain ⟨number, numbers⟩ := List.cons.inj numbers
    rw [List.flatMap_cons, List.forall_mem_append] at named
    rw [List.flatMap_cons, ← List.append_assoc] at fresh
    have first : Fresh known ((before ++ j.places).map Place.term) := by
      rw [Fresh, List.map_append, List.pairwise_append] at fresh
      exact fresh.1
    obtain ⟨bindings', settled, bound'⟩ : ∃ bindings', optionalPlaces ctx s.bindings j.places =
        .ok (bindings', j.places.flatMap (onPlace known)) ∧ Bound known (before ++ j.places) bindings' :=
      optionalPlaces_bound bound named.1 first
    let middle : Scope := { s with
      bindings := bindings'
      sources := s.sources ++ [j.outer known]
      aliases := s.aliases + 1
      outerJoined := true }
    have joined : joinAtom ctx none s position j.atom = .ok middle := by
      rw [Join.places, Join.qualifier, number] at settled
      unfold joinAtom
      rw [own, Bool.not_true, Bool.and_false, if_neg Bool.false_ne_true, known']
      simp [guardConditions, bind, Except.bind, settled, Join.outer, Join.table, Join.qualifier,
        number, Join.places, middle]
    obtain ⟨s', ran, sources, conditions, pending, all⟩ :=
      @ih _ middle (position + 1) optional relations numbers named.2 fresh bound'
    refine ⟨s', ?_, ?_, conditions, pending, ?_⟩
    · rw [List.map_cons, joinAtoms, if_pos positive, joined]
      exact ran
    · rw [sources, List.map_cons, List.append_assoc, List.singleton_append]
    · rwa [List.flatMap_cons, ← List.append_assoc]

section Comparing

-- Two places that hold the same, markers included where either side has one.
structure Alike (a b : Meaning) : Prop where
  markers : (a.marker.isSome || b.marker.isSome) = true → Holds .is a.mark b.mark
  values : Holds .is a.value b.value

theorem alike_iff {left right : Binding} : AllTrue w scope (alike left right) ↔
    Alike (left.meaning w scope) (right.meaning w scope) := by
  have marked : ((left.meaning w scope).marker.isSome || (right.meaning w scope).marker.isSome) =
      (left.marker.isSome || right.marker.isSome) := by
    simp only [Binding.meaning, Option.isSome_map]
  have compares : IsComparison .is := isComparison_equality true
  have onValues : ((compare true left.value right.value).eval w scope).value.isTrue = true ↔
      Holds .is (left.meaning w scope).value (right.meaning w scope).value :=
    holds_condition compares
  have onMarkers :
      ((compare true left.markerExpr right.markerExpr).eval w scope).value.isTrue = true ↔
        Holds .is (left.meaning w scope).mark (right.meaning w scope).mark := by
    rw [← Binding.eval_markerExpr, ← Binding.eval_markerExpr]
    exact holds_condition compares
  rw [alike, allTrue_append]
  constructor
  · rintro ⟨markers, values⟩
    refine ⟨fun either => ?_, onValues.mp (values _ List.mem_cons_self)⟩
    rw [marked] at either
    rw [if_pos either] at markers
    exact onMarkers.mp (markers _ List.mem_cons_self)
  · rintro ⟨markers, values⟩
    refine ⟨?_, List.forall_mem_singleton.mpr (onValues.mpr values)⟩
    split
    · rename_i either
      exact List.forall_mem_singleton.mpr (onMarkers.mpr (markers (marked.trans either)))
    · exact List.forall_mem_nil _

theorem alike_within {left right : Binding} (here : left.Within v) (there : right.Within v) :
    ∀ e ∈ alike left right, e.Within v := by
  refine List.forall_mem_append.mpr ⟨?_, List.forall_mem_singleton.mpr ⟨here.1, there.1⟩⟩
  split
  · exact List.forall_mem_singleton.mpr
      ⟨Binding.markerExpr_within here, Binding.markerExpr_within there⟩
  · exact List.forall_mem_nil _

end Comparing

section Projecting

def shown (bindings : Bindings) (t : Term) : Expr :=
  (((name? t).bind bindings.get?).map Binding.value).getD .null

theorem project_shown {r : Relation} {head : Atom} (unmarked : r.labeledNulls = false)
    (flat : r.hasStratum head.kind = false)
    (unblanked : (ctx.rule.blankAll || ctx.rule.blankNonKey) = false) (arity : head.args.length = r.columns.length)
    (bound : ∀ t ∈ head.args, ∃ x, name? t = some x ∧ bindings.contains x = true) :
    project ctx r head bindings = .ok (head.args.map (shown bindings)) := by
  have along (i : Nat) (places : List (Term × Column))
      (each : ∀ p ∈ places, ∃ x, name? p.1 = some x ∧ bindings.contains x = true) :
      projectColumns ctx r bindings i places = .ok (places.map fun p => shown bindings p.1) := by
    induction places generalizing i with
    | nil => rfl
    | cons p rest ih =>
      obtain ⟨⟨x, named, present⟩, others⟩ := List.forall_mem_cons.mp each
      obtain ⟨b, found⟩ := NameMap.get?_of_contains present
      obtain ⟨u, same, rfl, -⟩ := RowSemantics.name?_eq named
      have valued : value ctx bindings p.1 = .ok b := by rw [same, value, valueWith, found]
      have plain : (r.markerOf? p.2).isSome = false := by simp [Relation.markerOf?, unmarked]
      rw [projectColumns, valued, ih (i + 1) others, plain]
      simp [bind, Except.bind, projectPlace, unblanked, shown, named, found]
  have terms : (head.args.zip r.columns).map (fun p => shown bindings p.1) =
      head.args.map (shown bindings) := by
    rw [show (fun p : Term × Column => shown bindings p.1) = shown bindings ∘ Prod.fst from rfl,
      ← List.map_map, List.map_fst_zip arity.le]
  have each : ∀ p ∈ head.args.zip r.columns, ∃ x, name? p.1 = some x ∧ bindings.contains x = true :=
    fun p inside => bound p.1 (List.of_mem_zip inside).1
  rw [project, along 0 _ each, terms]
  simp [bind, Except.bind, flat]

end Projecting

-- A body of a joined atom with a variable for each column, and of outer joined atoms behind it
-- that share no variables with each other but those of the first.
structure OuterBody (ctx : Context) (first : Join) (joins : List Join) : Prop where
  numbers : (first :: joins).map Join.number = List.range' 0 (joins.length + 1)
  relations : ∀ j ∈ first :: joins, relationOf ctx j.atom = .ok j.relation
  positive : ∀ j ∈ first :: joins, j.atom.isPositive = true
  plain : first.atom.optional = false
  optional : ∀ j ∈ joins, j.atom.optional = true
  named : ∀ j ∈ first :: joins, ∀ t ∈ j.atom.args, (name? t).isSome = true
  distinct : (first.atom.args.map name?).Nodup
  apart : (joins.flatMap (·.atom.args)).Pairwise fun s t => ∀ x, name? s = some x →
    name? t = some x → some x ∈ first.atom.args.map name?

namespace Join

theorem terms_places {j : Join} (found : relationOf ctx j.atom = .ok j.relation) :
    j.places.map Place.term = j.atom.args := by
  rw [places, placesOf, List.map_map]
  exact List.map_fst_zip (Nat.le_of_eq (relationOf_ok found).2)

def binds (j : Join) : Bindings := (bindPlaces .empty j.places).1

end Join

namespace OuterBody

variable {first : Join} {joins : List Join} (body : OuterBody ctx first joins)
include body

theorem terms_first : first.places.map Place.term = first.atom.args :=
  Join.terms_places (body.relations _ List.mem_cons_self)

omit body in
theorem bound_first : Bound .empty first.places first.binds := by
  have bound : Bound .empty [] .empty := fun _ => rfl
  exact bound.places

theorem get?_binds {q : Place} (inside : q ∈ first.places) (named : name? q.term = some x) :
    first.binds.get? x = some q.column := by
  rw [bound_first x]
  have distinct : ((first.places.map fun q => (q.column, q.term)).map fun p => name? p.2).Nodup := by
    rw [List.map_map]
    change (first.places.map (name? ∘ Place.term)).Nodup
    rw [← List.map_map, body.terms_first]
    exact body.distinct
  exact RowSemantics.first?_of_nodup distinct (List.mem_map_of_mem inside) named

theorem contains_binds : first.binds.contains x = true ↔ some x ∈ first.atom.args.map name? := by
  rw [NameMap.contains, bound_first x, ← body.terms_first]
  change (first? x _).isSome = true ↔ _
  rw [RowSemantics.first?_isSome]
  simp [List.mem_filterMap]

theorem named_places {j : Join} (inside : j ∈ first :: joins) {p : Place} (place : p ∈ j.places) :
    (name? p.term).isSome = true :=
  body.named j inside p.term
    (Join.terms_places (body.relations j inside) ▸ List.mem_map_of_mem place)

theorem contains_arg {bindings : Bindings} (bound : Bound first.binds (joins.flatMap Join.places) bindings)
    {j : Join} (inside : j ∈ first :: joins) {t : Term} (arg : t ∈ j.atom.args) :
    ∃ x, name? t = some x ∧ bindings.contains x = true := by
  obtain ⟨x, named⟩ := Option.isSome_iff_exists.mp (body.named j inside t arg)
  refine ⟨x, named, ?_⟩
  rw [NameMap.contains, bound x, Option.isSome_or, Bool.or_eq_true]
  rcases List.mem_cons.mp inside with rfl | own
  · exact .inl (body.contains_binds.mpr (List.mem_map.mpr ⟨t, arg, named⟩))
  · rw [← Join.terms_places (body.relations j inside)] at arg
    obtain ⟨p, place, rfl⟩ := List.mem_map.mp arg
    have listed : p ∈ joins.flatMap Join.places := List.mem_flatMap.mpr ⟨j, own, place⟩
    exact .inr (RowSemantics.first?_isSome.mpr
      (List.mem_filterMap.mpr ⟨_, List.mem_map_of_mem listed, named⟩))

theorem fresh_joins : Fresh first.binds ((joins.flatMap Join.places).map Place.term) := by
  have terms : (joins.flatMap Join.places).map Place.term = joins.flatMap (·.atom.args) := by
    rw [List.map_flatMap]
    exact List.flatMap_congr fun j inside =>
      Join.terms_places (body.relations j (List.mem_cons_of_mem _ inside))
  rw [terms]
  exact body.apart.imp fun both x here there => body.contains_binds.mpr (both x here there)

theorem lowerBody_ok : ∃ sc, lowerBody ctx none (first.atom :: joins.map Join.atom) = .ok sc ∧
    sc.sources = first.source :: joins.map (Join.outer first.binds) ∧ sc.conditions = [] ∧
    Bound first.binds (joins.flatMap Join.places) sc.bindings := by
  obtain ⟨positive, others⟩ := List.forall_mem_cons.mp body.positive
  obtain ⟨own, relations⟩ := List.forall_mem_cons.mp body.relations
  have numbers := body.numbers
  rw [List.map_cons, List.range'_succ] at numbers
  obtain ⟨number, numbers⟩ := List.cons.inj numbers
  have settled : (bindPlaces .empty first.places).2 = [] := by
    refine (bindPlaces_distinct (fun p inside => ?_) ?_).1
    · obtain ⟨x, named⟩ := Option.isSome_iff_exists.mp (body.named_places List.mem_cons_self inside)
      exact ⟨x, named, rfl⟩
    · change (first.places.map (name? ∘ Place.term)).Nodup
      rw [← List.map_map, body.terms_first]
      exact body.distinct
  let opened : Scope := {
    bindings := first.binds
    sources := [first.source]
    aliases := 1 }
  have joined : joinAtom ctx none { bindings := .empty, aliases := 0 } 0 first.atom = .ok opened := by
    rw [Join.places, Join.qualifier, number] at settled
    unfold joinAtom
    rw [body.plain, Bool.false_and, if_neg Bool.false_ne_true, own]
    simp [guardConditions, bind, Except.bind, settled, Join.source, Join.table, Join.qualifier, number,
      Join.places, Join.binds, opened]
  obtain ⟨s', ran, added⟩ : ∃ s', joinAtoms ctx none opened 1 (joins.map Join.atom) = .ok s' ∧
      OuterJoined first.binds [] opened s' joins := by
    refine joinAtoms_outer (fun j inside => ⟨others j inside, body.optional j inside⟩) relations
      numbers (fun p inside => ?_) body.fresh_joins fun x => ?_
    · obtain ⟨j, listed, place⟩ := List.mem_flatMap.mp inside
      exact body.named_places (List.mem_cons_of_mem _ listed) place
    · exact (Option.or_none ..).symm
  have each : ∀ a ∈ first.atom :: joins.map Join.atom, a.isPositive = true :=
    List.forall_mem_cons.mpr ⟨positive, List.forall_mem_map.mpr others⟩
  have builtins : (first.atom :: joins.map Join.atom).filter
      (fun a => !a.negated && a.builtin?.isSome) = [] := by
    refine List.filter_eq_nil_iff.mpr fun a inside => ?_
    rw [Atom.builtin?_of_isPositive (each a inside)]
    simp
  have negations : (first.atom :: joins.map Join.atom).filter (·.negated) = [] := by
    refine List.filter_eq_nil_iff.mpr fun a inside => ?_
    rw [Atom.negated_of_isPositive (each a inside)]
    exact Bool.false_ne_true
  have entered : joinAtoms ctx none { bindings := .empty, aliases := 0 } 0
      (first.atom :: joins.map Join.atom) = .ok s' := by
    rw [joinAtoms, if_pos positive, joined]
    exact ran
  refine ⟨{ s' with pending := [] }, ?_, added.sources, added.conditions, added.bound⟩
  unfold lowerBody
  rw [entered, builtins, negations]
  have pending : s'.pending = [] := added.pending
  have conditions : s'.conditions = [] := added.conditions
  simp [bind, Except.bind, builtinPasses, pending, conditions, allConditions, negatedConditions]

section Reading

variable {db : Database} {n : Int} {t row : Row} {j : Join}

omit body in
theorem shows_chosen {sources : List Source} {rows : List Row} {s : Source}
    (distinct : (sources.map fun s => Sql.fold s.qualifier).Nodup) (same : sources.length = rows.length)
    (chosen : (s, row) ∈ sources.zip rows) (full : row.length = (db.columns s.table).length) :
    Shows db [Source.frameOf db sources rows] s.qualifier s.table row := by
  intro column named
  obtain ⟨cell, here, found⟩ := Source.frameOf_cell distinct same chosen full named
  exact (Sql.Scope.get?_of_frame found).trans here.symm

theorem distinct_qualifiers : ((first.source :: joins.map (Join.outer first.binds)).map
    fun s => Sql.fold s.qualifier).Nodup := by
  have names : ((first.source :: joins.map (Join.outer first.binds)).map fun s => Sql.fold s.qualifier) =
      ((first :: joins).map Join.number).map fun n => Sql.fold (aliasName n) := by
    rw [List.map_cons, List.map_map, List.map_map]
    rfl
  rw [names, body.numbers]
  exact List.Nodup.map (fun m n same => fold_aliasName_injective same) List.nodup_range'

-- A place of an outer joined atom is compared with the place of the first that has its variable.
theorem onPlace_iff (own : j ∈ joins) {p : Place} (inside : p ∈ j.places) :
    AllTrue w scope (onPlace first.binds p) ↔ ∀ q ∈ first.places, name? p.term = name? q.term →
      Alike (p.column.meaning w scope) (q.column.meaning w scope) := by
  obtain ⟨x, named⟩ :=
    Option.isSome_iff_exists.mp (body.named_places (List.mem_cons_of_mem _ own) inside)
  rw [onPlace, named, Option.bind_some]
  cases found : first.binds.get? x with
  | none =>
    refine iff_of_true (List.forall_mem_nil _) fun q listed same => ?_
    rw [body.get?_binds listed same.symm] at found
    cases found
  | some b =>
    rw [Option.map_some, Option.getD_some, alike_iff]
    constructor
    · intro alike q listed same
      rw [body.get?_binds listed same.symm] at found
      cases found
      exact alike
    · intro all
      have listed : some x ∈ first.places.map (name? ∘ Place.term) := by
        rw [← List.map_map, body.terms_first]
        exact body.contains_binds.mp (NameMap.contains_of_get? found)
      obtain ⟨q, listed, same⟩ := List.mem_map.mp listed
      rw [body.get?_binds listed same] at found
      cases found
      exact all q listed same.symm

variable (stored : ∀ j ∈ first :: joins, j.relation.StoredIn j.atom.kind db)
include stored

theorem joins_iff (own : j ∈ joins) (chosen : t ∈ db.rows first.table) :
    Source.Joins ⟨db, n⟩ [] [Source.item db first.source t] (j.outer first.binds) row ↔
      row ∈ db.rows j.table ∧ ∀ p ∈ RowSemantics.places ctx.catalog db j.atom row,
        ∀ q ∈ RowSemantics.places ctx.catalog db first.atom t, name? p.2 = name? q.2 →
          Alike p.1 q.1 := by
  have listed : j ∈ first :: joins := List.mem_cons_of_mem _ own
  have conditions (held : row ∈ db.rows j.table) : Expr.allHold ⟨db, n⟩
      [[Source.item db (j.outer first.binds) row, Source.item db first.source t]]
        (j.outer first.binds).on = true ↔
      ∀ p ∈ RowSemantics.places ctx.catalog db j.atom row,
        ∀ q ∈ RowSemantics.places ctx.catalog db first.atom t, name? p.2 = name? q.2 →
          Alike p.1 q.1 := by
    have distinct : ([first.source, j.outer first.binds].map fun s => Sql.fold s.qualifier).Nodup := by
      have all := body.distinct_qualifiers
      refine all.sublist ?_
      exact .cons_cons _ (List.singleton_sublist.mpr (List.mem_map_of_mem (List.mem_map_of_mem own)))
    have atFirst : Shows db [Source.frameOf db [first.source, j.outer first.binds] [t, row]]
        first.source.qualifier first.source.table t :=
      shows_chosen distinct rfl List.mem_cons_self ((stored _ List.mem_cons_self).full chosen)
    have atOwn : Shows db [Source.frameOf db [first.source, j.outer first.binds] [t, row]]
        (j.outer first.binds).qualifier (j.outer first.binds).table row :=
      shows_chosen distinct rfl (List.mem_cons_of_mem _ List.mem_cons_self) ((stored _ listed).full held)
    change Expr.allHold ⟨db, n⟩ [Source.frameOf db [first.source, j.outer first.binds] [t, row]]
      (j.places.flatMap (onPlace first.binds)) = true ↔ _
    rw [allHold_iff, AllTrue, List.forall_mem_flatMap,
      ← meaning_placesOf (body.relations _ List.mem_cons_self) (stored _ List.mem_cons_self) atFirst,
      ← meaning_placesOf (body.relations _ listed) (stored _ listed) atOwn, List.forall_mem_map]
    simp only [List.forall_mem_map]
    exact forall₂_congr fun p inside => body.onPlace_iff own inside
  exact ⟨fun joins => ⟨joins.stored, (conditions joins.stored).mp joins.holds⟩,
    fun joins => ⟨joins.1, (conditions joins.1).mpr joins.2⟩⟩

-- Rows that a body puts together: one of the first atom, and for each of the others one that is
-- joined with it, or nulls.
structure Together (db : Database) (n : Int) (first : Join) (joins : List Join) (t : Row)
    (rows : List Row) : Prop where
  chosen : t ∈ db.rows first.table
  each : List.Forall₂ (fun j row => Source.Extends ⟨db, n⟩ [] [Source.item db first.source t]
    (j.outer first.binds) row) joins rows

theorem reads_outer (own : j ∈ joins) : ∀ e ∈ (j.outer first.binds).on,
    e.Within (Source.visible db [first.source] ++ Source.visible db [j.outer first.binds]) := by
  have seen {i : Join} {s : Source} (listed : i ∈ first :: joins) (table : s.table = i.table)
      (qualifier : s.qualifier = i.qualifier) :
      ∀ p ∈ i.places, p.column.Within (Source.visible db [s]) := by
    refine placesOf_within i.atom.kind fun column named => ?_
    refine Source.mem_visible.mpr ⟨s, List.mem_cons_self, qualifier, ?_⟩
    rw [table]
    exact (stored i listed).columnNames ▸ named
  have bound : AllWithin (Source.visible db [first.source]) first.binds :=
    (bindPlaces_within allWithin_empty (seen List.mem_cons_self rfl rfl)).1
  intro e inside
  obtain ⟨p, place, inside⟩ := List.mem_flatMap.mp inside
  obtain ⟨x, named⟩ :=
    Option.isSome_iff_exists.mp (body.named_places (List.mem_cons_of_mem _ own) place)
  rw [onPlace, named, Option.bind_some] at inside
  cases found : first.binds.get? x with
  | none =>
    rw [found] at inside
    cases inside
  | some b =>
    rw [found] at inside
    have here := seen (s := j.outer first.binds) (List.mem_cons_of_mem _ own) rfl rfl p place
    have there := bound x b found
    refine alike_within ⟨?_, ?_⟩ ⟨?_, ?_⟩ e inside
    · exact Expr.within_mono covers_right _ here.1
    · exact fun m marked => Expr.within_mono covers_right _ (here.2 m marked)
    · exact Expr.within_mono covers_left _ there.1
    · exact fun m marked => Expr.within_mono covers_left _ (there.2 m marked)

theorem mem_frames {f : Sql.Frame} : f ∈ Source.frames ⟨db, n⟩ [] []
    (first.source :: joins.map (Join.outer first.binds)) ↔ ∃ t rows,
      Together db n first joins t rows ∧
        f = Source.frameOf db (first.source :: joins.map (Join.outer first.binds)) (t :: rows) := by
  obtain ⟨apart, distinct⟩ := List.nodup_cons.mp body.distinct_qualifiers
  have others (frame : Sql.Frame) (f : Sql.Frame) : f ∈ Source.frames ⟨db, n⟩ [] frame
      (joins.map (Join.outer first.binds)) ↔ ∃ rows, List.Forall₂
        (Source.Extends ⟨db, n⟩ [] frame) (joins.map (Join.outer first.binds)) rows ∧
          f = Source.frameOf db (joins.map (Join.outer first.binds)) rows ++ frame := by
    have reads : ∀ s ∈ joins.map (Join.outer first.binds), ∀ e ∈ s.on,
        e.Within (Source.visible db [first.source] ++ Source.visible db [s]) :=
      List.forall_mem_map.mpr fun j own => body.reads_outer stored own
    refine Source.mem_frames_outer ?_ distinct reads ?_
    · exact List.forall_mem_map.mpr fun j _ => rfl
    · refine List.forall_mem_map.mpr fun j own => List.forall_mem_singleton.mpr fun same => ?_
      exact apart (List.mem_map.mpr ⟨_, List.mem_map_of_mem own, same.symm⟩)
  rw [show first.source = .mk first.table first.qualifier false [] from rfl]
  simp only [Source.frames, Bool.false_eq_true, if_false, List.mem_flatMap, List.mem_map]
  constructor
  · rintro ⟨_, ⟨t, chosen, rfl⟩, later⟩
    obtain ⟨rows, each, rfl⟩ := (others _ f).mp later
    exact ⟨t, rows, ⟨chosen, List.forall₂_map_left_iff.mp each⟩,
      (Source.frameOf_cons (s := first.source)).symm⟩
  · rintro ⟨t, rows, together, rfl⟩
    exact ⟨_, ⟨t, together.chosen, rfl⟩, (others _ _).mpr
      ⟨rows, List.forall₂_map_left_iff.mpr together.each, Source.frameOf_cons (s := first.source)⟩⟩

section Values

variable {rows : List Row} {bindings : Bindings}

theorem value_first (bound : Bound first.binds (joins.flatMap Join.places) bindings)
    (together : Together db n first joins t rows) :
    ∀ q ∈ RowSemantics.places ctx.catalog db first.atom t, ((shown bindings q.2).eval ⟨db, n⟩
      [Source.frameOf db (first.source :: joins.map (Join.outer first.binds)) (t :: rows)]).value =
        q.1.value.value := by
  have shows : Shows db
      [Source.frameOf db (first.source :: joins.map (Join.outer first.binds)) (t :: rows)]
      first.source.qualifier first.source.table t :=
    shows_chosen body.distinct_qualifiers (by simp [together.each.length_eq]) List.mem_cons_self
      ((stored _ List.mem_cons_self).full together.chosen)
  rw [← meaning_placesOf (body.relations _ List.mem_cons_self) (stored _ List.mem_cons_self) shows,
    List.forall_mem_map]
  intro q inside
  obtain ⟨x, named⟩ := Option.isSome_iff_exists.mp (body.named_places List.mem_cons_self inside)
  have found : bindings.get? x = some q.column := by
    rw [bound x, body.get?_binds inside named, Option.some_or]
  rw [shown, Place.meaning, named, Option.bind_some, found]
  rfl

theorem value_outer (bound : Bound first.binds (joins.flatMap Join.places) bindings)
    (together : Together db n first joins t rows) (chosen : (j, row) ∈ joins.zip rows) :
    ∀ p ∈ RowSemantics.places ctx.catalog db j.atom row, name? p.2 ∉ first.atom.args.map name? →
      ((shown bindings p.2).eval ⟨db, n⟩ [Source.frameOf db
        (first.source :: joins.map (Join.outer first.binds)) (t :: rows)]).value = p.1.value.value := by
  have own : j ∈ joins := (List.of_mem_zip chosen).1
  have listed : j ∈ first :: joins := List.mem_cons_of_mem _ own
  have full : row.length = (db.columns j.table).length := by
    rcases (List.forall₂_iff_zip.mp together.each).2 chosen with joins | ⟨-, rfl⟩
    · exact (stored j listed).full joins.stored
    · exact List.length_map _
  have shows : Shows db
      [Source.frameOf db (first.source :: joins.map (Join.outer first.binds)) (t :: rows)]
      (j.outer first.binds).qualifier (j.outer first.binds).table row := by
    refine shows_chosen body.distinct_qualifiers (by simp [together.each.length_eq]) ?_ full
    rw [List.zip_cons_cons, List.zip_map_left]
    exact List.mem_cons_of_mem _ (List.mem_map.mpr ⟨(j, row), chosen, rfl⟩)
  rw [← meaning_placesOf (body.relations j listed) (stored j listed) shows, List.forall_mem_map]
  intro p inside unnamed
  obtain ⟨x, named⟩ := Option.isSome_iff_exists.mp (body.named_places listed inside)
  rw [Place.meaning, named] at unnamed
  have new : first.binds.get? x = none := by
    by_contra some
    exact unnamed (body.contains_binds.mp (Option.isSome_iff_ne_none.mpr some))
  have found : bindings.get? x = some p.column := by
    rw [bound x, new, Option.none_or]
    refine RowSemantics.first?_of_apart ?_
      (List.mem_map_of_mem (List.mem_flatMap.mpr ⟨j, own, inside⟩)) named
    have apart := List.pairwise_map.mp body.fresh_joins
    refine List.pairwise_map.mpr (apart.imp fun both here there => ?_)
    have old := both x here there
    rw [NameMap.contains, new] at old
    cases old
  rw [shown, Place.meaning, named, Option.bind_some, found]
  rfl

end Values

theorem mem_rows {projection : List Expr} {row : Row} (some : projection ≠ []) :
    row ∈ (Sql.Query.ofSelect (.mk false projection
        (first.source :: joins.map (Join.outer first.binds)) [])).rows ⟨db, n⟩ ↔
      ∃ t rows, Together db n first joins t rows ∧ row = projection.map fun e => (e.eval ⟨db, n⟩
        [Source.frameOf db (first.source :: joins.map (Join.outer first.binds)) (t :: rows)]).value := by
  have only (s : Sql.Select) : (Sql.Query.ofSelect s).rows ⟨db, n⟩ = s.rows ⟨db, n⟩ := by
    simp [Sql.Query.ofSelect, Sql.Query.rows]
  have projects (f : Sql.Frame) : Sql.Select.project ⟨db, n⟩ projection f =
      projection.map fun e => (e.eval ⟨db, n⟩ [f]).value := by
    rw [Sql.Select.project, if_neg (by simpa using some), Expr.evalAll_eq_map]
  rw [only, Sql.Select.rows, Sql.Select.distinct, if_neg Bool.false_ne_true, Sql.Select.projected,
    List.mem_map]
  have frames : ∀ f, f ∈ Sql.Select.frames ⟨db, n⟩ []
      (.mk false projection (first.source :: joins.map (Join.outer first.binds)) []) ↔
        f ∈ Source.frames ⟨db, n⟩ [] [] (first.source :: joins.map (Join.outer first.binds)) := by
    intro f
    simp [Sql.Select.frames]
  constructor
  · rintro ⟨f, inside, rfl⟩
    obtain ⟨t, rows, together, rfl⟩ := (body.mem_frames stored).mp ((frames f).mp inside)
    exact ⟨t, rows, together, projects _⟩
  · rintro ⟨t, rows, together, rfl⟩
    exact ⟨_, (frames _).mpr ((body.mem_frames stored).mpr ⟨t, rows, together, rfl⟩), projects _⟩

end Reading

end OuterBody

end Lowering

end PeerExchange
