import PeerExchange.Proofs.RecordedRows

namespace PeerExchange

open RowSemantics (Holds Meaning cell name?)
open Sql (Database Row Typed Value)

namespace OuterJoinView

open Lowering (Join)

variable {target : Relation} {members : List ProvenanceRelation} {p : ProvenanceRelation}
  {m m' i i' k : Nat} {column : Column}

def memberName (m i : Nat) : String := "p" ++ toString m ++ "_" ++ toString i

theorem memberName_injective (same : memberName m i = memberName m' i') : m = m' ∧ i = i' := by
  have plain (n : Nat) : '_' ∉ Nat.toDigits 10 n := fun digit => by
    have numeral : '_'.isDigit = true := Nat.isDigit_of_mem_toDigits (by decide) (by decide) digit
    cases numeral
  have texts := congrArg String.toList same
  simp only [memberName, String.toList_append, Nat.toString_eq_ofList_toDigits, String.toList_ofList,
    List.append_assoc] at texts
  obtain ⟨-, texts⟩ := List.append_inj texts rfl
  obtain ⟨first, -, second⟩ := (List.append_cons_inj_of_notMem (plain m) (plain i)).mp texts
  have value {a b : Nat} (digits : Nat.toDigits 10 a = Nat.toDigits 10 b) : a = b := by
    rw [← @Nat.ofDigitChars_ten_toDigits a, digits, Nat.ofDigitChars_ten_toDigits]
  exact ⟨value first, value second⟩

theorem memberName_ne : memberName m i ≠ "t" ++ toString k := by
  intro same
  have first := congrArg (fun s : String => s.toList.head?) same
  simp [memberName] at first

theorem name?_memberPlace : name? (memberPlace target m p i column).1 =
    some (((joinedPosition? target p i).map ("t" ++ toString ·)).getD (memberName m i)) := by
  unfold memberPlace
  split
  · rename_i joined
    rw [joined]
    rfl
  · rename_i joined
    rw [joined]
    rfl

theorem joinedPosition?_lt (joined : joinedPosition? target p i = some k) : k < target.arity := by
  unfold joinedPosition? at joined
  split at joined
  · cases joined
  · split at joined
    · split at joined
      · split at joined
        · exact (List.findIdx?_eq_some_iff_findIdx_eq.mp joined).1
        · cases joined
      · cases joined
    · cases joined

theorem joined_iff (distinct : (target.columns.map Column.name).Nodup) {a b : Column} :
    (∃ i k, joinedPosition? target p i = some k ∧ p.relation.columns[i]? = some a ∧
        target.columns[k]? = some b) ↔
      ∃ d ∈ p.columns, d.column = a ∧ b ∈ target.columns ∧ d.key = .target target.name b.name := by
  constructor
  · rintro ⟨i, k, joined, here, there⟩
    unfold joinedPosition? at joined
    split at joined
    · cases joined
    rename_i later
    split at joined
    · rename_i d found
      split at joined
      · rename_i relation column key
        split at joined
        · rename_i same
          obtain ⟨inside, named, -⟩ := List.findIdx?_eq_some_iff_getElem.mp joined
          obtain ⟨bound, rfl⟩ := List.getElem?_eq_some_iff.mp found
          have at_ := ProvenanceRelation.column_at bound
          rw [Nat.add_sub_cancel' (Nat.not_lt.mp later), here] at at_
          rw [List.getElem?_eq_getElem inside] at there
          cases there
          refine ⟨_, List.getElem_mem bound, (Option.some.inj at_).symm, List.getElem_mem inside, ?_⟩
          rw [key, same, of_decide_eq_true named]
        · cases joined
      · cases joined
    · cases joined
  · rintro ⟨d, member, rfl, column, key⟩
    obtain ⟨j, bound, rfl⟩ := List.getElem_of_mem member
    obtain ⟨k, inside, rfl⟩ := List.getElem_of_mem column
    refine ⟨p.dataOffset + j, k, ?_, ProvenanceRelation.column_at bound,
      List.getElem?_eq_getElem inside⟩
    have first : target.columns.findIdx? (·.name = target.columns[k].name) = some k := by
      refine List.findIdx?_eq_some_iff_getElem.mpr ⟨inside, by simp, fun l before => ?_⟩
      have differ := (List.pairwise_iff_getElem.mp distinct) l k
        (by simpa using Nat.lt_trans before inside) (by simpa using inside) before
      simpa using differ
    rw [joinedPosition?, if_neg (Nat.not_lt.mpr (Nat.le_add_right _ _)), Nat.add_sub_cancel_left,
      List.getElem?_eq_getElem bound]
    simp only [key, if_true, first]

theorem mem_names_targetArgs {x : String} :
    some x ∈ (targetArgs target).map name? ↔ ∃ k < target.arity, x = "t" ++ toString k := by
  simp [targetArgs, targetVariable, Term.var, name?, eq_comm]

def targetJoin (target : Relation) : Join := ⟨0, .ofRelation target.name (targetArgs target), target, 0⟩

def memberJoin (target : Relation) (stored : ProvenanceRelation → Relation) (m : Nat)
    (p : ProvenanceRelation) : Join := ⟨m + 1, memberAtom target m p, stored p, m + 1⟩

section Body

variable {ctx : Lowering.Context} {stored : ProvenanceRelation → Relation}
  (known : ctx.catalog.relations.get? target.name = some target)
  (registered : ∀ p ∈ members, ctx.catalog.relations.get? p.name = some (stored p))
  (marked : ∀ p ∈ members, p.relation.IsMarked (stored p))

theorem args_memberAtom : (memberAtom target m p).args =
    p.relation.columns.mapIdx fun i column => (memberPlace target m p i column).1 := by
  refine List.ext_getElem (by simp [memberAtom, Atom.ofRelation, memberPlaces]) fun i _ _ => ?_
  simp [memberAtom, Atom.ofRelation, memberPlaces]

theorem body_joins : (build target members).1.rule.body =
    (targetJoin target).atom :: (members.mapIdx (memberJoin target stored)).map Join.atom := by
  rw [body_build]
  exact congrArg (List.cons _) (List.ext_getElem (by simp) fun i _ _ => by simp [memberJoin])

theorem apart_members : ((members.mapIdx (memberJoin target stored)).flatMap
    (·.atom.args)).Pairwise fun s t => ∀ x, name? s = some x → name? t = some x →
      some x ∈ (targetJoin target).atom.args.map name? := by
  have shared {m m' i i' : Nat} {p p' : ProvenanceRelation} {column column' : Column}
      (differ : m ≠ m' ∨ i ≠ i') : ∀ x, name? (memberPlace target m p i column).1 = some x →
        name? (memberPlace target m' p' i' column').1 = some x →
          some x ∈ (targetJoin target).atom.args.map name? := by
    intro x here there
    rw [name?_memberPlace] at here there
    refine mem_names_targetArgs.mpr ?_
    cases joined : joinedPosition? target p i with
    | some k =>
      rw [joined] at here
      exact ⟨k, joinedPosition?_lt joined, (Option.some.inj here).symm⟩
    | none =>
      rw [joined] at here
      have own : memberName m i = x := Option.some.inj here
      cases other : joinedPosition? target p' i' with
      | some k =>
        rw [other] at there
        exact absurd (own.trans (Option.some.inj there).symm) memberName_ne
      | none =>
        rw [other] at there
        obtain ⟨rfl, rfl⟩ := memberName_injective (own.trans (Option.some.inj there).symm)
        exact differ.elim (absurd rfl) (absurd rfl)
  rw [List.pairwise_flatMap]
  constructor
  · intro j inside
    obtain ⟨m, bound, rfl⟩ := List.mem_mapIdx.mp inside
    refine List.pairwise_iff_getElem.mpr fun i i' before after order => ?_
    simp only [memberJoin, args_memberAtom, List.getElem_mapIdx]
    exact shared (.inr order.ne)
  · refine List.pairwise_iff_getElem.mpr fun m m' before after order s here t there => ?_
    simp only [List.getElem_mapIdx, memberJoin, args_memberAtom] at here there
    obtain ⟨i, bound, rfl⟩ := List.mem_mapIdx.mp here
    obtain ⟨i', bound', rfl⟩ := List.mem_mapIdx.mp there
    exact shared (.inl order.ne)

theorem numbers_members : (targetJoin target :: members.mapIdx (memberJoin target stored)).map
    Join.number = List.range' 0 (members.length + 1) := by
  refine List.ext_getElem (by simp) fun i _ _ => ?_
  cases i <;> simp [targetJoin, memberJoin]

include known registered marked

theorem outerBody : Lowering.OuterBody ctx (targetJoin target)
    (members.mapIdx (memberJoin target stored)) where
  numbers := by
    rw [List.length_mapIdx]
    exact numbers_members
  relations := by
    refine List.forall_mem_cons.mpr ⟨Lowering.relationOf_found known ?_, fun j inside => ?_⟩
    · simp [targetJoin, Atom.ofRelation, targetArgs]
    · obtain ⟨m, bound, rfl⟩ := List.mem_mapIdx.mp inside
      refine Lowering.relationOf_found (registered _ (List.getElem_mem bound)) ?_
      rw [memberJoin, args_memberAtom, List.length_mapIdx, Relation.arity,
        (marked _ (List.getElem_mem bound)).columns]
  positive := by
    refine List.forall_mem_cons.mpr ⟨rfl, fun j inside => ?_⟩
    obtain ⟨m, bound, rfl⟩ := List.mem_mapIdx.mp inside
    rfl
  plain := rfl
  optional j inside := by
    obtain ⟨m, bound, rfl⟩ := List.mem_mapIdx.mp inside
    rfl
  named := by
    refine List.forall_mem_cons.mpr ⟨List.forall_mem_map.mpr fun k _ => rfl, fun j inside t arg => ?_⟩
    obtain ⟨m, bound, rfl⟩ := List.mem_mapIdx.mp inside
    rw [memberJoin, args_memberAtom] at arg
    obtain ⟨i, bound', rfl⟩ := List.mem_mapIdx.mp arg
    rw [name?_memberPlace]
    rfl
  distinct := by
    have names : (targetJoin target).atom.args.map name? =
        (List.range target.arity).map fun k => some ("t" ++ toString k) := by
      simp [targetJoin, Atom.ofRelation, targetArgs, targetVariable, Term.var, name?, Function.comp_def]
    rw [names]
    exact List.Nodup.map ((Option.some_injective _).comp (Maintenance.placeName_injective "t"))
      List.nodup_range
  apart := apart_members

end Body

section Rows

variable {db : Database} {row t : Row} {n : Int} {ctx : Lowering.Context}
  {stored : ProvenanceRelation → Relation}

def shownColumns (target : Relation) (p : ProvenanceRelation) : List Column :=
  (p.relation.columns.zipIdx.filter fun (_, i) => (joinedPosition? target p i).isNone).map Prod.fst

theorem name?_shared : name? (memberPlace target m p i column).1 = name? (targetVariable k) ↔
    joinedPosition? target p i = some k := by
  rw [name?_memberPlace]
  change some _ = some ("t" ++ toString k) ↔ _
  rw [Option.some.injEq]
  cases joined : joinedPosition? target p i with
  | none => exact iff_of_false memberName_ne nofun
  | some l =>
    rw [Option.some.injEq]
    exact ⟨fun same => Maintenance.placeName_injective "t" same, fun same => same ▸ rfl⟩

theorem places_target (known : ctx.catalog.relations.get? target.name = some target)
    {q : Meaning × Term} : q ∈ RowSemantics.places ctx.catalog db (targetJoin target).atom t ↔
      ∃ k b, target.columns[k]? = some b ∧ q = (target.reading db t b, targetVariable k) := by
  rw [places_reading known rfl, List.mem_map]
  change (∃ place ∈ (targetArgs target).zip target.columns, _) ↔ _
  constructor
  · rintro ⟨⟨arg, b⟩, inside, rfl⟩
    obtain ⟨k, zipped⟩ := List.getElem?_of_mem inside
    obtain ⟨here, there⟩ := List.getElem?_zip_eq_some.mp zipped
    obtain ⟨bound, rfl⟩ := List.getElem?_eq_some_iff.mp here
    exact ⟨k, b, there, by simp [targetArgs]⟩
  · rintro ⟨k, b, found, rfl⟩
    have bound : k < target.arity := (List.getElem?_eq_some_iff.mp found).1
    refine ⟨(targetVariable k, b), List.mem_of_getElem? (i := k) ?_, rfl⟩
    refine List.getElem?_zip_eq_some.mpr ⟨?_, found⟩
    simp [targetArgs, bound]

theorem places_member (registered : ctx.catalog.relations.get? p.name = some (stored p))
    (marked : p.relation.IsMarked (stored p)) {q : Meaning × Term} :
    q ∈ RowSemantics.places ctx.catalog db (memberJoin target stored m p).atom row ↔
      ∃ i a, p.relation.columns[i]? = some a ∧
        q = (p.relation.reading db row a, (memberPlace target m p i a).1) := by
  rw [places_reading registered rfl, List.mem_map, marked.columns, marked.reading]
  change (∃ place ∈ (memberAtom target m p).args.zip p.relation.columns, _) ↔ _
  rw [args_memberAtom]
  constructor
  · rintro ⟨⟨arg, a⟩, inside, rfl⟩
    obtain ⟨i, zipped⟩ := List.getElem?_of_mem inside
    obtain ⟨here, there⟩ := List.getElem?_zip_eq_some.mp zipped
    refine ⟨i, a, there, ?_⟩
    simp only [List.getElem?_mapIdx, there, Option.map_some, Option.some.injEq] at here
    rw [here]
  · rintro ⟨i, a, found, rfl⟩
    refine ⟨((memberPlace target m p i a).1, a), List.mem_of_getElem? (i := i) ?_, rfl⟩
    exact List.getElem?_zip_eq_some.mpr ⟨by simp [List.getElem?_mapIdx, found], found⟩

-- A row of a member beside a tuple: they hold the same wherever a column is kept for the target.
structure JoinsWith (db : Database) (target : Relation) (t : Row) (p : ProvenanceRelation)
    (row : Row) : Prop where
  stored : row ∈ db.rows (p.relation.tableName .base)
  alike : ∀ d ∈ p.columns, ∀ b ∈ target.columns, d.key = .target target.name b.name →
    Lowering.Alike (p.relation.reading db row d.column) (target.reading db t b)

def Extends (db : Database) (target : Relation) (t : Row) (p : ProvenanceRelation) (row : Row) :
    Prop :=
  JoinsWith db target t p row ∨ (∀ other, ¬ JoinsWith db target t p other) ∧
    row = (db.columns (p.relation.tableName .base)).map fun _ => .null

section Frames

variable (known : ctx.catalog.relations.get? target.name = some target)
  (registered : ∀ p ∈ members, ctx.catalog.relations.get? p.name = some (stored p))
  (marked : ∀ p ∈ members, p.relation.IsMarked (stored p))
  (held : target.StoredIn .base db) (kept : ∀ p ∈ members, p.relation.StoredIn .base db)

include marked held kept in
theorem stored_joins : ∀ j ∈ targetJoin target :: members.mapIdx (memberJoin target stored),
    j.relation.StoredIn j.atom.kind db := by
  refine List.forall_mem_cons.mpr ⟨held, fun j inside => ?_⟩
  obtain ⟨m, bound, rfl⟩ := List.mem_mapIdx.mp inside
  exact (marked _ (List.getElem_mem bound)).storedIn (kept _ (List.getElem_mem bound))

include known registered marked held kept

theorem joins_iff (chosen : t ∈ db.rows (target.tableName .base)) {m : Nat} (bound : m < members.length) :
    Sql.Source.Joins ⟨db, n⟩ [] [Sql.Source.item db (targetJoin target).source t]
      ((memberJoin target stored m members[m]).outer (targetJoin target).binds) row ↔
        JoinsWith db target t members[m] row := by
  have body := outerBody known registered marked
  have member := List.getElem_mem bound
  have table : (memberJoin target stored m members[m]).table =
      members[m].relation.tableName .base := (marked _ member).tableName .base
  rw [body.joins_iff (stored_joins marked held kept) (List.mem_mapIdx.mpr ⟨m, bound, rfl⟩) chosen,
    table]
  constructor
  · rintro ⟨inside, all⟩
    refine ⟨inside, fun d column b listed key => ?_⟩
    obtain ⟨i, k, joined, here, there⟩ :=
      (joined_iff held.nodup_names).mpr ⟨d, column, rfl, listed, key⟩
    exact all _ ((places_member (registered _ member) (marked _ member)).mpr ⟨i, _, here, rfl⟩) _
      ((places_target known).mpr ⟨k, b, there, rfl⟩) (name?_shared.mpr joined)
  · rintro ⟨inside, all⟩
    refine ⟨inside, fun q here q' there same => ?_⟩
    obtain ⟨i, a, own, rfl⟩ := (places_member (registered _ member) (marked _ member)).mp here
    obtain ⟨k, b, other, rfl⟩ := (places_target known).mp there
    obtain ⟨d, column, rfl, listed, key⟩ :=
      (joined_iff held.nodup_names).mp ⟨i, k, name?_shared.mp same, own, other⟩
    exact all d column b listed key

theorem extends_iff (chosen : t ∈ db.rows (target.tableName .base)) {m : Nat}
    (bound : m < members.length) :
    Sql.Source.Extends ⟨db, n⟩ [] [Sql.Source.item db (targetJoin target).source t]
      ((memberJoin target stored m members[m]).outer (targetJoin target).binds) row ↔
        Extends db target t members[m] row := by
  have joins (other : Row) :
      Sql.Source.Joins ⟨db, n⟩ [] [Sql.Source.item db (targetJoin target).source t]
        ((memberJoin target stored m members[m]).outer (targetJoin target).binds) other ↔
          JoinsWith db target t members[m] other :=
    joins_iff known registered marked held kept chosen bound
  have table : ((memberJoin target stored m members[m]).outer (targetJoin target).binds).table =
      members[m].relation.tableName .base :=
    (marked _ (List.getElem_mem bound)).tableName .base
  simp only [Sql.Source.Extends, Extends, joins, Sql.Source.nulls, table]

-- Rows that are put together: one of the target, and for each member one that is joined, or nulls.
theorem together_iff {rows : List Row} :
    Lowering.OuterBody.Together db n (targetJoin target) (members.mapIdx (memberJoin target stored))
      t rows ↔ t ∈ db.rows (target.tableName .base) ∧
        List.Forall₂ (Extends db target t) members rows := by
  constructor
  · rintro ⟨chosen, extended⟩
    refine ⟨chosen, List.forall₂_iff_get.mpr ?_⟩
    obtain ⟨length, at_⟩ := List.forall₂_iff_get.mp extended
    refine ⟨by simpa using length, fun m bound bound' => ?_⟩
    have here := at_ m (by simpa using bound) bound'
    simp only [List.get_eq_getElem, List.getElem_mapIdx] at here
    exact (extends_iff known registered marked held kept chosen bound).mp here
  · rintro ⟨chosen, extended⟩
    refine ⟨chosen, List.forall₂_iff_get.mpr ?_⟩
    obtain ⟨length, at_⟩ := List.forall₂_iff_get.mp extended
    refine ⟨by simpa using length, fun m bound bound' => ?_⟩
    have bound : m < members.length := by simpa using bound
    simp only [List.get_eq_getElem, List.getElem_mapIdx]
    exact (extends_iff known registered marked held kept chosen bound).mpr (at_ m bound bound')

end Frames

def addedPlaces (target : Relation) (members : List ProvenanceRelation) : List (Column × Term) :=
  (members.mapIdx (memberPlaces target)).flatten.filterMap Prod.snd

def shownArgs (target : Relation) (members : List ProvenanceRelation) : List Term :=
  targetArgs target ++ (addedPlaces target members).map Prod.snd

section Lowered

variable (known : ctx.catalog.relations.get? target.name = some target)
  (registered : ∀ p ∈ members, ctx.catalog.relations.get? p.name = some (stored p))
  (marked : ∀ p ∈ members, p.relation.IsMarked (stored p))

include known registered marked

theorem lower_build {described : Relation} (rule : ctx.rule = (build target members).1.rule)
    (found : ctx.catalog.relations.get? (viewName target.name) = some described)
    (same : (build target members).2.IsMarked described) :
    ∃ bindings names, Lowering.Bound (targetJoin target).binds
        ((members.mapIdx (memberJoin target stored)).flatMap Join.places) bindings ∧
      Lowering.lowerRule ctx = .ok [.createView (viewName target.name) names
        (.ofSelect (.mk false ((shownArgs target members).map (Lowering.shown bindings))
          ((targetJoin target).source :: (members.mapIdx (memberJoin target stored)).map
            (Join.outer (targetJoin target).binds)) []))] := by
  have body := outerBody known registered marked
  obtain ⟨sc, lowered, sources, conditions, bound⟩ := body.lowerBody_ok
  refine ⟨sc.bindings, Lowering.columnNames described .base, bound, ?_⟩
  have columns : described.columns = target.columns ++ (addedPlaces target members).map Prod.fst :=
    same.columns
  have args : (shownArgs target members).length = described.columns.length := by
    simp [columns, shownArgs, targetArgs, Relation.arity]
  have relation : Lowering.relationOf ctx
      (.ofRelation (viewName target.name) (shownArgs target members)) = .ok described :=
    Lowering.relationOf_found found args
  have unmarked : described.labeledNulls = false := by rcases same with rfl | rfl <;> rfl
  have bindings : ∀ t ∈ shownArgs target members, ∃ x, name? t = some x ∧
      sc.bindings.contains x = true := by
    intro t inside
    rcases List.mem_append.mp inside with own | added
    · exact body.contains_arg bound List.mem_cons_self own
    · obtain ⟨⟨column, t⟩, place, rfl⟩ := List.mem_map.mp added
      obtain ⟨b, listed, arg⟩ := added_joined place
      obtain ⟨m, bound', rfl⟩ := List.mem_mapIdx.mp listed
      exact body.contains_arg bound
        (List.mem_cons_of_mem _ (List.mem_mapIdx.mpr ⟨m, bound', rfl⟩)) arg
  have projected : Lowering.project ctx described
      (.ofRelation (viewName target.name) (shownArgs target members)) sc.bindings =
        .ok ((shownArgs target members).map (Lowering.shown sc.bindings)) := by
    refine Lowering.project_shown unmarked ?_ (by rw [rule]; rfl) args bindings
    exact Bool.and_false _
  have viewed : Lowering.lowerView ctx
      (.ofRelation (viewName target.name) (shownArgs target members)) described =
        .ok (.createView (viewName target.name) (Lowering.columnNames described .base)
          (.ofSelect (.mk false ((shownArgs target members).map (Lowering.shown sc.bindings))
            ((targetJoin target).source :: (members.mapIdx (memberJoin target stored)).map
              (Join.outer (targetJoin target).binds)) []))) := by
    have name : described.name = viewName target.name := same.name
    have plain : ctx.rule.distinct = false := by rw [rule]; rfl
    unfold Lowering.lowerView
    rw [rule, body_joins, lowered, ← rule, plain, ← sources, ← conditions]
    simp only [bind, Except.bind, projected, name]
  have head : ctx.rule.head = [.ofRelation (viewName target.name) (shownArgs target members)] := by
    rw [rule]
    rfl
  have action : ctx.rule.action = .view := by
    rw [rule]
    rfl
  unfold Lowering.lowerRule
  rw [head, action]
  simp only [relation, viewed, bind, Except.bind]

end Lowered

section Values

variable {f : Term → Value} {own : Row} {rows : List Row}

theorem values_target (each : ∀ k b, target.columns[k]? = some b →
    f (targetVariable k) = (target.reading db t b).value.value) :
    (targetArgs target).map f = target.valuesAt db target.columns t := by
  refine List.ext_getElem (by simp [targetArgs, Relation.valuesAt, Relation.arity]) fun k _ inside => ?_
  have bound : k < target.columns.length := by simpa [Relation.valuesAt] using inside
  simp only [targetArgs, Relation.valuesAt, List.getElem_map, List.getElem_range]
  exact each k _ (List.getElem?_eq_getElem bound)

theorem values_member (each : ∀ i a, p.relation.columns[i]? = some a →
    joinedPosition? target p i = none →
      f (memberPlace target m p i a).1 = (p.relation.reading db own a).value.value) :
    ((memberPlaces target m p).filterMap Prod.snd).map (fun e => f e.2) =
      p.relation.valuesAt db (shownColumns target p) own := by
  rw [memberPlaces, List.mapIdx_eq_zipIdx_map, shownColumns, Relation.valuesAt]
  have each : ∀ place ∈ p.relation.columns.zipIdx, joinedPosition? target p place.2 = none →
      f (memberPlace target m p place.2 place.1).1 =
        (p.relation.reading db own place.1).value.value := fun place inside =>
    each place.2 place.1 (List.mem_zipIdx_iff_getElem?.mp inside)
  generalize p.relation.columns.zipIdx = places at each ⊢
  induction places with
  | nil => rfl
  | cons place rest ih =>
    obtain ⟨here, others⟩ := List.forall_mem_cons.mp each
    have later := ih others
    rw [List.map_cons, List.filterMap_cons, List.filter_cons]
    cases joined : joinedPosition? target p place.2 with
    | some k => simpa [memberPlace, joined] using later
    | none =>
      have value := here joined
      simp only [memberPlace, joined] at value
      simpa [memberPlace, joined, Relation.reading] using And.intro value later

theorem values_nulls {table : String} {name : String} :
    (cell db table ((db.columns table).map fun _ => .null) name).value = .null := by
  unfold cell
  induction db.columns table with
  | nil => rfl
  | cons first rest ih =>
    rw [List.map_cons, Sql.Item.cell?]
    split
    · rfl
    · exact ih

end Values

theorem forall₂_chosen {holds : ProvenanceRelation → Row → Prop}
    {shows : ProvenanceRelation → Row → Row} {parts : List Row} :
    List.Forall₂ (fun p part => ∃ own, holds p own ∧ part = shows p own) members parts ↔
      ∃ rows, List.Forall₂ holds members rows ∧ parts = List.zipWith shows members rows := by
  induction members generalizing parts with
  | nil =>
    simp only [List.forall₂_nil_left_iff, List.zipWith_nil_left]
    exact ⟨fun same => ⟨[], rfl, same⟩, fun ⟨_, _, same⟩ => same⟩
  | cons p rest ih =>
    simp only [List.forall₂_cons_left_iff, ih]
    constructor
    · rintro ⟨_, _, ⟨own, held, rfl⟩, ⟨rows, each, rfl⟩, rfl⟩
      exact ⟨own :: rows, ⟨own, rows, held, each, rfl⟩, rfl⟩
    · rintro ⟨_, ⟨own, rows, held, each, rfl⟩, rfl⟩
      exact ⟨_, _, ⟨own, held, rfl⟩, ⟨rows, each, rfl⟩, rfl⟩

section Shown

variable (known : ctx.catalog.relations.get? target.name = some target)
  (registered : ∀ p ∈ members, ctx.catalog.relations.get? p.name = some (stored p))
  (marked : ∀ p ∈ members, p.relation.IsMarked (stored p))
  (held : target.StoredIn .base db) (kept : ∀ p ∈ members, p.relation.StoredIn .base db)

include known registered marked held kept

theorem values_together {bindings : Lowering.Bindings} {rows : List Row}
    (bound : Lowering.Bound (targetJoin target).binds
      ((members.mapIdx (memberJoin target stored)).flatMap Join.places) bindings)
    (together : Lowering.OuterBody.Together db n (targetJoin target)
      (members.mapIdx (memberJoin target stored)) t rows) :
    ((shownArgs target members).map (Lowering.shown bindings)).map (fun e => (e.eval ⟨db, n⟩
      [Sql.Source.frameOf db ((targetJoin target).source ::
        (members.mapIdx (memberJoin target stored)).map (Join.outer (targetJoin target).binds))
        (t :: rows)]).value) =
      target.valuesAt db target.columns t ++ (List.zipWith (fun p own =>
        p.relation.valuesAt db (shownColumns target p) own) members rows).flatten := by
  have body := outerBody known registered marked
  have stored_ := stored_joins marked held kept
  have length : members.length = rows.length := by simpa using together.each.length_eq
  let f : Term → Value := fun u => ((Lowering.shown bindings u).eval ⟨db, n⟩
    [Sql.Source.frameOf db ((targetJoin target).source ::
      (members.mapIdx (memberJoin target stored)).map (Join.outer (targetJoin target).binds))
      (t :: rows)]).value
  have first : (targetArgs target).map f = target.valuesAt db target.columns t :=
    values_target fun k b found => body.value_first stored_ bound together _
      ((places_target known).mpr ⟨k, b, found, rfl⟩)
  have added : (addedPlaces target members).map (fun e => f e.2) = (List.zipWith (fun p own =>
      p.relation.valuesAt db (shownColumns target p) own) members rows).flatten := by
    rw [addedPlaces, List.filterMap_flatten, List.map_flatten]
    refine congrArg List.flatten (List.ext_getElem (by simp [length]) fun m here there => ?_)
    have bound' : m < members.length := by simpa using here
    simp only [List.getElem_map, List.getElem_mapIdx, List.getElem_zipWith]
    refine values_member fun i a found unjoined => ?_
    have member := List.getElem_mem bound'
    have chosen : (memberJoin target stored m members[m], rows[m]) ∈
        (members.mapIdx (memberJoin target stored)).zip rows := by
      refine List.mem_of_getElem? (i := m) (List.getElem?_zip_eq_some.mpr ⟨?_, ?_⟩)
      · simp [bound']
      · exact List.getElem?_eq_getElem (length ▸ bound')
    refine body.value_outer stored_ bound together chosen _
      ((places_member (registered _ member) (marked _ member)).mpr ⟨i, a, found, rfl⟩) ?_
    rw [name?_memberPlace, unjoined]
    intro listed
    obtain ⟨k, -, same⟩ := mem_names_targetArgs.mp listed
    exact memberName_ne same
  rw [List.map_map, shownArgs, List.map_append, List.map_map, ← first, ← added]
  rfl

theorem mem_rows_build {bindings : Lowering.Bindings} (columned : target.columns ≠ [])
    (bound : Lowering.Bound (targetJoin target).binds
      ((members.mapIdx (memberJoin target stored)).flatMap Join.places) bindings) :
    row ∈ (Sql.Query.ofSelect (.mk false ((shownArgs target members).map (Lowering.shown bindings))
        ((targetJoin target).source :: (members.mapIdx (memberJoin target stored)).map
          (Join.outer (targetJoin target).binds)) [])).rows ⟨db, n⟩ ↔
      ∃ t ∈ db.rows (target.tableName .base), ∃ parts, List.Forall₂ (fun p part => ∃ own,
        Extends db target t p own ∧ part = p.relation.valuesAt db (shownColumns target p) own)
          members parts ∧ row = target.valuesAt db target.columns t ++ parts.flatten := by
  have body := outerBody known registered marked
  have stored_ := stored_joins marked held kept
  have some : (shownArgs target members).map (Lowering.shown bindings) ≠ [] := by
    simp [shownArgs, targetArgs, Relation.arity, columned]
  rw [body.mem_rows stored_ some]
  constructor
  · rintro ⟨t, rows, together, rfl⟩
    rw [values_together known registered marked held kept bound together]
    obtain ⟨chosen, each⟩ := (together_iff known registered marked held kept).mp together
    exact ⟨t, chosen, _, forall₂_chosen.mpr ⟨rows, each, rfl⟩, rfl⟩
  · rintro ⟨t, chosen, parts, each, rfl⟩
    obtain ⟨rows, extended, rfl⟩ := forall₂_chosen.mp each
    have together :=
      (together_iff known registered marked held kept (n := n)).mpr ⟨chosen, extended⟩
    exact ⟨t, rows, together, (values_together known registered marked held kept bound together).symm⟩

end Shown

section Besides

variable {c : Compilation} {r : Relation} {q : Rule} {part : Row}

-- What stands beside a tuple for a member: the shown columns of a row, or nulls where there is none.
inductive Beside (db : Database) (target : Relation) (p : ProvenanceRelation) (reads : Row → Prop) :
    Row → Prop
  | recorded {own : Row} (read : reads own) :
    Beside db target p reads (p.relation.valuesAt db (shownColumns target p) own)
  | nulls (none : ∀ own, ¬ reads own) :
    Beside db target p reads ((shownColumns target p).map fun _ => .null)

-- Each tuple of a target, with what stands beside it for every member.
def Besides (db : Database) (target : Relation) (members : List ProvenanceRelation)
    (reads : ProvenanceRelation → Row → Row → Prop) (row : Row) : Prop :=
  ∃ t ∈ db.rows (target.tableName .base), ∃ parts,
    List.Forall₂ (fun p part => Beside db target p (reads p t) part) members parts ∧
      row = target.valuesAt db target.columns t ++ parts.flatten

theorem exists_beside (reads : Row → Prop) : ∃ part, Beside db target p reads part := by
  by_cases some : ∃ own, reads own
  · obtain ⟨own, read⟩ := some
    exact ⟨_, .recorded read⟩
  · exact ⟨_, .nulls (not_exists.mp some)⟩

theorem beside_iff {reads : Row → Prop} (same : ∀ own, JoinsWith db target t p own ↔ reads own) :
    (∃ own, Extends db target t p own ∧ part = p.relation.valuesAt db (shownColumns target p) own) ↔
      Beside db target p reads part := by
  have nulls : p.relation.valuesAt db (shownColumns target p)
      ((db.columns (p.relation.tableName .base)).map fun _ => .null) =
        (shownColumns target p).map fun _ => .null :=
    List.map_congr_left fun _ _ => values_nulls
  constructor
  · rintro ⟨own, joins | ⟨none, rfl⟩, rfl⟩
    · exact .recorded ((same own).mp joins)
    · rw [nulls]
      exact .nulls fun own read => none own ((same own).mpr read)
  · rintro (read | none)
    · exact ⟨_, .inl ((same _).mpr read), rfl⟩
    · exact ⟨_, .inr ⟨fun own joins => none own ((same own).mp joins), rfl⟩, nulls.symm⟩

-- A row is joined where the target rule reads the tuple back from it and the target keeps its labels.
theorem joinsWith_iff (known : c.catalog.relations.get? target.name = some target)
    (registered : c.catalog.relations.get? p.name = some r) (same : p.relation.IsMarked r)
    (keys : (p.columns.map ProvenanceColumn.key).Nodup)
    (made : p.targetRule c.catalog target.name = .ok q) :
    JoinsWith db target t p row ↔
      p.DerivesInto c db target.name row t ∧ p.KeepsLabels db target row := by
  have kept : p.KeepsLabels db target row ↔ ∀ d ∈ p.columns, ∀ b ∈ target.columns,
      d.key = .target target.name b.name → (target.reading db t b).marker = none →
        (p.relation.reading db row d.column).marker.isSome = true →
          Holds .is (p.relation.reading db row d.column).mark
            (Meaning.mark ⟨(p.relation.reading db row d.column).value, none⟩) := by
    refine forall₂_congr fun d _ => forall₂_congr fun b _ => forall_congr' fun _ => ?_
    simp only [Relation.reading, Option.map_eq_none_iff, Option.isSome_map]
    refine imp_congr_right fun _ => ?_
    cases marker : p.relation.markerOf? d.column with
    | none => exact ⟨nofun, nofun⟩
    | some name =>
      refine ⟨fun all _ => all name rfl, fun held other same => ?_⟩
      cases same
      exact held rfl
  rw [ProvenanceRelation.derivesInto_iff known registered same keys made, kept]
  constructor
  · rintro ⟨stored, alike⟩
    have each := fun d column b listed key =>
      Lowering.alike_iff_kept.mp (alike d column b listed key)
    exact ⟨⟨stored, fun d column b listed key => (each d column b listed key).1⟩,
      fun d column b listed key => (each d column b listed key).2⟩
  · rintro ⟨⟨stored, read⟩, kept⟩
    exact ⟨stored, fun d column b listed key => Lowering.alike_iff_kept.mpr
      ⟨read d column b listed key, kept d column b listed key⟩⟩

end Besides

end Rows

end OuterJoinView

theorem Rule.lower_of_lowerRule {catalog : Catalog} {config : Config} {iteration : Iteration} {r : Rule}
    {statements : List Sql.Statement}
    (lowered : Lowering.lowerRule ⟨catalog, config, r, iteration⟩ = .ok statements) :
    r.lower catalog config iteration = .ok statements := by
  rw [Rule.lower, lowered]

namespace OuterJoinView

variable {c : Compilation} {v : OuterJoinView} {target : Relation} {members : List ProvenanceRelation}
  {p : ProvenanceRelation}

-- A view of a target beside the members that lead into it, as the compiled catalog has them.
structure IsCompiled (c : Compilation) (v : OuterJoinView) (target : Relation)
    (members : List ProvenanceRelation) : Prop where
  into : v.target = target.name
  name : v.name = viewName target.name
  rule : v.rule = (build target members).1.rule
  known : c.catalog.relations.get? target.name = some target
  columned : target.columns ≠ []
  described : ∃ r, c.catalog.relations.get? (viewName target.name) = some r ∧
    (build target members).2.IsMarked r
  registered : ∀ p ∈ members, ∃ r, c.catalog.relations.get? p.name = some r ∧ p.relation.IsMarked r
  keys : ∀ p ∈ members, (p.columns.map ProvenanceColumn.key).Nodup
  read : ∀ p ∈ members, ∃ q, p.targetRule c.catalog target.name = .ok q

theorem IsCompiled.derivesInto_iff {db : Database} {row t : Row}
    (compiled : IsCompiled c v target members) (inside : p ∈ members) :
    p.DerivesInto c db v.target row t ↔ row ∈ db.rows (p.relation.tableName .base) ∧
      ∀ d ∈ p.columns, ∀ b ∈ target.columns, d.key = .target target.name b.name →
        ((target.reading db t b).marker.isSome = true → Holds .is (target.reading db t b).mark
            (p.relation.reading db row d.column).mark) ∧
          Holds .is (target.reading db t b).value (p.relation.reading db row d.column).value := by
  obtain ⟨r, registered, same⟩ := compiled.registered p inside
  obtain ⟨q, made⟩ := compiled.read p inside
  rw [compiled.into]
  exact ProvenanceRelation.derivesInto_iff compiled.known registered same
    (compiled.keys p inside) made

theorem IsCompiled.rows (compiled : IsCompiled c v target members) : ∃ names query,
    c.lower .prepared v.rule = .ok [.createView v.name names query] ∧
      ∀ db n, target.StoredIn .base db → (∀ p ∈ members, p.relation.StoredIn .base db) →
        ∀ row, row ∈ query.rows ⟨db, n⟩ ↔ Besides db target members (fun p t own =>
          p.DerivesInto c db v.target own t ∧ p.KeepsLabels db target own) row := by
  let stored (p : ProvenanceRelation) : Relation :=
    (c.catalog.relations.get? p.name).getD p.relation
  have registered : ∀ p ∈ members,
      c.catalog.relations.get? p.name = some (stored p) ∧ p.relation.IsMarked (stored p) := by
    intro p inside
    obtain ⟨r, found, marked⟩ := compiled.registered p inside
    have same : stored p = r := by simp only [stored, found, Option.getD_some]
    exact same ▸ ⟨found, marked⟩
  have found := fun p inside => (registered p inside).1
  have marked := fun p inside => (registered p inside).2
  obtain ⟨described, shown, viewed⟩ := compiled.described
  let ctx : Lowering.Context := ⟨c.catalog, c.config, v.rule, .prepared⟩
  have known : ctx.catalog.relations.get? target.name = some target := compiled.known
  have rule : ctx.rule = (OuterJoinView.build target members).1.rule := compiled.rule
  obtain ⟨bindings, names, bound, lowered⟩ := lower_build known found marked rule shown viewed
  have ran := Rule.lower_of_lowerRule lowered
  rw [← compiled.name] at ran
  refine ⟨names, _, ran, fun db n held kept row => ?_⟩
  rw [mem_rows_build known found marked held kept compiled.columned bound, compiled.into]
  refine exists_congr fun t => and_congr_right fun _ => exists_congr fun parts => and_congr_left' ?_
  refine forall₂_congr_mem fun p inside part => beside_iff fun own => ?_
  obtain ⟨q, made⟩ := compiled.read p inside
  exact joinsWith_iff known (found p inside) (marked p inside) (compiled.keys p inside) made

theorem besides_target {db : Database} {reads : ProvenanceRelation → Row → Row → Prop} {values : Row} :
    (∃ row, Besides db target members reads row ∧ row.take target.arity = values) ↔
      ∃ t ∈ db.rows (target.tableName .base), values = target.valuesAt db target.columns t := by
  have taken (t parts : Row) :
      (target.valuesAt db target.columns t ++ parts).take target.arity =
        target.valuesAt db target.columns t :=
    List.take_left' (List.length_map _)
  constructor
  · rintro ⟨_, ⟨t, stored, parts, -, rfl⟩, rfl⟩
    exact ⟨t, stored, taken t parts.flatten⟩
  · rintro ⟨t, stored, rfl⟩
    have some (p : ProvenanceRelation) : ∃ part, Beside db target p (reads p t) part :=
      exists_beside (reads p t)
    choose part beside using some
    have each : List.Forall₂ (fun p part => Beside db target p (reads p t) part) members
        (members.map part) := by
      rw [List.forall₂_map_right_iff, List.forall₂_same]
      exact fun p _ => beside p
    exact ⟨_, ⟨t, stored, _, each, rfl⟩, taken t _⟩

end OuterJoinView

namespace Compilation

variable {text : String} {program : Program} {config : Config} {c : Compilation} {x : Exchange}
  {v : OuterJoinView}

-- The provenance relations that lead into a relation.
def membersOf (x : Exchange) (target : String) : List ProvenanceRelation :=
  x.provenance.filter (·.targets.contains target)

theorem isCompiled_view (parsed : Program.parse text = .ok program)
    (reached : Reached program.catalog config c) (exchange : c.exchange = some x)
    (listed : v ∈ x.views) : ∃ target, v.IsCompiled c target (membersOf x v.target) := by
  have own := Program.parse_declared parsed
  have formed := reached.formed
  obtain ⟨b, made, rfl, marks⟩ := formed.exchange x exchange
  have tracks := Build.tracks_ofCatalog own made
  obtain ⟨rules, -, woven⟩ := Build.woven_ofCatalog own formed.valid made
  obtain ⟨plain, declared, -, built, described⟩ := (woven.shown v listed).parts
  obtain ⟨target, known, same⟩ := marks.after (tracks.kept _ _ declared)
  have same : plain.IsMarked target := same
  have into : v.target = target.name :=
    same.name ▸ (congrArg (fun built => OuterJoinView.target built.1) built).symm
  have again (members : List ProvenanceRelation) :
      OuterJoinView.build plain members = OuterJoinView.build target members := by
    rcases same with rfl | rfl <;> rfl
  rw [again, ← same.name, ← into] at built described
  rw [← same.name] at declared known
  have member {p : ProvenanceRelation} (inside : p ∈ membersOf b.exchange v.target) :
      p ∈ b.exchange.provenance ∧ v.target ∈ p.targets := by
    obtain ⟨listed, into⟩ := List.mem_filter.mp inside
    exact ⟨listed, List.contains_iff_mem.mp into⟩
  refine ⟨target, into, ?_, ?_, known, ?_, ?_, fun p inside => ?_, fun p inside => ?_,
    fun p inside => ?_⟩
  · exact (congrArg (fun built => OuterJoinView.name built.1) built).symm
  · exact (congrArg (fun built => OuterJoinView.rule built.1) built).symm
  · rw [same.columns]
    exact (own.relations _ _ declared).2.2
  · have name : v.name = OuterJoinView.viewName target.name :=
      (congrArg (fun built => OuterJoinView.name built.1) built).symm
    rw [name] at described
    exact marks.after described
  · exact marks.after (tracks.recorded p (member inside).1)
  · obtain ⟨_, _, _, -, -, -, columns, none, added⟩ := (woven.filled p (member inside).1).parts
    obtain ⟨rows, recorded, -⟩ := ProvenanceRelation.recorded_addRules columns none added
    exact recorded.columns.keys
  · obtain ⟨listed, targets⟩ := member inside
    obtain ⟨-, q, made⟩ := (woven.read p listed).back v.target targets
    rw [into] at made
    exact ⟨q, ProvenanceRelation.targetRule_marked made (tracks.kept _ _ declared) known same⟩

-- A view shows each tuple of its target, and beside it the rows of each member that the target rule
-- reads the tuple back from, but for those with labels that the target does not keep.
theorem outer_join_rows (parsed : Program.parse text = .ok program)
    (reached : Reached program.catalog config c) (exchange : c.exchange = some x)
    (listed : v ∈ x.views) : ∃ target names query,
      c.catalog.relations.get? v.target = some target ∧
      c.lower .prepared v.rule = .ok [.createView v.name names query] ∧
      ∀ db n, target.StoredIn .base db →
        (∀ p ∈ membersOf x v.target, p.relation.StoredIn .base db) →
          (∀ row, row ∈ query.rows ⟨db, n⟩ ↔ OuterJoinView.Besides db target (membersOf x v.target)
            (fun p t own => p.DerivesInto c db v.target own t ∧ p.KeepsLabels db target own) row) ∧
          ∀ values, (∃ row ∈ query.rows ⟨db, n⟩, row.take target.arity = values) ↔
            ∃ t ∈ db.rows (target.tableName .base), values = target.valuesAt db target.columns t := by
  obtain ⟨target, compiled⟩ := isCompiled_view parsed reached exchange listed
  obtain ⟨names, query, lowered, rows⟩ := compiled.rows
  refine ⟨target, names, query, compiled.into ▸ compiled.known, lowered, fun db n held kept => ?_⟩
  refine ⟨rows db n held kept, fun values => ?_⟩
  simp only [rows db n held kept]
  exact OuterJoinView.besides_target

section Labeled

-- A target that keeps no companion for a column that has one in the provenance relation.
def labeledText : String :=
  "peer A \x7b relation R(b: text null) with nulls; \x7d peer B \x7b relation T(b: text null); \x7d " ++
    "mapping m: T(x) :- R(x)."

def labeledRelation (name peer : String) (labeledNulls : Bool) : Relation :=
  { name, peer := some peer, columns := [⟨"b", .text, true⟩], labeledNulls }

def labeledTarget : Relation := labeledRelation "T" "B" false

def labeledCatalog : Catalog where
  peers := [⟨"A", ["R"]⟩, ⟨"B", ["T"]⟩]
  relations := (NameMap.empty.insert "R" (labeledRelation "R" "A" true)).insert "T" labeledTarget
  mappings := [.ofHeads "m" [.ofRelation "T" [.var "x"]] [.ofRelation "R" [.var "x"]]]

def labeledRecord : Relation where
  name := "P_m"
  peer := some "B"
  role := .provenance
  columns := [⟨"T_b", .text, true⟩, ⟨"TRUST_A", .integer, true⟩]
  key := [0]
  labeledNulls := true

def labeledDatabase : Database where
  tables := (Sql.Names.empty.insert "T"
    ⟨[("b", some .text)], [[.text "n1"], [.text "v"]]⟩).insert "P_m"
      ⟨[("T_b", some .text), ("T_b_LN", some .integer), ("TRUST_A", some .integer),
          ("TRUST_A_LN", some .integer)],
        [[.text "n1", .integer 2, .integer 1, .integer 1],
          [.text "v", .integer 1, .integer 1, .integer 1]]⟩

-- The members of the view with their data columns and what is shown of them, its target, and its
-- rows.
def labeledParts : Option (List (Relation × List (ColumnKey × Column) × List Column) ×
    Option Relation × List Row) :=
  (compile? { provenance := .outerJoin } labeledCatalog).bind fun compiled =>
    compiled.exchange.bind fun x => x.views.head?.bind fun v =>
      match compiled.lower .prepared v.rule with
      | .ok [.createView _ _ query] =>
        some ((membersOf x v.target).map fun p => (p.relation, p.columns.map fun d => (d.key, d.column),
            OuterJoinView.shownColumns labeledTarget p),
          compiled.catalog.relations.get? v.target, query.rows ⟨labeledDatabase, 0⟩)
      | _ => none

set_option synthInstance.maxSize 512 in
theorem labeledParts_eq : labeledParts = some
    ([(labeledRecord, [(.target "T" "b", ⟨"T_b", .text, true⟩)], [⟨"TRUST_A", .integer, true⟩])],
      some labeledTarget, [[.text "n1", .null], [.text "v", .integer 1]]) := by
  decide +kernel

structure Labeled (compiled : Compilation) (x : Exchange) (v : OuterJoinView)
    (p : ProvenanceRelation) : Prop where
  reached : ∃ program, Program.parse labeledText = .ok program ∧
    Reached program.catalog { provenance := .outerJoin } compiled
  exchange : compiled.exchange = some x
  listed : v ∈ x.views
  target : compiled.catalog.relations.get? v.target = some labeledTarget
  members : membersOf x v.target = [p]
  record : p.relation = labeledRecord
  columns : p.columns.map (fun d => (d.key, d.column)) = [(.target "T" "b", ⟨"T_b", .text, true⟩)]
  shown : OuterJoinView.shownColumns labeledTarget p = [⟨"TRUST_A", .integer, true⟩]
  rows : ∀ name names query, compiled.lower .prepared v.rule = .ok [.createView name names query] →
    query.rows ⟨labeledDatabase, 0⟩ = [[.text "n1", .null], [.text "v", .integer 1]]

theorem labeled : ∃ compiled x v p, Labeled compiled x v p := by
  obtain ⟨compiled, found, parts⟩ := Option.bind_eq_some_iff.mp labeledParts_eq
  obtain ⟨x, exchange, parts⟩ := Option.bind_eq_some_iff.mp parts
  obtain ⟨v, first, parts⟩ := Option.bind_eq_some_iff.mp parts
  obtain ⟨c, created, made⟩ := compile?_parts found
  obtain ⟨program, parsed, catalog⟩ :=
    Program.parsesTo_parts (show Program.parsesTo labeledText labeledCatalog = true by decide +kernel)
  rw [← catalog] at created
  split at parts
  · rename_i name names query lowered
    obtain ⟨listed, rest⟩ := Prod.mk.inj (Option.some.inj parts)
    obtain ⟨target, rows⟩ := Prod.mk.inj rest
    obtain ⟨p, member, same⟩ := List.map_eq_singleton_iff.mp listed
    obtain ⟨record, rest⟩ := Prod.mk.inj same
    obtain ⟨columns, shown⟩ := Prod.mk.inj rest
    refine ⟨compiled, x, v, p, ⟨program, parsed, (Reached.created created).exchanged made⟩, exchange,
      List.mem_of_mem_head? first, target, member, record, columns, shown, ?_⟩
    intro other others query' lowered'
    cases lowered.symm.trans lowered'
    exact rows
  · cases parts

theorem labeled_stored : labeledTarget.StoredIn .base labeledDatabase ∧
    labeledRecord.StoredIn .base labeledDatabase := by decide +kernel

theorem Labeled.derivesInto_iff {compiled : Compilation} {x : Exchange} {v : OuterJoinView}
    {p : ProvenanceRelation} (labeled : Labeled compiled x v p) {row t : Row} :
    p.DerivesInto compiled labeledDatabase v.target row t ↔
      row ∈ labeledDatabase.rows "P_m" ∧
        Holds .is (cell labeledDatabase "T" t "b") (cell labeledDatabase "P_m" row "T_b") := by
  obtain ⟨program, parsed, reached⟩ := labeled.reached
  obtain ⟨target, view⟩ := isCompiled_view parsed reached labeled.exchange labeled.listed
  obtain rfl : target = labeledTarget := by
    have known := view.known
    rw [← view.into, labeled.target] at known
    exact (Option.some.inj known).symm
  obtain ⟨d, columns, same⟩ := List.map_eq_singleton_iff.mp labeled.columns
  obtain ⟨key, column⟩ := Prod.mk.inj same
  have inside : p ∈ membersOf x v.target := labeled.members ▸ List.mem_singleton_self p
  rw [view.derivesInto_iff inside, labeled.record, columns]
  refine and_congr_right fun _ => ⟨fun all => ?_, fun held e only b listed _ => ?_⟩
  · have here := (all d List.mem_cons_self ⟨"b", .text, true⟩ List.mem_cons_self key).2
    rw [column] at here
    exact here
  · obtain rfl := List.mem_singleton.mp only
    obtain rfl := List.mem_singleton.mp listed
    rw [column]
    exact ⟨nofun, held⟩

theorem Labeled.reads {compiled : Compilation} {x : Exchange} {v : OuterJoinView}
    {p : ProvenanceRelation} (labeled : Labeled compiled x v p) :
    p.DerivesInto compiled labeledDatabase v.target
        [.text "n1", .integer 2, .integer 1, .integer 1] [.text "n1"] ∧
      p.DerivesInto compiled labeledDatabase v.target
        [.text "v", .integer 1, .integer 1, .integer 1] [.text "v"] := by
  rw [labeled.derivesInto_iff, labeled.derivesInto_iff]
  exact ⟨⟨by decide, RowSemantics.holds_is_self _⟩, ⟨by decide, RowSemantics.holds_is_self _⟩⟩

-- The view over the labeled tables has what the theorem says.
theorem outer_join_rows_labeled : ∃ program compiled x v target names query,
    Program.parse labeledText = .ok program ∧
    Reached program.catalog { provenance := .outerJoin } compiled ∧ compiled.exchange = some x ∧
    v ∈ x.views ∧ compiled.lower .prepared v.rule = .ok [.createView v.name names query] ∧
    ∀ row, row ∈ query.rows ⟨labeledDatabase, 0⟩ ↔
      OuterJoinView.Besides labeledDatabase target (membersOf x v.target) (fun p t own =>
        p.DerivesInto compiled labeledDatabase v.target own t ∧
          p.KeepsLabels labeledDatabase target own) row := by
  obtain ⟨compiled, x, v, p, labeled⟩ := labeled
  obtain ⟨program, parsed, reached⟩ := labeled.reached
  obtain ⟨target, names, query, known, lowered, rows⟩ :=
    outer_join_rows parsed reached labeled.exchange labeled.listed
  obtain rfl : labeledTarget = target := Option.some.inj (labeled.target.symm.trans known)
  refine ⟨program, compiled, x, v, _, names, query, parsed, reached, labeled.exchange, labeled.listed,
    lowered, (rows labeledDatabase 0 labeled_stored.1 ?_).1⟩
  rw [labeled.members]
  exact List.forall_mem_singleton.mpr (labeled.record ▸ labeled_stored.2)

-- A tuple is read back from the row of a labeled null, but that row is not shown beside it.
theorem label_unshown : ∃ program compiled x v target names query,
    Program.parse labeledText = .ok program ∧
    Reached program.catalog { provenance := .outerJoin } compiled ∧ compiled.exchange = some x ∧
    v ∈ x.views ∧ compiled.catalog.relations.get? v.target = some target ∧
    compiled.lower .prepared v.rule = .ok [.createView v.name names query] ∧
    (∀ p ∈ membersOf x v.target, ∀ own ∈ labeledDatabase.rows (p.relation.tableName .base),
      ∃ t ∈ labeledDatabase.rows (target.tableName .base),
        p.DerivesInto compiled labeledDatabase v.target own t) ∧
    ¬ ∀ row, row ∈ query.rows ⟨labeledDatabase, 0⟩ ↔
      OuterJoinView.Besides labeledDatabase target (membersOf x v.target) (fun p t own =>
        p.DerivesInto compiled labeledDatabase v.target own t) row := by
  obtain ⟨compiled, x, v, p, labeled⟩ := labeled
  obtain ⟨program, parsed, reached⟩ := labeled.reached
  obtain ⟨target, view⟩ := isCompiled_view parsed reached labeled.exchange labeled.listed
  obtain ⟨names, query, lowered, -⟩ := view.rows
  have held := labeled.rows _ _ _ lowered
  refine ⟨program, compiled, x, v, labeledTarget, names, query, parsed, reached, labeled.exchange,
    labeled.listed, labeled.target, lowered, ?_, fun exactly => ?_⟩
  · rw [labeled.members]
    refine List.forall_mem_singleton.mpr fun own stored => ?_
    rw [labeled.record] at stored
    rcases List.mem_cons.mp stored with rfl | stored
    · exact ⟨_, by decide, labeled.reads.1⟩
    · rw [List.mem_singleton.mp stored]
      exact ⟨_, by decide, labeled.reads.2⟩
  · have part : p.relation.valuesAt labeledDatabase (OuterJoinView.shownColumns labeledTarget p)
        [.text "n1", .integer 2, .integer 1, .integer 1] = [.integer 1] := by
      rw [labeled.record, labeled.shown]
      decide
    have shown : [Value.text "n1", .integer 1] ∈ query.rows ⟨labeledDatabase, 0⟩ := by
      refine (exactly _).mpr ⟨[.text "n1"], by decide, [[.integer 1]], ?_, rfl⟩
      rw [labeled.members]
      exact .cons (part ▸ .recorded labeled.reads.1) .nil
    rw [held] at shown
    exact absurd shown (by decide)

end Labeled

end Compilation

end PeerExchange
