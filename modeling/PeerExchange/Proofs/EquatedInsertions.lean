import PeerExchange.Proofs.EquatedJoins
import PeerExchange.Proofs.HeldRows

namespace PeerExchange

open RowSemantics (Comparable Env Exact Fits Fitted Match Meaning Replaced SameMark Sound Spared Stands
  equation)
open Sql (Database Row Statement Value)

-- Columns without fractions, and with numbers in their companions.
structure Relation.Marked (r : Relation) (kind : TableKind) (db : Database) : Prop where
  exact : ∀ row ∈ db.rows (r.tableName kind), ∀ c ∈ r.columns,
    Exact (RowSemantics.cell db (r.tableName kind) row c.name).value
  shown : ∀ row ∈ db.rows (r.tableName kind), ∀ c ∈ r.columns, ∀ marker,
    r.markerOf? c = some marker →
      ∃ n, (RowSemantics.cell db (r.tableName kind) row marker).value = .integer n

namespace RowSemantics

variable {ctx : Lowering.Context} {db : Database} {x : String} {e : Term} {type : ColumnType}
  {r : Relation} {a : Atom} {row : Row} {env env' : Env}

section Stored

variable (known : ctx.catalog.relations.get? a.relationName = some r) (stored : r.StoredIn a.kind db)
  (marked : r.Marked a.kind db)
include known stored marked

theorem fitted_of_stored
    (typed : ∀ place ∈ a.args.zip r.columns, Stands x e place.1 → place.2.type = type)
    (inside : row ∈ db.rows (tableOf ctx.catalog a)) :
    ∀ p ∈ places ctx.catalog db a row, Fitted type x e p := by
  rw [Lowering.tableOf_known known] at inside
  rw [places, known]
  rw [List.forall_mem_map]
  rintro ⟨t, c⟩ listed
  have isColumn := (List.of_mem_zip listed).2
  obtain ⟨own, companion⟩ := @Relation.mem_physicalColumns r a.kind c isColumn
  obtain ⟨v, read, kept⟩ := stored.cell_fits inside own
  have fits : Fits c.type (cell db (r.tableName a.kind) row c.name) := by
    rw [read]
    exact ⟨.inl rfl, kept⟩
  have counts : ∀ marker, r.markerOf? c = some marker →
      Fits .integer (cell db (r.tableName a.kind) row marker) := by
    intro marker present
    obtain ⟨n, read, kept⟩ := stored.cell_fits inside (companion marker present)
    rw [read]
    exact ⟨.inl rfl, kept⟩
  have mark : Fits .integer (Meaning.mark ⟨cell db (r.tableName a.kind) row c.name,
      (r.markerOf? c).map (cell db (r.tableName a.kind) row)⟩) ∧
      ∃ n, (Meaning.mark ⟨cell db (r.tableName a.kind) row c.name,
        (r.markerOf? c).map (cell db (r.tableName a.kind) row)⟩).value = .integer n := by
    cases present : r.markerOf? c with
    | none => exact ⟨fits_unmarked rfl, _, by rw [mark_unmarked rfl]⟩
    | some marker => exact ⟨counts marker present, marked.shown row inside c isColumn marker present⟩
  refine ⟨mark.1, fun stands => ?_, fun stands => ⟨mark.1, mark.2, ?_, marked.exact row inside c isColumn⟩⟩
  · rw [← typed (t, c) listed stands]
    exact congrArg Sql.Typed.type read
  · rw [← typed (t, c) listed stands]
    exact fits

end Stored

section Written

variable {head : Atom} {base : List Atom} {parameter : Int} {i : Nat} {columns : List (Term × Column)}

theorem written_congr {rule : Rule} {inKey hasMarker : Bool} {m m' : Meaning}
    (value : m'.value.value = m.value.value) (mark : m'.mark.value = m.mark.value) :
    written rule inKey hasMarker m' = written rule inKey hasMarker m := by
  simp only [written, value, mark]

theorem writtenColumns_replaced (replaced : Replaced type x e env env') :
    writtenColumns (ctx.joining base x e) r env' i
        (columns.map fun place => (place.1.substitute (.single x e), place.2)) =
      writtenColumns ctx r env i columns := by
  induction columns generalizing i with
  | nil => rfl
  | cons place rest ih =>
    obtain ⟨t, c⟩ := place
    obtain ⟨own, other⟩ := @denote_replaced ctx env env' x e type base replaced t
    rw [List.map_cons, writtenColumns, writtenColumns, ih]
    refine congrArg (· ++ _) ?_
    by_cases names : t.Names x
    · obtain ⟨m, m', here, there, like⟩ := own names
      rw [here, there]
      exact written_congr like.value like.mark
    · rcases rel_cases (other names) with ⟨here, there⟩ | ⟨m, m', here, there, like⟩
      · rw [here, there]
        rfl
      · rw [here, there]
        exact written_congr like.value like.mark

theorem writtenRow_replaced (replaced : Replaced type x e env env') :
    writtenRow (ctx.joining base x e) parameter r (head.substitute (.single x e)) env' =
      writtenRow ctx parameter r head env := by
  have args : (head.substitute (.single x e)).args.zip r.columns =
      (head.args.zip r.columns).map fun place => (place.1.substitute (.single x e), place.2) := by
    rw [Atom.substitute, Atom.mapArgs, List.zip_map_left]
    rfl
  rw [writtenRow, writtenRow, args, writtenColumns_replaced replaced]
  rfl

end Written

end RowSemantics

namespace Lowering

variable {ctx : Context} {db : Database} {r : Relation} {head : Atom} {x : String} {e : Term}
  {body before after : List Atom} {guard : Option Guard} {sc : Scope} {joins : List Join}

section Bodies

theorem negatedConditions_related {bindings : Bindings} {aliases : Nat} {atoms : List Atom}
    {given : List Sql.Expr × Nat} (ran : negatedConditions ctx bindings aliases atoms = .ok given) :
    ∀ a ∈ atoms, a.builtin? = none := by
  induction atoms generalizing aliases given with
  | nil => exact List.forall_mem_nil _
  | cons a rest ih =>
    rw [negatedConditions] at ran
    split at ran
    · cases ran
    · rename_i relational
      obtain ⟨query, -, ran⟩ := Compiled.bind_ok.mp ran
      obtain ⟨others, later, -⟩ := Compiled.bind_ok.mp ran
      exact List.forall_mem_cons.mpr ⟨relational, ih later⟩

theorem related_of_lowered (ran : lowerBody ctx guard body = .ok sc) :
    ∀ a ∈ body, a.negated = true → a.builtin? = none := by
  obtain ⟨_, -, ran⟩ := Compiled.bind_ok.mp ran
  obtain ⟨_, -, ran⟩ := Compiled.bind_ok.mp ran
  obtain ⟨_, -, ran⟩ := Compiled.bind_ok.mp ran
  obtain ⟨_, negations, -⟩ := Compiled.bind_ok.mp ran
  exact fun a inside negative =>
    negatedConditions_related negations a (List.mem_filter.mpr ⟨inside, negative⟩)

theorem Lowered.relation_of (lowered : Lowered ctx db guard body sc joins) {a : Atom}
    (inside : a ∈ body) (positive : a.isPositive = true) : ∃ r, relationOf ctx a = .ok r := by
  have listed : a ∈ (RowSemantics.positives 0 body).map Prod.snd := by
    rw [RowSemantics.positives_atoms]
    exact List.mem_filter.mpr ⟨inside, positive⟩
  rw [← lowered.positives, List.map_map] at listed
  obtain ⟨j, member, rfl⟩ := List.mem_map.mp listed
  exact ⟨j.relation, lowered.joinable.relations j member⟩

-- The negated head does its work at the same place of both bodies, except where the equality hides it
-- from the end of the one or the term makes it of another atom in the other.
theorem insertionBody_equation (sets : Bool)
    (alike : ∀ a ∈ before ++ after, (a.substitute (.single x e)).same (head.substitute (.single x e)).negate =
      a.same head.negate)
    (last : after = [] → ∀ a ∈ before.getLast?, a.same head.negate = false) :
    ∃ rest withExcept, (∀ a ∈ rest, a ∈ after ∨ a = head.negate) ∧
      (∀ a ∈ after, a.isPositive = true → a ∈ rest) ∧
      insertionBody sets r head (before ++ equation x e :: after) =
        (before ++ equation x e :: rest, withExcept) ∧
      insertionBody sets r (head.substitute (.single x e))
          ((before ++ after).map (Atom.substitute (.single x e))) =
        ((before ++ rest).map (Atom.substitute (.single x e)), withExcept) := by
  have other : (equation x e).same head.negate = false := by
    simp [Atom.same, equation, Atom.ofBuiltin, Atom.negate]
  have self (a : Atom) : a.same a = true := by simp [Atom.same, Term.sameList]
  have any : ((before ++ after).map (Atom.substitute (.single x e))).any
      (·.same (head.substitute (.single x e)).negate) =
        (before ++ equation x e :: after).any (·.same head.negate) := by
    rw [List.any_map, List.any_append, List.any_append, List.any_cons, other, Bool.false_or, ← List.any_append,
      ← List.any_append, Bool.eq_iff_iff, List.any_eq_true, List.any_eq_true]
    exact exists_congr fun a => and_congr_right fun inside => by rw [Function.comp_apply, alike a inside]
  have image (rest : List Atom) : (before ++ rest).map (Atom.substitute (.single x e)) ++
      [(head.substitute (.single x e)).negate] =
        (before ++ (rest ++ [head.negate])).map (Atom.substitute (.single x e)) := by
    simp only [List.map_append, List.append_assoc]
    rfl
  have stratum : r.hasStratum (head.substitute (.single x e)).kind = r.hasStratum head.kind := rfl
  unfold insertionBody
  dsimp only
  rw [any]
  split
  · rw [List.getLast?_concat, List.getLast?_concat, Option.any_some, Option.any_some, self, self,
      List.dropLast_concat, List.dropLast_concat]
    rw [stratum]
    split
    · exact ⟨after, true, fun _ => .inl, fun _ inside _ => inside, rfl, rfl⟩
    · refine ⟨after ++ [head.negate], false, fun a inside => ?_, fun a inside _ => ?_, ?_,
        congrArg (·, false) (image after)⟩
      · exact (List.mem_append.mp inside).imp id List.mem_singleton.mp
      · exact List.mem_append_left _ inside
      · rw [List.append_assoc, List.cons_append]
  · rcases List.eq_nil_or_concat after with rfl | ⟨init, z, rfl⟩
    · have ends : ((before ++ []).map (Atom.substitute (.single x e))).getLast?.any
          (Atom.same · (head.substitute (.single x e)).negate) = false := by
        rw [List.getLast?_map, Option.any_map, List.append_nil]
        cases found : before.getLast? with
        | none => rfl
        | some a =>
          have inside : a ∈ before ++ [] := List.mem_append_left _ (List.mem_of_getLast? found)
          rw [Option.any_some, alike a inside, last rfl a found]
      rw [ends, List.getLast?_concat, Option.any_some, other]
      exact ⟨[], false, fun _ => .inl, fun _ inside _ => inside, rfl, rfl⟩
    · have own : before ++ equation x e :: (init.concat z) = (before ++ equation x e :: init) ++ [z] := by
        rw [List.concat_eq_append, List.append_assoc, List.cons_append]
      have image : (before ++ init.concat z).map (Atom.substitute (.single x e)) =
          (before ++ init).map (Atom.substitute (.single x e)) ++ [z.substitute (.single x e)] := by
        rw [List.concat_eq_append, ← List.append_assoc, List.map_append, List.map_singleton]
      rw [own, image, List.getLast?_concat, List.getLast?_concat, Option.any_some, Option.any_some,
        alike z (by simp), List.dropLast_concat, List.dropLast_concat, stratum]
      split
      · rename_i ends
        have negative : z.negated = true := by
          simp only [Atom.same, Bool.and_eq_true, decide_eq_true_eq] at ends
          exact ends.1.1.2
        refine ⟨init, true, fun a inside => .inl (by simp [inside]), fun a inside positive => ?_, rfl, rfl⟩
        rw [List.concat_eq_append] at inside
        refine (List.mem_append.mp inside).resolve_right fun same => ?_
        rw [List.mem_singleton.mp same, Atom.isPositive, negative] at positive
        cases positive
      · exact ⟨init.concat z, false, fun _ => .inl, fun _ inside _ => inside, by rw [own], by rw [image]⟩

end Bodies

-- A rule that adds tuples, with an equality of a variable and another term of its type, of which the
-- joined atoms have the variables.
structure Equates (ctx : Context) (head : Atom) (before after : List Atom) (type : ColumnType)
    (x : String) (e : Term) : Prop where
  derives : ctx.rule.action = .derive
  heads : ctx.rule.head = [head]
  unguarded : ctx.rule.guard = none
  body : ctx.rule.body = before ++ equation x e :: after
  inner : ∀ a ∈ head :: ctx.rule.body, a.optional = false
  comparable : Comparable type x e
  joined : ∀ v ∈ (equation x e).vars, ∃ a ∈ before ++ after, a.isPositive = true ∧
    ∃ t ∈ a.args, RowSemantics.name? t = some v.name
  typed : ∀ a ∈ head :: (before ++ after), a.builtin? = none → ∀ r,
    ctx.catalog.relations.get? a.relationName = some r →
      ∀ place ∈ a.args.zip r.columns, Stands x e place.1 → place.2.type = type
  spared : ∀ a ∈ before ++ after, a.builtin?.isSome = true → Spared x e a.args
  alike : ∀ a ∈ before ++ after, (a.substitute (.single x e)).same (head.substitute (.single x e)).negate =
    a.same head.negate
  last : after = [] → ∀ a ∈ before.getLast?, a.same head.negate = false

section Insertions

variable {type : ColumnType} {parameter : Int} {rest : List Atom} {withExcept : Bool}
  {given given' : List Row}

-- The rows that the rule with the term in place of the variable gives are given by the other, and all
-- of these just when every match has one in which the equated have the same marker.
theorem heldIn_joining {base : List Atom} (unguarded : ctx.rule.guard = none)
    (joins : RowSemantics.Joins ctx db type x e (before ++ rest))
    (adds : Adds ctx db parameter r head (before ++ equation x e :: rest) withExcept given)
    (adds' : Adds (ctx.joining base x e) db parameter r (head.substitute (.single x e))
      ((before ++ rest).map (Atom.substitute (.single x e))) withExcept given') :
    (∀ row ∈ given', Row.HeldIn given row) ∧
      ((∀ row ∈ given, Row.HeldIn given' row) ↔
        ∀ rows env, Match ctx db parameter none (before ++ equation x e :: rest) rows env →
          (withExcept = true ∧ Row.HeldIn (db.rows (r.tableName head.kind))
            (RowSemantics.writtenRow ctx parameter r head env)) ∨
          ∃ rows' env', Match ctx db parameter none (before ++ equation x e :: rest) rows' env' ∧
            SameMark x e env' ∧ Row.same (RowSemantics.writtenRow ctx parameter r head env)
              (RowSemantics.writtenRow ctx parameter r head env') = true) := by
  have unguarded' : (ctx.joining base x e).rule.guard = none := unguarded
  obtain ⟨source, fresh, reached⟩ := adds
  obtain ⟨source', fresh', reached'⟩ := adds'
  rw [unguarded] at source reached
  rw [unguarded'] at source' reached'
  refine ⟨fun row inside => ?_, fun held rows env matched => ?_, fun covered row inside => ?_⟩
  · obtain ⟨rows, env', matched', rfl⟩ := source' row inside
    obtain ⟨env, replaced, -, matched⟩ := (RowSemantics.match_joining joins).2 env' matched'
    rw [RowSemantics.writtenRow_replaced replaced] at inside ⊢
    refine (reached rows env matched).resolve_left ?_
    rintro ⟨excepts, old, stored, same⟩
    cases same.symm.trans (fresh' excepts _ inside old stored)
  · refine (reached rows env matched).imp id fun ⟨row, inside, same⟩ => ?_
    obtain ⟨row', inside', same'⟩ := held row inside
    obtain ⟨rows', env'', matched'', rfl⟩ := source' row' inside'
    obtain ⟨env', replaced, marks, matched'⟩ := (RowSemantics.match_joining joins).2 env'' matched''
    refine ⟨rows', env', matched', marks, ?_⟩
    rw [← RowSemantics.writtenRow_replaced replaced]
    exact Row.same_trans same same'
  · obtain ⟨rows, env, matched, rfl⟩ := source row inside
    rcases covered rows env matched with ⟨excepts, old, stored, same⟩ | ⟨rows', env', matched', marks, same⟩
    · cases same.symm.trans (fresh excepts _ inside old stored)
    · obtain ⟨env'', replaced, matched''⟩ := (RowSemantics.match_joining joins).1 env' matched' marks
      rw [Row.heldIn_congr same, ← @RowSemantics.writtenRow_replaced ctx x e type r env' env'' head base
        parameter replaced]
      refine (reached' rows' env'' matched'').resolve_left ?_
      rintro ⟨excepts, old, stored, alike⟩
      rw [RowSemantics.writtenRow_replaced replaced] at alike
      cases (Row.same_trans same alike).symm.trans (fresh excepts _ inside old stored)

section Shapes

variable (equates : Equates ctx head before after type x e)
include equates

theorem Equates.nonempty : ctx.rule.body ≠ [] := by
  rw [equates.body]
  exact List.append_ne_nil_of_right_ne_nil _ nofun

theorem Equates.heads_joining :
    (ctx.joining (before ++ after) x e).rule.head = [head.substitute (.single x e)] :=
  congrArg (List.map _) equates.heads

theorem Equates.nonempty_joining : (ctx.joining (before ++ after) x e).rule.body ≠ [] := by
  obtain ⟨a, inside, -⟩ := equates.joined ⟨x, false, none⟩ List.mem_cons_self
  exact fun none => List.ne_nil_of_mem inside (List.map_eq_nil_iff.mp none)

theorem Equates.bodies : ∃ rest withExcept, (∀ a ∈ rest, a ∈ after ∨ a = head.negate) ∧
    (∀ a ∈ after, a.isPositive = true → a ∈ rest) ∧
    insertionBody ctx.config.setSemantics r head ctx.rule.body =
      (before ++ equation x e :: rest, withExcept) ∧
    insertionBody (ctx.joining (before ++ after) x e).config.setSemantics r
        (head.substitute (.single x e)) (ctx.joining (before ++ after) x e).rule.body =
      ((before ++ rest).map (Atom.substitute (.single x e)), withExcept) := by
  rw [equates.body]
  exact insertionBody_equation ctx.config.setSemantics equates.alike equates.last

end Shapes

theorem Equates.joins_body (equates : Equates ctx head before after type x e)
    (stores : ∀ a ∈ head :: (before ++ after), a.builtin? = none → StoresAtom ctx.catalog db a)
    (marked : ∀ a ∈ head :: (before ++ after), a.builtin? = none → ∀ r,
      ctx.catalog.relations.get? a.relationName = some r → r.Marked a.kind db)
    (within : ∀ a ∈ rest, a ∈ after ∨ a = head.negate)
    (stay : ∀ a ∈ after, a.isPositive = true → a ∈ rest)
    (ran : lowerBody ctx guard (before ++ equation x e :: rest) = .ok sc)
    (lowered : Lowered ctx db guard (before ++ equation x e :: rest) sc joins) :
    RowSemantics.Joins ctx db type x e (before ++ rest) := by
  have inBody {a : Atom} (inside : a ∈ before ++ rest) : a ∈ before ++ equation x e :: rest :=
    (List.mem_append.mp inside).elim (List.mem_append_left _) fun later =>
      List.mem_append_right _ (List.mem_cons_of_mem _ later)
  have cases {a : Atom} (inside : a ∈ before ++ rest) : a ∈ before ++ after ∨ a = head.negate :=
    (List.mem_append.mp inside).elim (.inl ∘ List.mem_append_left _) fun later =>
      (within a later).imp_left (List.mem_append_right _)
  have related := related_of_lowered ran
  constructor
  · exact equates.comparable
  · intro a inside relational row stored
    have fitted {b : Atom} (member : b ∈ head :: (before ++ after)) (called : b.builtin? = none)
        (row : Row) (stored : row ∈ db.rows (RowSemantics.tableOf ctx.catalog b)) :
        ∀ p ∈ RowSemantics.places ctx.catalog db b row, Fitted type x e p := by
      cases known : ctx.catalog.relations.get? b.relationName with
      | none =>
        unfold RowSemantics.places
        rw [known]
        exact List.forall_mem_nil _
      | some r =>
        exact RowSemantics.fitted_of_stored known (stores b member called r known)
          (marked b member called r known) (equates.typed b member called r known) stored
    rcases cases inside with member | rfl
    · exact fitted (List.mem_cons_of_mem _ member) relational row stored
    · exact fitted List.mem_cons_self relational row stored
  · exact fun a inside positive => lowered.relation_of (inBody inside) positive
  · intro v inside
    obtain ⟨a, member, positive, named⟩ := equates.joined v inside
    refine ⟨a, ?_, positive, named⟩
    exact (List.mem_append.mp member).elim (List.mem_append_left _) fun later =>
      List.mem_append_right _ (stay a later positive)
  · intro a inside called
    rcases cases inside with member | rfl
    · exact equates.spared a member called
    · rw [related _ (inBody inside) rfl] at called
      cases called
  · exact fun a inside negative => related a (inBody inside) negative

-- A rule with an equality of joined terms, and the rule with the one term in place of the other. What
-- the second inserts the first inserts too, and the other way round just when every match of the first
-- is excluded or has one that writes the same and gives the equated the same marker.
theorem joined_insertion_iff {catalog : Catalog} {config : Config} {rule : Rule} {iteration : Iteration}
    {statements statements' : List Statement}
    (equates : Equates ⟨catalog, config, rule, iteration⟩ head before after type x e)
    (lowered : rule.lower catalog config iteration = .ok statements)
    (lowered' : (rule.joining (before ++ after) x e).lower catalog config iteration = .ok statements')
    (known : catalog.relations.get? head.relationName = some r)
    (columned : r.physicalColumns head.kind ≠ []) (target : r.StoredIn head.kind db)
    (stores : ∀ a ∈ rule.body, a.builtin? = none → StoresAtom catalog db a)
    (marked : ∀ a ∈ head :: rule.body, a.builtin? = none → ∀ r,
      catalog.relations.get? a.relationName = some r → r.Marked a.kind db)
    (fits : fitsWord parameter = true) :
    ∃ statement statement' t given given' n n', statements = [statement] ∧ statements' = [statement'] ∧
      db.tables.get? (r.tableName head.kind) = some t ∧
      db.execute parameter statement = .ok (db.setRows (r.tableName head.kind)
        (db.rows (r.tableName head.kind) ++ given.map (t.fill t.columnNames)), n) ∧
      db.execute parameter statement' = .ok (db.setRows (r.tableName head.kind)
        (db.rows (r.tableName head.kind) ++ given'.map (t.fill t.columnNames)), n') ∧
      (∀ row ∈ given', Row.HeldIn given row) ∧
      ((∀ row ∈ given, Row.HeldIn given' row) ↔
        ∀ rows env, Match ⟨catalog, config, rule, iteration⟩ db parameter none
            (insertionBody config.setSemantics r head rule.body).1 rows env →
          ((insertionBody config.setSemantics r head rule.body).2 = true ∧
            Row.HeldIn (db.rows (r.tableName head.kind))
              (RowSemantics.writtenRow ⟨catalog, config, rule, iteration⟩ parameter r head env)) ∨
          ∃ rows' env', Match ⟨catalog, config, rule, iteration⟩ db parameter none
              (insertionBody config.setSemantics r head rule.body).1 rows' env' ∧ SameMark x e env' ∧
            Row.same (RowSemantics.writtenRow ⟨catalog, config, rule, iteration⟩ parameter r head env)
              (RowSemantics.writtenRow ⟨catalog, config, rule, iteration⟩ parameter r head env') =
                true) := by
  have ran := lower_ok lowered
  have ran' := lower_ok lowered'
  generalize context : (⟨catalog, config, rule, iteration⟩ : Context) = ctx at *
  obtain rfl : catalog = ctx.catalog := context ▸ rfl
  obtain rfl : config = ctx.config := context ▸ rfl
  obtain rfl : rule = ctx.rule := context ▸ rfl
  obtain rfl : iteration = ctx.iteration := context ▸ rfl
  have listed : ∀ a ∈ before ++ after, a ∈ ctx.rule.body := by
    rw [equates.body]
    exact fun a inside => (List.mem_append.mp inside).elim (List.mem_append_left _) fun later =>
      List.mem_append_right _ (List.mem_cons_of_mem _ later)
  obtain ⟨innerHead, inner⟩ := List.forall_mem_cons.mp equates.inner
  have inner' : ∀ a ∈ head.substitute (.single x e) :: (ctx.joining (before ++ after) x e).rule.body,
      a.optional = false :=
    List.forall_mem_cons.mpr ⟨innerHead,
      List.forall_mem_map.mpr fun a inside => inner a (listed a inside)⟩
  have stores' : ∀ a ∈ (ctx.joining (before ++ after) x e).rule.body, a.builtin? = none →
      StoresAtom ctx.catalog db a :=
    List.forall_mem_map.mpr fun a inside => stores a (listed a inside)
  obtain ⟨sc, joins, statement, t, given, n, same, bodied, shaped, found, executed, adds⟩ :=
    runs_derive equates.derives equates.heads equates.nonempty equates.inner known columned target stores
      fits ran
  obtain ⟨-, -, statement', t', given', n', same', -, -, found', executed', adds'⟩ :=
    @runs_derive (ctx.joining (before ++ after) x e) db r (head.substitute (.single x e)) parameter _
      equates.derives equates.heads_joining equates.nonempty_joining inner' known columned target stores'
      fits ran'
  cases found.symm.trans found'
  obtain ⟨rest, withExcept, within, stay, own, image⟩ := equates.bodies
  rw [own] at bodied shaped adds ⊢
  rw [image] at adds'
  have body := equates.joins_body (fun a inside relational => ?_) (fun a inside => ?_) within stay bodied
    shaped
  · exact ⟨statement, statement', t, given, given', n, n', same, same', found, executed, executed',
      heldIn_joining equates.unguarded body adds adds'⟩
  · rcases List.mem_cons.mp inside with rfl | member
    · intro r' present
      cases known.symm.trans present
      exact target
    · exact stores a (listed a member) relational
  · exact marked a ((List.mem_cons.mp inside).elim (fun same => same ▸ List.mem_cons_self) fun member =>
      List.mem_cons_of_mem _ (listed a member))

end Insertions

section Linked

-- R has the labeled null n1, and S a text that reads the same.
def linkedCatalog : Catalog where
  peers := [⟨"A", ["R", "S", "T"]⟩]
  relations := .ofList [
    ("R", { name := "R", peer := some "A", columns := [⟨"a", .text, true⟩], labeledNulls := true }),
    ("S", { name := "S", peer := some "A", columns := [⟨"b", .text, false⟩] }),
    ("T", { name := "T", peer := some "A", columns := [⟨"c", .text, false⟩] })]

def linkedHead : Atom := .ofRelation "T" [.var "x"]

def linkedAtoms : List Atom := [.ofRelation "R" [.var "x"], .ofRelation "S" [.var "y"]]

def linkedRule : Rule := Rule.ofHead "m" linkedHead (linkedAtoms ++ [equation "x" (.var "y")])

def linkedContext : Context := ⟨linkedCatalog, {}, linkedRule, .literal 0⟩

def linkedTables : Database where
  tables := .ofList [
    ("R", { columns := [("a", some .text), ("a_LN", some .integer)], rows := [[.text "n1", .integer 2]] }),
    ("S", { columns := [("b", some .text)], rows := [[.text "n1"]] }),
    ("T", { columns := [("c", some .text)], rows := [] })]

def linkedRows (rule : Rule) : Option (List Row) :=
  match rule.lower linkedCatalog {} (.literal 0) with
  | .ok [statement] =>
    match linkedTables.execute 0 statement with
    | .ok (db, _) => some (db.rows "T")
    | .error _ => none
  | _ => none

theorem linked_ran {rule : Rule} {rows : List Row} (holds : linkedRows rule = some rows) :
    ∃ statement db n, rule.lower linkedCatalog {} (.literal 0) = .ok [statement] ∧
      linkedTables.execute 0 statement = .ok (db, n) ∧ db.rows "T" = rows := by
  unfold linkedRows at holds
  split at holds
  · rename_i statement lowered
    split at holds
    · rename_i db n executed
      cases holds
      exact ⟨statement, db, n, lowered, executed, rfl⟩
    · cases holds
  · cases holds

-- The equality takes the labeled null for the text, and the join does not.
theorem linked_null_lost :
    linkedCatalog.validateRule linkedRule = .ok () ∧ linkedRule.checkSafety = .ok () ∧
      ∃ statement statement' db db' n n',
        linkedRule.lower linkedCatalog {} (.literal 0) = .ok [statement] ∧
        (linkedRule.joining linkedAtoms "x" (.var "y")).lower linkedCatalog {} (.literal 0) =
          .ok [statement'] ∧
        linkedTables.execute 0 statement = .ok (db, n) ∧ db.rows "T" = [[.text "n1"]] ∧
        linkedTables.execute 0 statement' = .ok (db', n') ∧ db'.rows "T" = [] := by
  obtain ⟨statement, db, n, lowered, executed, rows⟩ :=
    @linked_ran linkedRule [[.text "n1"]] (by decide +kernel)
  obtain ⟨statement', db', n', lowered', executed', rows'⟩ :=
    @linked_ran (linkedRule.joining linkedAtoms "x" (.var "y")) [] (by decide +kernel)
  exact ⟨by cbv, by cbv, statement, statement', db, db', n, n', lowered, lowered', executed, rows,
    executed', rows'⟩

theorem linked_stored {name : String} (known : linkedCatalog.relations.get? name = some r) :
    r.StoredIn .base linkedTables ∧ r.Marked .base linkedTables ∧ ∀ c ∈ r.columns, c.type = .text := by
  have values : linkedCatalog.relations.values = [
      { name := "R", peer := some "A", columns := [⟨"a", .text, true⟩], labeledNulls := true },
      { name := "S", peer := some "A", columns := [⟨"b", .text, false⟩] },
      { name := "T", peer := some "A", columns := [⟨"c", .text, false⟩] }] := by cbv
  have member : r ∈ linkedCatalog.relations.values := NameMap.mem_values.mpr ⟨name, known⟩
  rw [values] at member
  rcases member with _ | ⟨_, _ | ⟨_, _ | ⟨_, ⟨⟩⟩⟩⟩
  · refine ⟨by decide +kernel, ⟨List.forall_mem_singleton.mpr (List.forall_mem_singleton.mpr ?_),
        List.forall_mem_singleton.mpr (List.forall_mem_singleton.mpr ?_)⟩, by decide⟩
    · rintro _ ⟨⟩
    · rintro _ ⟨⟩
      exact ⟨2, rfl⟩
  · refine ⟨by decide +kernel, ⟨List.forall_mem_singleton.mpr (List.forall_mem_singleton.mpr ?_),
        List.forall_mem_singleton.mpr (List.forall_mem_singleton.mpr ?_)⟩, by decide⟩
    · intro r same
      cases same
    · intro marker marked
      cases marked
  · exact ⟨by decide +kernel, ⟨List.forall_mem_nil _, List.forall_mem_nil _⟩, by decide⟩

theorem linked_equates : Equates linkedContext linkedHead linkedAtoms [] .text "x" (.var "y") where
  derives := rfl
  heads := rfl
  unguarded := rfl
  body := rfl
  inner := by decide
  comparable := ⟨by decide, rfl⟩
  joined := List.forall_mem_cons.mpr ⟨⟨.ofRelation "R" [.var "x"], by decide, rfl, .var "x", by decide, rfl⟩,
    List.forall_mem_singleton.mpr ⟨.ofRelation "S" [.var "y"], by decide, rfl, .var "y", by decide, rfl⟩⟩
  typed a _ _ r known place listed _ :=
    (linked_stored known).2.2 place.2 (List.of_mem_zip listed).2
  spared := List.forall_mem_cons.mpr ⟨nofun, List.forall_mem_singleton.mpr nofun⟩
  alike := by decide
  last := by decide

def linkedTarget : Relation := { name := "T", peer := some "A", columns := [⟨"c", .text, false⟩] }

-- The labeled null and the text make a match that none with one marker for them is like.
theorem joined_insertion_linked : ∃ rows env,
    Match linkedContext linkedTables 0 none linkedRule.body rows env ∧
      ∀ rows' env', Match linkedContext linkedTables 0 none linkedRule.body rows' env' →
        SameMark "x" (.var "y") env' →
          Row.same (RowSemantics.writtenRow linkedContext 0 linkedTarget linkedHead env)
            (RowSemantics.writtenRow linkedContext 0 linkedTarget linkedHead env') = false := by
  obtain ⟨statement, db, n, lowered, executed, rows⟩ :=
    @linked_ran linkedRule [[.text "n1"]] (by decide +kernel)
  obtain ⟨statement', db', n', lowered', executed', rows'⟩ :=
    @linked_ran (linkedRule.joining linkedAtoms "x" (.var "y")) [] (by decide +kernel)
  have known : linkedCatalog.relations.get? linkedHead.relationName = some linkedTarget := by cbv
  have based : ∀ a ∈ linkedHead :: linkedRule.body, a.kind = .base := by decide
  obtain ⟨_, _, t, given, given', _, _, same, same', found, ran, ran', -, covered⟩ :=
    @joined_insertion_iff linkedTables linkedTarget linkedHead "x" (.var "y") linkedAtoms [] .text 0
      linkedCatalog {} linkedRule (.literal 0) [statement] [statement'] linked_equates lowered lowered'
      known (List.cons_ne_nil _ _) (linked_stored known).1
      (fun a inside _ r present => based a (List.mem_cons_of_mem _ inside) ▸ (linked_stored present).1)
      (fun a inside _ r present => based a inside ▸ (linked_stored present).2.1) (by decide)
  cases same
  cases same'
  cases executed.symm.trans ran
  cases executed'.symm.trans ran'
  have empty : linkedTables.rows "T" = [] := by decide +kernel
  have name : linkedTarget.tableName linkedHead.kind = "T" := by cbv
  rw [name] at found rows rows' covered
  rw [Sql.Database.rows_setRows found, empty, List.nil_append] at rows rows'
  rw [empty] at covered
  cases List.map_eq_nil_iff.mp rows'
  by_contra none
  have nothing := covered.mpr fun rows env matched => .inr ?_
  · obtain ⟨row, rest, rfl, -⟩ := List.map_eq_cons_iff.mp rows
    obtain ⟨_, inside, -⟩ := nothing row List.mem_cons_self
    cases inside
  · by_contra unlike
    refine none ⟨rows, env, matched, fun rows' env' matched' marks => ?_⟩
    exact Bool.eq_false_iff.mpr fun same => unlike ⟨rows', env', matched', marks, same⟩

end Linked

end Lowering

end PeerExchange
