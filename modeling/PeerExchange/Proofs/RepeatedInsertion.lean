import PeerExchange.Proofs.GrownTables
import PeerExchange.Proofs.InsertExactness
import PeerExchange.Proofs.OuterJoins

namespace PeerExchange

open RowSemantics (Env Fits Holds Identical Match Meaning)
open Sql (Database Query Row Statement Table Value)

namespace RowSemantics

variable {ctx : Lowering.Context} {db db' : Database} {parameter : Int} {guard : Option Guard}
  {body : List Atom} {rows : List Row} {env : Env} {a : Atom} {row : Row}
  {ps : List (Meaning × Term)}

theorem bound_unbound (unbound : ∀ p ∈ ps, binder? env p.2 = none) : bound env ps = env := by
  induction ps with
  | nil => rfl
  | cons p rest ih =>
    obtain ⟨m, t⟩ := p
    obtain ⟨here, later⟩ := List.forall_mem_cons.mp unbound
    dsimp only at here
    rw [bound, here]
    exact ih later

theorem agree_unbound {final : Env} {op : Sql.BinaryOp}
    (unbound : ∀ p ∈ ps, binder? env p.2 = none) :
    Agree ctx final op env ps ↔ ∀ p ∈ ps, Agrees ctx final op p.1 p.2 := by
  induction ps with
  | nil => exact iff_of_true trivial (List.forall_mem_nil _)
  | cons p rest ih =>
    obtain ⟨m, t⟩ := p
    obtain ⟨here, later⟩ := List.forall_mem_cons.mp unbound
    dsimp only at here
    rw [Agree, here, List.forall_mem_cons]
    exact and_congr_right fun _ => ih later

theorem unbound_of_denote {t : Term} {m : Meaning} (meant : denote ctx env t = some m) :
    binder? env t = none := by
  by_contra some
  obtain ⟨x, binds⟩ := Option.ne_none_iff_exists'.mp some
  obtain ⟨named, fresh⟩ := binder?_eq_some.mp binds
  obtain ⟨v, rfl, rfl, unmarked⟩ := name?_eq named
  have unknown : env.get? v.name = none := by simpa [NameMap.contains] using fresh
  rw [denote, denoteWith, unknown, inventedMeaning, unmarked] at meant
  cases meant

-- A row is identical to an atom whose terms all stand for something when each of its places is.
theorem identical_iff_agrees
    (denoted : ∀ p ∈ places ctx.catalog db a row, ∃ m, denote ctx env p.2 = some m) :
    Identical ctx db env a row ↔ ∀ p ∈ places ctx.catalog db a row, Agrees ctx env .is p.1 p.2 := by
  have unbound : ∀ p ∈ places ctx.catalog db a row, binder? env p.2 = none := fun p inside =>
    (denoted p inside).elim fun _ => unbound_of_denote
  rw [Identical, bound_unbound unbound, agree_unbound unbound]

end RowSemantics

namespace Lowering

variable {ctx : Context} {db db' : Database} {parameter : Int} {guard : Option Guard}
  {body : List Atom} {rows : List Row} {env : Env} {r : Relation} {head : Atom} {row : Row}

-- A column without markers shows which term was written to it, unless that is a labeled null.
def Legible (ctx : Context) (r : Relation) (head : Atom) (env : Env) : Prop :=
  ∀ place ∈ head.args.zip r.columns, r.markerOf? place.2 = none → place.1.isNull = false →
    ∀ m, RowSemantics.denote ctx env place.1 = some m → Holds .is (Meaning.mark ⟨m.value, none⟩) m.mark

-- The head has values of the types of its columns, which keep them as they are.
structure Fitting (ctx : Context) (parameter : Int) (r : Relation) (head : Atom) (env : Env) :
    Prop where
  kept : r.Keeps head.kind (RowSemantics.writtenRow ctx parameter r head env)
  typed : ∀ place ∈ head.args.zip r.columns, ∀ m, RowSemantics.denote ctx env place.1 = some m →
    (m.value.type = some place.2.type ∨ m.value.type = none) ∧
      (m.mark.type = some .integer ∨ m.mark.type = none)

section Recognition

variable {places : List (Term × Column)} {i : Nat} {α : Type} {columns : List α} {written : Row}
  {R : Value → Value → Prop}

theorem zip_related (each : List.Forall₂ R written row) {column : α} {v : Value}
    (inside : (column, v) ∈ columns.zip written) : ∃ u, (column, u) ∈ columns.zip row ∧ R v u := by
  induction each generalizing columns with
  | nil => simp at inside
  | @cons w u _ _ here _ ih =>
    cases columns with
    | nil => cases inside
    | cons first rest =>
      rw [List.zip_cons_cons] at inside
      rcases List.mem_cons.mp inside with same | later
      · cases same
        exact ⟨u, List.mem_cons_self, here⟩
      · obtain ⟨u, listed, related⟩ := ih later
        exact ⟨u, List.mem_cons_of_mem _ listed, related⟩

theorem zip_writtenColumns (unblanked : (ctx.rule.blankAll || ctx.rule.blankNonKey) = false) :
    ∀ place ∈ places, ∀ m, RowSemantics.denote ctx env place.1 = some m →
      ((place.2.name, place.2.type), m.value.value) ∈
          (laidOut r places).zip (RowSemantics.writtenColumns ctx r env i places) ∧
        ∀ marker, r.markerOf? place.2 = some marker → ((marker, ColumnType.integer), m.mark.value) ∈
          (laidOut r places).zip (RowSemantics.writtenColumns ctx r env i places) := by
  induction places generalizing i with
  | nil => exact List.forall_mem_nil _
  | cons place rest ih =>
    obtain ⟨t, c⟩ := place
    have plain (hasMarker inKey : Bool) (m : Meaning) : RowSemantics.written ctx.rule inKey hasMarker m =
        m.value.value :: (if hasMarker then [m.mark.value] else []) := by
      simp [RowSemantics.written, unblanked]
    have zipped : (laidOut r ((t, c) :: rest)).zip
        (RowSemantics.writtenColumns ctx r env i ((t, c) :: rest)) =
        ((c.name, c.type) :: ((r.markerOf? c).map (·, ColumnType.integer)).toList).zip
          (RowSemantics.written ctx.rule (r.key.contains i) (r.markerOf? c).isSome
            ((RowSemantics.denote ctx env t).getD ⟨⟨.null, none⟩, none⟩)) ++
        (laidOut r rest).zip (RowSemantics.writtenColumns ctx r env (i + 1) rest) := by
      rw [laidOut_cons, RowSemantics.writtenColumns, List.zip_append]
      rw [length_written]
      cases r.markerOf? c <;> rfl
    simp only [zipped, List.mem_append]
    refine List.forall_mem_cons.mpr ⟨fun m meant => ?_, fun place inside m meant => ?_⟩
    · dsimp only at meant ⊢
      rw [meant, plain]
      refine ⟨.inl List.mem_cons_self, fun marker marked => .inl ?_⟩
      rw [marked]
      exact List.mem_cons_of_mem _ List.mem_cons_self
    · obtain ⟨value, mark⟩ := ih (i := i + 1) place inside m meant
      exact ⟨.inr value, fun marker marked => .inr (mark marker marked)⟩

theorem zip_writtenRow (parameter : Int) (unblanked : (ctx.rule.blankAll || ctx.rule.blankNonKey) = false)
    (arity : head.args.length = r.arity) {place : Term × Column}
    (inside : place ∈ head.args.zip r.columns) {m : Meaning}
    (meant : RowSemantics.denote ctx env place.1 = some m) :
    ((place.2.name, place.2.type), m.value.value) ∈
        (r.physicalColumns head.kind).zip (RowSemantics.writtenRow ctx parameter r head env) ∧
      ∀ marker, r.markerOf? place.2 = some marker → ((marker, ColumnType.integer), m.mark.value) ∈
        (r.physicalColumns head.kind).zip (RowSemantics.writtenRow ctx parameter r head env) := by
  obtain ⟨value, mark⟩ := zip_writtenColumns (i := 0) (r := r) unblanked place inside m meant
  rw [physicalColumns_eq arity, RowSemantics.writtenRow, List.zip_append length_writtenColumns.symm]
  exact ⟨List.mem_append_left _ value, fun marker marked => List.mem_append_left _ (mark marker marked)⟩

-- A cell that holds what counts as the value of a term holds the value itself for a comparison.
theorem holds_of_same {type : ColumnType} {v : Value} {typed : Sql.Typed} (kept : v.store type = v)
    (fits : Fits type typed) (same : typed.value.same v = true) : Holds .is ⟨v, some type⟩ typed := by
  rw [RowSemantics.holds_is_iff, RowSemantics.order_of_fits rfl ⟨.inl rfl, kept⟩ fits]
  rw [Value.same_comm] at same
  simpa [Value.same] using same

end Recognition

section Head

variable (known : ctx.catalog.relations.get? head.relationName = some r)
  (arity : head.args.length = r.arity) (target : r.StoredIn head.kind db)
  (denoted : ∀ place ∈ head.args.zip r.columns, ∃ m, RowSemantics.denote ctx env place.1 = some m)
include known

theorem places_head : RowSemantics.places ctx.catalog db head.negate row =
    (head.args.zip r.columns).map fun place =>
      (⟨RowSemantics.cell db (r.tableName head.kind) row place.2.name,
        (r.markerOf? place.2).map (RowSemantics.cell db (r.tableName head.kind) row)⟩, place.1) := by
  have same : ctx.catalog.relations.get? head.negate.relationName = some r := known
  rw [RowSemantics.places, same]
  rfl

include denoted

theorem identical_head : Identical ctx db env head.negate row ↔
    ∀ place ∈ head.args.zip r.columns, RowSemantics.Agrees ctx env .is
      ⟨RowSemantics.cell db (r.tableName head.kind) row place.2.name,
        (r.markerOf? place.2).map (RowSemantics.cell db (r.tableName head.kind) row)⟩ place.1 := by
  rw [RowSemantics.identical_iff_agrees, places_head known, List.forall_mem_map]
  rw [places_head known]
  rw [List.forall_mem_map]
  exact denoted

theorem legible_of_identical (identical : Identical ctx db env head.negate row) :
    Legible ctx r head env := by
  intro place inside unmarked nonnull m meant
  have agrees := (identical_head known denoted).mp identical place inside
  unfold RowSemantics.Agrees at agrees
  rw [nonnull, if_neg Bool.false_ne_true, unmarked] at agrees
  obtain ⟨m', meant', marks, values⟩ := agrees
  cases meant.symm.trans meant'
  have nulls := RowSemantics.null_of_order (RowSemantics.holds_is_iff.mp values)
  cases own : m.marker with
  | none =>
    have plain : m.mark = Meaning.mark ⟨m.value, none⟩ := by rw [Meaning.mark, own]; rfl
    rw [plain]
    exact RowSemantics.holds_is_self _
  | some mark =>
    have marks := marks (by rw [own]; rfl)
    have same : Meaning.mark ⟨m.value, none⟩ =
        Meaning.mark ⟨RowSemantics.cell db (r.tableName head.kind) row place.2.name, none⟩ := by
      simp only [Meaning.mark, Option.getD_none, nulls]
    rw [same]
    exact marks

omit known denoted in
theorem null_of_isNull {t : Term} {m : Meaning} (null : t.isNull = true)
    (meant : RowSemantics.denote ctx env t = some m) : m.value.value = .null := by
  unfold Term.isNull at null
  split at null
  · cases meant
    rfl
  · cases null

include arity target

theorem identical_of_legible (unblanked : (ctx.rule.blankAll || ctx.rule.blankNonKey) = false)
    (fitting : Fitting ctx parameter r head env) (legible : Legible ctx r head env)
    (inside : row ∈ db.rows (r.tableName head.kind))
    (same : Row.same (RowSemantics.writtenRow ctx parameter r head env) row = true) :
    Identical ctx db env head.negate row := by
  have related := Row.same_iff.mp same
  obtain ⟨-, stored⟩ := List.forall₂_iff_zip.mp (target.kept row inside)
  obtain ⟨-, written⟩ := List.forall₂_iff_zip.mp fitting.kept
  have cells {column : String × ColumnType} {v : Value}
      (listed : (column, v) ∈ (r.physicalColumns head.kind).zip row) :
      RowSemantics.cell db (r.tableName head.kind) row column.1 = ⟨v, some column.2⟩ := by
    obtain ⟨i, bound, at_⟩ := List.getElem_of_mem listed
    rw [List.getElem_zip] at at_
    cases at_
    rw [List.length_zip, Nat.lt_min] at bound
    exact target.cell_at bound.1 bound.2
  rw [identical_head known denoted]
  intro place member
  obtain ⟨m, meant⟩ := denoted place member
  obtain ⟨value, mark⟩ := zip_writtenRow parameter unblanked arity member meant
  obtain ⟨ofValue, ofMark⟩ := fitting.typed place member m meant
  obtain ⟨v, listed, here⟩ := zip_related related value
  have holds := holds_of_same (stored listed) ⟨ofValue, written value⟩ here
  have nulls := RowSemantics.null_of_order (RowSemantics.holds_is_iff.mp holds)
  unfold RowSemantics.Agrees
  rw [cells listed]
  split
  · rename_i null
    exact nulls.mpr (null_of_isNull null meant)
  · rename_i nonnull
    refine ⟨m, meant, fun _ => ?_, holds⟩
    cases marked : r.markerOf? place.2 with
    | some marker =>
      obtain ⟨k, listedMark, there⟩ := zip_related related (mark marker marked)
      rw [Option.map_some, cells listedMark]
      exact holds_of_same (stored listedMark) ⟨ofMark, written (mark marker marked)⟩ there
    | none =>
      have shown := legible place member marked (Bool.not_eq_true _ ▸ nonnull) m meant
      have alike : Meaning.mark ⟨⟨v, some place.2.type⟩, none⟩ = Meaning.mark ⟨m.value, none⟩ := by
        simp only [Meaning.mark, Option.getD_none, nulls]
      rw [Option.map_none, alike]
      exact shown

end Head

section Insertions

variable {sc : Scope} {joins : List Join} {projection : List Sql.Expr} {withExcept : Bool}
  {added : List Row}

theorem execute_adds (withExcept : Bool) (lowered : Lowered ctx db ctx.rule.guard body sc joins)
    (target : r.StoredIn head.kind db) (columned : r.physicalColumns head.kind ≠ [])
    (arity : head.args.length = r.arity) (fits : fitsWord parameter = true)
    (projected : project ctx r head sc.bindings = .ok projection)
    (kept : ∀ rows env, Match ctx db parameter ctx.rule.guard body rows env →
      r.Keeps head.kind (RowSemantics.writtenRow ctx parameter r head env)) :
    ∃ db' added, db.execute parameter (.insert (r.tableName head.kind) (columnNames r head.kind)
        (.query (insertionQuery ctx r head sc projection withExcept))) = .ok (db', added.length) ∧
      Database.Grows (r.tableName head.kind) (r.physicalColumns head.kind) db db' ∧
      db'.rows (r.tableName head.kind) = db.rows (r.tableName head.kind) ++ added ∧
      Adds ctx db parameter r head body withExcept added := by
  have adds := adds_insertionQuery lowered target columned arity fits projected withExcept
  have checked :=
    @check_insertionQuery _ _ _ _ _ _ _ _ _ _ withExcept lowered target fits projected
  obtain ⟨db', executed, rows, grows⟩ := execute_kept target columned checked fun row inside => by
    obtain ⟨chosen, env, matched, rfl⟩ := adds.source row inside
    exact kept chosen env matched
  exact ⟨db', _, executed, grows, rows, adds⟩

theorem nil_of_except {body : List Atom} {first again : List Row}
    (kept : ∀ chosen env, Match ctx db' parameter ctx.rule.guard body chosen env →
      Match ctx db parameter ctx.rule.guard body chosen env)
    (rows : db'.rows (r.tableName head.kind) = db.rows (r.tableName head.kind) ++ first)
    (adds : Adds ctx db parameter r head body true first)
    (adds' : Adds ctx db' parameter r head body true again) : again = [] := by
  refine List.eq_nil_iff_forall_not_mem.mpr fun row inside => ?_
  obtain ⟨chosen, env, matched, rfl⟩ := adds'.source row inside
  have fresh := adds'.fresh rfl _ inside
  rw [rows] at fresh
  rcases adds.reached chosen env (kept chosen env matched) with
    ⟨-, old, listed, alike⟩ | ⟨row, listed, alike⟩
  · cases alike.symm.trans (fresh old (List.mem_append_left _ listed))
  · cases alike.symm.trans (fresh row (List.mem_append_right _ listed))

end Insertions

section Repetition

theorem mem_insertionBody_unexcepted (unexcepted : (insertionBody true r head body).2 = false)
    (own : ∀ a ∈ body, a.same head.negate = true → a = head.negate) :
    ∀ a ∈ head.negate :: body, a ∈ (insertionBody true r head body).1 := by
  have listed : ∀ a ∈ head.negate :: body,
      a ∈ if true && !body.any (·.same head.negate) then body ++ [head.negate] else body := by
    refine List.forall_mem_cons.mpr ⟨?_, fun a inside => ?_⟩
    · split
      · exact List.mem_append_right _ List.mem_cons_self
      · rename_i present
        simp only [Bool.true_and, Bool.not_eq_true', Bool.not_eq_false, List.any_eq_true] at present
        obtain ⟨a, inside, same⟩ := present
        exact own a inside same ▸ inside
    · split
      · exact List.mem_append_left _ inside
      · exact inside
  unfold insertionBody at unexcepted ⊢
  dsimp only at unexcepted ⊢
  generalize (if true && !body.any (·.same head.negate) then body ++ [head.negate] else body) = all
    at listed unexcepted ⊢
  split at unexcepted
  · cases unexcepted
  · rename_i stays
    rw [if_neg stays]
    exact listed

-- Where the negated head does its work, the second run adds nothing just when every match of the first
-- one is legible or lost to another negated atom.
theorem nil_iff_lost {all body : List Atom} {first again : List Row}
    (known : ctx.catalog.relations.get? head.relationName = some r)
    (arity : head.args.length = r.arity) (target : r.StoredIn head.kind db')
    (table : RowSemantics.tableOf ctx.catalog head.negate = r.tableName head.kind)
    (unblanked : (ctx.rule.blankAll || ctx.rule.blankNonKey) = false)
    (stays : ∀ a ∈ head.negate :: body, a ∈ all) (comes : ∀ a ∈ all, a ∈ body ∨ a = head.negate)
    (kept : ∀ chosen env, Match ctx db' parameter ctx.rule.guard all chosen env ↔
      Match ctx db parameter ctx.rule.guard all chosen env ∧
        ∀ a ∈ all, a.negated = true → ∀ row ∈ db'.rows (RowSemantics.tableOf ctx.catalog a),
          ¬ Identical ctx db' env a row)
    (denoted : ∀ chosen env, Match ctx db parameter ctx.rule.guard all chosen env →
      ∀ place ∈ head.args.zip r.columns, ∃ m, RowSemantics.denote ctx env place.1 = some m)
    (fitting : ∀ chosen env, Match ctx db parameter ctx.rule.guard all chosen env →
      Fitting ctx parameter r head env)
    (rows : db'.rows (r.tableName head.kind) = db.rows (r.tableName head.kind) ++ first)
    (adds : Adds ctx db parameter r head all false first)
    (adds' : Adds ctx db' parameter r head all false again) :
    again = [] ↔ ∀ chosen env, Match ctx db parameter ctx.rule.guard all chosen env →
      Legible ctx r head env ∨ ∃ a ∈ body, a.negated = true ∧ a ≠ head.negate ∧
        ∃ row ∈ db'.rows (RowSemantics.tableOf ctx.catalog a), Identical ctx db' env a row := by
  constructor
  · intro nothing chosen env matched
    by_contra neither
    obtain ⟨illegible, others⟩ := not_or.mp neither
    have again : Match ctx db' parameter ctx.rule.guard all chosen env := by
      refine (kept chosen env).mpr ⟨matched, fun a inside negative row listed hit => ?_⟩
      by_cases same : a = head.negate
      · subst same
        exact illegible (legible_of_identical known (denoted chosen env matched) hit)
      · exact others ⟨a, (comes a inside).resolve_right same, negative, same, row, listed, hit⟩
    obtain ⟨row, inside, -⟩ :=
      (adds'.reached chosen env again).resolve_left fun except => Bool.false_ne_true except.1
    rw [nothing] at inside
    cases inside
  · intro lost
    refine List.eq_nil_iff_forall_not_mem.mpr fun row inside => ?_
    obtain ⟨chosen, env, again, rfl⟩ := adds'.source row inside
    obtain ⟨matched, absent⟩ := (kept chosen env).mp again
    rcases lost chosen env matched with legible | ⟨a, member, negative, -, row, listed, hit⟩
    · obtain ⟨row, new, same⟩ :=
        (adds.reached chosen env matched).resolve_left fun except => Bool.false_ne_true except.1
      have written : row ∈ db'.rows (r.tableName head.kind) := rows ▸ List.mem_append_right _ new
      exact absent head.negate (stays _ List.mem_cons_self) rfl row (table ▸ written)
        (identical_of_legible known arity target (denoted chosen env matched) unblanked
          (fitting chosen env matched) legible written same)
    · exact absent a (stays a (List.mem_cons_of_mem _ member)) negative row listed hit

-- A second run of an insertion adds nothing just when EXCEPT takes out what is stored or every match
-- of the first run either is legible in the head's columns or has been lost to another negated atom.
theorem repeated_insertion_iff {catalog : Catalog} {config : Config} {rule : Rule}
    {iteration : Iteration} {statements : List Statement} (sets : config.setSemantics = true)
    (derives : rule.action = .derive) (heads : rule.head = [head]) (joined : rule.body ≠ [])
    (inner : ∀ a ∈ head :: rule.body, a.optional = false)
    (own : ∀ a ∈ rule.body, a.same head.negate = true → a = head.negate)
    (lowered : rule.lower catalog config iteration = .ok statements)
    (known : catalog.relations.get? head.relationName = some r)
    (unread : ∀ a ∈ rule.body, a.isPositive = true →
      Sql.fold (r.tableName head.kind) ≠ Sql.fold (RowSemantics.tableOf catalog a))
    (columned : r.physicalColumns head.kind ≠ []) (target : r.StoredIn head.kind db)
    (stores : ∀ a ∈ rule.body, a.builtin? = none → StoresAtom catalog db a)
    (fits : fitsWord parameter = true)
    (unblanked : (insertionBody true r head rule.body).2 = true ∨
      (rule.blankAll || rule.blankNonKey) = false)
    (fitting : ∀ rows env, Match ⟨catalog, config, rule, iteration⟩ db parameter rule.guard
        (insertionBody true r head rule.body).1 rows env →
      Fitting ⟨catalog, config, rule, iteration⟩ parameter r head env) :
    ∃ statement db' db'' n m, statements = [statement] ∧
      db.execute parameter statement = .ok (db', n) ∧
      db'.execute parameter statement = .ok (db'', m) ∧
      (m = 0 ↔ (insertionBody true r head rule.body).2 = true ∨
        ∀ rows env, Match ⟨catalog, config, rule, iteration⟩ db parameter rule.guard
            (insertionBody true r head rule.body).1 rows env →
          Legible ⟨catalog, config, rule, iteration⟩ r head env ∨
            ∃ a ∈ rule.body, a.negated = true ∧ a ≠ head.negate ∧
              ∃ row ∈ db'.rows (RowSemantics.tableOf catalog a),
                Identical ⟨catalog, config, rule, iteration⟩ db' env a row) := by
  have ran := lower_ok lowered
  generalize context : (⟨catalog, config, rule, iteration⟩ : Context) = ctx at *
  obtain rfl : catalog = ctx.catalog := context ▸ rfl
  obtain rfl : config = ctx.config := context ▸ rfl
  obtain rfl : rule = ctx.rule := context ▸ rfl
  obtain ⟨sc, projection, arity, bodied, projected, rfl⟩ :=
    lowerRule_derive derives heads joined known ran
  rw [sets] at bodied ⊢
  obtain ⟨innerHead, innerBody⟩ := List.forall_mem_cons.mp inner
  have plain := @forall_insertionBody r head _ true _ innerBody innerHead
  have stored := @stores_insertionBody _ _ r head _ true known target stores
  obtain ⟨joins, shaped⟩ := lowerBody_lowered plain stored bodied
  obtain ⟨db', first, executed, grows, rows, adds⟩ := execute_adds
    (insertionBody true r head ctx.rule.body).2 shaped target columned arity fits projected
    fun rows env matched => (fitting rows env matched).kept
  have target' := grows.stored target.columns target
  obtain ⟨joins', shaped'⟩ := lowerBody_lowered plain (fun a inside relational r' present =>
    grows.stored target.columns (stored a inside relational r' present)) bodied
  have kept (chosen : List Row) (env : Env) :=
    @RowSemantics.match_grown ctx db db' parameter ctx.rule.guard _ chosen env _ _ grows
      (@forall_insertionBody r head _ true _ unread nofun)
  obtain ⟨db'', again, executed', -, -, adds'⟩ := execute_adds
    (insertionBody true r head ctx.rule.body).2 shaped' target' columned arity fits projected
    fun chosen env matched => (fitting chosen env ((kept chosen env).mp matched).1).kept
  refine ⟨_, db', db'', first.length, again.length, rfl, executed, executed', ?_⟩
  rw [List.length_eq_zero_iff]
  cases excepted : (insertionBody true r head ctx.rule.body).2 with
  | true =>
    rw [excepted] at adds adds'
    exact iff_of_true (nil_of_except (fun chosen env again => ((kept chosen env).mp again).1)
      rows adds adds') (.inl rfl)
  | false =>
    rw [excepted] at adds adds' unblanked
    simp only [Bool.false_eq_true, false_or]
    exact nil_iff_lost known arity target' (@tableOf_known ctx r head.negate known)
      (unblanked.resolve_left Bool.false_ne_true) (mem_insertionBody_unexcepted excepted own)
      (fun a inside => mem_insertionBody inside) kept
      (fun chosen env matched => denotes_match shaped fits projected matched) fitting rows adds adds'

end Repetition

section Noted

-- T notes a term beside each text of S, in a column without markers.
def notedCatalog : Catalog where
  peers := [⟨"A", ["S", "T"]⟩]
  relations := .ofList [
    ("S", { name := "S", peer := some "A", columns := [⟨"a", .text, false⟩] }),
    ("T", { name := "T", peer := some "A", columns := [⟨"a", .text, false⟩, ⟨"b", .text, true⟩],
            stratified := true })]

def notedHead (t : Term) : Atom := (Atom.ofRelation "T" [.var "x", t]).withKind .insertion

def notedRule (t : Term) : Rule :=
  { Rule.ofHead "m" (notedHead t) [.ofRelation "S" [.var "x"]] with distinct := true }

def notedContext (t : Term) : Context := ⟨notedCatalog, {}, notedRule t, .literal 0⟩

def notedTables : Database where
  tables := .ofList [
    ("S", { columns := [("a", some .text)], rows := [[.text "1"]] }),
    ("T_INS", { columns := [("a", some .text), ("b", some .text), ("STRATUM", some .integer)],
                rows := [] })]

def notedRelation : Relation :=
  { name := "T", peer := some "A", columns := [⟨"a", .text, false⟩, ⟨"b", .text, true⟩],
    stratified := true }

def notedCounts (t : Term) : Option (Nat × Nat) :=
  match (notedRule t).lower notedCatalog {} (.literal 0) with
  | .ok [statement] =>
    match notedTables.execute 0 statement with
    | .ok (db, n) =>
      match db.execute 0 statement with
      | .ok (_, m) => some (n, m)
      | .error _ => none
    | .error _ => none
  | _ => none

theorem noted_ran {t : Term} {n m : Nat} (counts : notedCounts t = some (n, m)) :
    ∃ statement db' db'', (notedRule t).lower notedCatalog {} (.literal 0) = .ok [statement] ∧
      notedTables.execute 0 statement = .ok (db', n) ∧ db'.execute 0 statement = .ok (db'', m) := by
  unfold notedCounts at counts
  split at counts
  · rename_i statement lowered
    split at counts
    · rename_i db' n' executed
      split at counts
      · rename_i db'' m' again
        cases counts
        exact ⟨statement, db', db'', lowered, executed, again⟩
      · cases counts
    · cases counts
  · cases counts

-- A labeled null is stored as its text, in which the second run does not see it.
theorem noted_null_added_again :
    notedCatalog.validateRule (notedRule (.lit (.labeledNull "k"))) = .ok () ∧
      (notedRule (.lit (.labeledNull "k"))).checkSafety = .ok () ∧
      ∃ statement db' db'',
        (notedRule (.lit (.labeledNull "k"))).lower notedCatalog {} (.literal 0) = .ok [statement] ∧
        notedTables.execute 0 statement = .ok (db', 1) ∧ db'.execute 0 statement = .ok (db'', 1) :=
  ⟨by cbv, by cbv, noted_ran (by decide +kernel)⟩

theorem noted_stored : notedRelation.StoredIn .insertion notedTables := by decide +kernel

theorem noted_stores {t : Term} : ∀ a ∈ (notedRule t).body, a.builtin? = none →
    StoresAtom notedCatalog notedTables a := by
  refine List.forall_mem_singleton.mpr fun _ r present => ?_
  have known : notedCatalog.relations.get? "S" =
      some { name := "S", peer := some "A", columns := [⟨"a", .text, false⟩] } := by cbv
  cases known.symm.trans present
  change Relation.StoredIn _ .base notedTables
  decide +kernel

def notedText : Term := .lit (.string "k")

theorem noted_match {rows : List Row} {env : Env}
    (matched : Match (notedContext notedText) notedTables 0 none
      (insertionBody true notedRelation (notedHead notedText) (notedRule notedText).body).1 rows env) :
    env = NameMap.empty.insert "x" ⟨⟨.text "1", some .text⟩, none⟩ := by
  have positives : RowSemantics.positives 0 (insertionBody true notedRelation (notedHead notedText)
      (notedRule notedText).body).1 = [(0, .ofRelation "S" [.var "x"])] := rfl
  have builtins : RowSemantics.builtins (insertionBody true notedRelation (notedHead notedText)
      (notedRule notedText).body).1 = [] := rfl
  obtain ⟨chosen, -, settled, -⟩ := matched
  rw [RowSemantics.joinedPlaces, positives, builtins] at settled
  rw [positives] at chosen
  obtain ⟨row, _, ⟨inside, -⟩, none, rfl⟩ := List.forall₂_cons_left_iff.mp chosen
  cases List.forall₂_nil_left_iff.mp none
  have stored : row ∈ [[Value.text "1"]] := inside
  cases List.mem_singleton.mp stored
  have read : RowSemantics.places notedCatalog notedTables (.ofRelation "S" [.var "x"]) [.text "1"] =
      [(⟨⟨.text "1", some .text⟩, Option.none⟩, .var "x")] := rfl
  have first : env = RowSemantics.bound .empty
      (RowSemantics.places notedCatalog notedTables (.ofRelation "S" [.var "x"]) [.text "1"]) := settled
  rw [first, read]
  rfl

theorem noted_fitting {rows : List Row} {env : Env}
    (matched : Match (notedContext notedText) notedTables 0 none
      (insertionBody true notedRelation (notedHead notedText) (notedRule notedText).body).1 rows env) :
    Fitting (notedContext notedText) 0 notedRelation (notedHead notedText) env := by
  rw [noted_match matched]
  have written : RowSemantics.writtenRow (notedContext notedText) 0 notedRelation (notedHead notedText)
      (NameMap.empty.insert "x" ⟨⟨.text "1", some .text⟩, none⟩) = [.text "1", .text "k", .integer 0] := rfl
  refine ⟨?_, ?_⟩
  · rw [written]
    exact .cons rfl (.cons rfl (.cons rfl .nil))
  · refine List.forall_mem_cons.mpr ⟨fun m meant => ?_, List.forall_mem_singleton.mpr fun m meant => ?_⟩
    · cases meant
      exact ⟨.inl rfl, .inr rfl⟩
    · cases meant
      exact ⟨.inr rfl, .inr rfl⟩

-- A text is told from nothing else, and the second run adds nothing.
theorem repeated_insertion_text : ∃ statement db' db'' m,
    (notedRule notedText).lower notedCatalog {} (.literal 0) = .ok [statement] ∧
      notedTables.execute 0 statement = .ok (db', 1) ∧
      db'.execute 0 statement = .ok (db'', m) ∧ m = 0 := by
  obtain ⟨statement, db', _, lowered, executed, _⟩ := @noted_ran notedText 1 0 (by decide +kernel)
  have known : notedCatalog.relations.get? (notedHead notedText).relationName =
      some notedRelation := by cbv
  obtain ⟨_, _, db'', n, m, same, ran, again, nothing⟩ :=
    @repeated_insertion_iff notedTables 0 notedRelation (notedHead notedText) notedCatalog {}
      (notedRule notedText) (.literal 0) [statement] rfl rfl rfl (List.cons_ne_nil _ _)
      (by decide) (by decide) lowered known (by decide +kernel) (List.cons_ne_nil _ _) noted_stored noted_stores
      (by decide) (.inr rfl) fun _ _ => noted_fitting
  cases same
  cases executed.symm.trans ran
  refine ⟨statement, db', db'', m, lowered, executed, again, nothing.mpr (.inr fun rows env matched => ?_)⟩
  refine .inl (List.forall_mem_cons.mpr ⟨fun _ _ m meant => ?_,
    List.forall_mem_singleton.mpr fun _ _ m meant => ?_⟩)
  · rw [noted_match matched] at meant
    cases meant
    exact rfl
  · cases meant
    exact rfl

end Noted

end Lowering

end PeerExchange
