import PeerExchange.Proofs.GroupEffects

namespace PeerExchange

open Sql (Batch Query Select Statement)

namespace Sql

variable {limit : Nat} {all : Bool} {merging : Option (Nat × Bool)} {s next whole : Statement}
  {run : List Statement} {b : Batch} {table : String} {columns : List String} {q : Query}

section Texts

theorem size_intercalate_append (separator part : String) (parts : List String) :
    (separator.intercalate (parts ++ [part])).utf8ByteSize ≤
      (separator.intercalate parts).utf8ByteSize + separator.utf8ByteSize + part.utf8ByteSize := by
  by_cases started : parts = []
  · rw [started, List.nil_append, String.intercalate_singleton]
    exact Nat.le_add_left _ _
  · refine Nat.le_of_eq ?_
    rw [String.intercalate_append_of_ne_nil started (List.cons_ne_nil _ _),
      String.intercalate_singleton, String.utf8ByteSize_append, String.utf8ByteSize_append]

theorem Query.render_plain (plain : q.except = none) :
    q.render = (if q.all then " UNION ALL " else " UNION ").intercalate
      (q.selects.map Select.render) := by
  rw [render, plain, String.append_empty]

theorem Query.render_kind (plain : q.except = none) (kind : q.selects.length = 1 ∨ q.all = all) :
    q.render = Query.render { selects := q.selects, all := all } := by
  rw [q.render_plain plain, Query.render_plain rfl]
  rcases kind with single | same
  · obtain ⟨arm, only⟩ := List.length_eq_one_iff.mp single
    rw [only, List.map_singleton, String.intercalate_singleton, String.intercalate_singleton]
  · rw [same]

-- The estimate counts eleven bytes between two arms, which is the longer of the two separators.
theorem Query.size_append (all : Bool) (selects : List Select) (arm : Select) :
    (Query.render { selects := selects ++ [arm], all := all }).utf8ByteSize ≤
      (Query.render { selects := selects, all := all }).utf8ByteSize + 11 +
        arm.render.utf8ByteSize := by
  have longest : (if all then " UNION ALL " else " UNION ").utf8ByteSize ≤ 11 := by
    cases all
    · exact Nat.le_of_ble_eq_true rfl
    · exact Nat.le_of_ble_eq_true rfl
  rw [Query.render_plain rfl, Query.render_plain rfl, List.map_append, List.map_singleton]
  refine Nat.le_trans (size_intercalate_append _ _ _) (Nat.add_le_add_right ?_ _)
  exact Nat.add_le_add_left longest _

theorem Statement.size_insert (table : String) (columns : List String) (q : Query) :
    (Statement.insert table columns (.query q)).render.utf8ByteSize =
      ("INSERT INTO " ++ table ++ " (" ++ ", ".intercalate columns ++ ") ").utf8ByteSize +
        q.render.utf8ByteSize :=
  String.utf8ByteSize_append

end Texts

def Statement.SingleArm : Statement → Prop
  | .insert _ _ (.query q) => q.selects.length = 1
  | _ => True

def Statement.union (all : Bool) (table : String) (columns : List String) (queries : List Query) :
    Statement :=
  .insert table columns (.query { selects := queries.flatMap Query.selects, all := all })

-- What a run of statements becomes: a single one itself, and insertions without EXCEPT into the same
-- columns of a table one insertion with all their arms.
inductive Batch.StandsFor (merging : Option (Nat × Bool)) : List Statement → Statement → Prop
  | alone (s : Statement) : StandsFor merging [s] s
  | union {limit : Nat} {all : Bool} {table : String} {columns : List String} {queries : List Query}
      (wanted : merging = some (limit, all)) (several : 1 < queries.length)
      (plain : ∀ q ∈ queries, q.except = none)
      (short : (Statement.union all table columns queries).render.utf8ByteSize < limit) :
      StandsFor merging (queries.map fun q => .insert table columns (.query q))
        (.union all table columns queries)

theorem Statement.merge?_eq_some (merged : Statement.merge? limit all s next = some whole) :
    ∃ table columns first second, s = .insert table columns (.query first) ∧
      next = .insert table columns (.query second) ∧ first.except = none ∧ second.except = none ∧
      (first.selects.length = 1 ∨ first.all = all) ∧
      s.render.utf8ByteSize + 11 + second.render.utf8ByteSize < limit ∧
      whole = .insert table columns
        (.query { selects := first.selects ++ second.selects, all := all }) := by
  unfold Statement.merge? at merged
  split at merged
  · rename_i table columns first table' columns' second
    split at merged
    · rename_i fits
      simp only [Bool.and_eq_true, decide_eq_true_eq, Bool.or_eq_true, Option.isNone_iff_eq_none]
        at fits
      obtain ⟨⟨⟨⟨⟨rfl, rfl⟩, plain⟩, plainNext⟩, kind⟩, short⟩ := fits
      cases merged
      refine ⟨table, columns, first, second, rfl, rfl, plain, plainNext, kind, short, ?_⟩
      rw [plain]
    · cases merged
  · cases merged

theorem Statement.size_merge? (single : next.SingleArm)
    (merged : Statement.merge? limit all s next = some whole) : whole.render.utf8ByteSize < limit := by
  obtain ⟨table, columns, first, second, rfl, rfl, plain, plainNext, kind, short, rfl⟩ :=
    merge?_eq_some merged
  obtain ⟨arm, only⟩ := List.length_eq_one_iff.mp single
  have longer := Query.size_append all first.selects arm
  rw [← Query.render_kind plain kind] at longer
  have same : second.render = arm.render := by
    rw [Query.render_plain plainNext, only, List.map_singleton, String.intercalate_singleton]
  rw [size_insert, same] at short
  rw [size_insert, only]
  omega

namespace Batch

theorem StandsFor.merge (stands : StandsFor (some (limit, all)) run s) (single : next.SingleArm)
    (merged : Statement.merge? limit all s next = some whole) :
    StandsFor (some (limit, all)) (run ++ [next]) whole := by
  have short := Statement.size_merge? single merged
  obtain ⟨table, columns, first, second, same, rfl, plain, plainNext, -, -, rfl⟩ :=
    Statement.merge?_eq_some merged
  cases stands with
  | alone =>
    subst same
    have two : Statement.insert table columns
        (.query { selects := first.selects ++ second.selects, all := all }) =
        .union all table columns [first, second] := by
      simp [Statement.union]
    rw [two] at short ⊢
    exact @StandsFor.union _ _ _ table columns [first, second] rfl Nat.one_lt_two
      (by simp [plain, plainNext]) short
  | @union _ _ _ _ queries wanted several plains _ =>
    cases wanted
    cases same
    have more : Statement.insert table columns
        (.query { selects := queries.flatMap Query.selects ++ second.selects, all := all }) =
        .union all table columns (queries ++ [second]) := by
      simp [Statement.union]
    have runs : (queries.map fun q => Statement.insert table columns (.query q)) ++
        [.insert table columns (.query second)] =
        (queries ++ [second]).map fun q => .insert table columns (.query q) := by
      rw [List.map_append, List.map_singleton]
    rw [more] at short ⊢
    rw [runs]
    refine .union rfl ?_ (List.forall_mem_append.mpr ⟨plains, List.forall_mem_singleton.mpr plainNext⟩)
      short
    rw [List.length_append]
    exact Nat.lt_add_right _ several

-- The runs that the statements of a batch stand for, the last one first, and all that they cover.
structure Covers (merging : Option (Nat × Bool)) (b : Batch) (runs : List (List Statement))
    (added : List Statement) : Prop where
  stands : List.Forall₂ (StandsFor merging) runs b.reversed
  covered : runs.reverse.flatten = added

theorem Covers.push {runs : List (List Statement)} {added : List Statement}
    (covers : Covers merging b runs added) (single : s.SingleArm) :
    ∃ runs, Covers merging (b.push merging s) runs (added ++ [s]) := by
  obtain ⟨stands, rfl⟩ := covers
  have apart : Covers merging ⟨s :: b.reversed⟩ ([s] :: runs) (runs.reverse.flatten ++ [s]) :=
    ⟨.cons (.alone s) stands, by rw [List.reverse_cons, List.flatten_concat]⟩
  unfold Batch.push
  split
  · rename_i limit all last before last_first
    split
    · rename_i whole merged
      rw [last_first] at stands
      cases stands with
      | @cons run _ earlier _ here rest =>
        refine ⟨(run ++ [s]) :: earlier, .cons (here.merge single merged) rest, ?_⟩
        rw [List.reverse_cons, List.reverse_cons, List.flatten_concat, List.flatten_concat,
          List.append_assoc]
    · exact ⟨_, apart⟩
  · exact ⟨_, apart⟩

theorem Covers.foldl {runs : List (List Statement)} {added : List Statement}
    (covers : Covers merging b runs added) {ss : List Statement} (single : ∀ s ∈ ss, s.SingleArm) :
    ∃ runs, Covers merging (ss.foldl (Batch.push merging) b) runs (added ++ ss) := by
  induction ss generalizing b runs added with
  | nil => exact ⟨runs, by rwa [List.append_nil]⟩
  | cons s rest ih =>
    obtain ⟨here, later⟩ := List.forall_mem_cons.mp single
    obtain ⟨longer, pushed⟩ := covers.push here
    rw [← List.singleton_append, ← List.append_assoc]
    exact ih pushed later

theorem StandsFor.length (stands : StandsFor merging run s) (unmerged : merging = none) :
    run.length = 1 := by
  cases stands with
  | alone => rfl
  | union wanted => cases unmerged.symm.trans wanted

theorem StandsFor.flatten {runs : List (List Statement)} {statements : List Statement}
    (stands : List.Forall₂ (StandsFor none) runs statements) : runs.flatten = statements := by
  induction stands with
  | nil => rfl
  | cons here _ ih =>
    cases here with
    | alone => rw [List.flatten_cons, ih, List.singleton_append]
    | union wanted => cases wanted

end Batch

end Sql

namespace Lowering

variable {ctx : Context} {head : Atom} {r : Relation} {setSemantics : Bool} {s : Statement}
  {ss : List Statement} {catalog : Catalog} {config : Config} {iteration : Iteration}

theorem singleArm_lowerInsert (lowered : lowerInsert ctx head r setSemantics = .ok s) :
    s.SingleArm := by
  unfold lowerInsert at lowered
  dsimp only at lowered
  split at lowered
  · obtain ⟨values, -, lowered⟩ := Compiled.bind_ok.mp lowered
    cases lowered
    trivial
  · obtain ⟨scope, -, lowered⟩ := Compiled.bind_ok.mp lowered
    obtain ⟨projection, -, lowered⟩ := Compiled.bind_ok.mp lowered
    cases lowered
    rfl

theorem singleArm_lowerDelete (lowered : lowerDelete ctx head r = .ok s) : s.SingleArm := by
  unfold lowerDelete at lowered
  dsimp only at lowered
  split at lowered
  · split at lowered
    · cases lowered
    · obtain ⟨conditions, -, lowered⟩ := Compiled.bind_ok.mp lowered
      cases lowered
      trivial
  · obtain ⟨scope, -, lowered⟩ := Compiled.bind_ok.mp lowered
    obtain ⟨own, -, lowered⟩ := Compiled.bind_ok.mp lowered
    cases lowered
    trivial

theorem singleArm_lowerView (lowered : lowerView ctx head r = .ok s) : s.SingleArm := by
  obtain ⟨scope, -, lowered⟩ := Compiled.bind_ok.mp lowered
  obtain ⟨projection, -, lowered⟩ := Compiled.bind_ok.mp lowered
  cases lowered
  trivial

theorem singleArm_lowerRule (lowered : lowerRule ctx = .ok ss) : ∀ s ∈ ss, s.SingleArm := by
  unfold lowerRule at lowered
  split at lowered
  · obtain ⟨r, -, lowered⟩ := Compiled.bind_ok.mp lowered
    split at lowered
    · obtain ⟨s, inserts, lowered⟩ := Compiled.bind_ok.mp lowered
      cases lowered
      exact List.forall_mem_singleton.mpr (singleArm_lowerInsert inserts)
    · obtain ⟨s, deletes, lowered⟩ := Compiled.bind_ok.mp lowered
      cases lowered
      exact List.forall_mem_singleton.mpr (singleArm_lowerDelete deletes)
    · obtain ⟨s, views, lowered⟩ := Compiled.bind_ok.mp lowered
      cases lowered
      exact List.forall_mem_singleton.mpr (singleArm_lowerView views)
    · obtain ⟨s, inserts, lowered⟩ := Compiled.bind_ok.mp lowered
      cases lowered
      refine List.forall_mem_cons.mpr ⟨trivial, ?_⟩
      exact List.forall_mem_singleton.mpr (singleArm_lowerInsert inserts)
  · cases lowered

-- The statements of a rule, and the failure of one that has none.
def statementsOf (catalog : Catalog) (config : Config) (iteration : Iteration) (r : Rule) :
    List Statement :=
  match r.lower catalog config iteration with
  | .ok statements => statements
  | .error _ => []

def failureOf? (catalog : Catalog) (config : Config) (iteration : Iteration) (r : Rule) :
    Option CompileError :=
  match r.lower catalog config iteration with
  | .ok _ => none
  | .error failure => some failure

theorem singleArm_statementsOf (r : Rule) :
    ∀ s ∈ statementsOf catalog config iteration r, s.SingleArm := by
  unfold statementsOf
  split
  · rename_i lowered
    exact singleArm_lowerRule (lower_ok lowered)
  · exact List.forall_mem_nil _

theorem Group.add_eq (g : Group) (r : Rule) :
    g.add catalog config iteration r =
      { batch := (statementsOf catalog config iteration r).foldl (Batch.push (merging config)) g.batch
        failures := g.failures ++ (failureOf? catalog config iteration r).toList } := by
  unfold Group.add statementsOf failureOf?
  cases r.lower catalog config iteration with
  | ok statements => simp
  | error failure => rfl

theorem foldl_add_eq (rules : List Rule) (g : Group) :
    rules.foldl (Group.add catalog config iteration) g =
      { batch := (rules.flatMap (statementsOf catalog config iteration)).foldl
          (Batch.push (merging config)) g.batch
        failures := g.failures ++ rules.filterMap (failureOf? catalog config iteration) } := by
  induction rules generalizing g with
  | nil => simp
  | cons r rest ih =>
    rw [List.foldl_cons, ih, Group.add_eq, List.flatMap_cons, List.foldl_append, List.filterMap_cons,
      List.append_assoc]
    cases failureOf? catalog config iteration r <;> rfl

theorem lowerGroup_failures (catalog : Catalog) (config : Config) (iteration : Iteration)
    (rules : List Rule) : (lowerGroup catalog config iteration rules).failures =
      rules.filterMap (failureOf? catalog config iteration) := by
  rw [lowerGroup, foldl_add_eq, List.nil_append]

theorem lowerGroup_stands (catalog : Catalog) (config : Config) (iteration : Iteration)
    (rules : List Rule) :
    ∃ runs : List (List Statement),
      runs.flatten = rules.flatMap (statementsOf catalog config iteration) ∧
      List.Forall₂ (Batch.StandsFor (merging config)) runs
        (lowerGroup catalog config iteration rules).statements := by
  have nothing : Batch.Covers (merging config) {} [] [] := ⟨.nil, rfl⟩
  have single : ∀ s ∈ rules.flatMap (statementsOf catalog config iteration), s.SingleArm := by
    intro s inside
    obtain ⟨r, -, own⟩ := List.mem_flatMap.mp inside
    exact singleArm_statementsOf r s own
  obtain ⟨reversed, stands, covered⟩ := nothing.foldl single
  refine ⟨reversed.reverse, covered, ?_⟩
  rw [lowerGroup, foldl_add_eq]
  exact List.rel_reverse stands

theorem lowerGroup_unmerged (unmerged : config.mergeStatements = false) (rules : List Rule) :
    (lowerGroup catalog config iteration rules).statements =
      rules.flatMap (statementsOf catalog config iteration) := by
  obtain ⟨runs, covered, stands⟩ := lowerGroup_stands catalog config iteration rules
  have off : merging config = none := by rw [merging, unmerged, if_neg Bool.false_ne_true]
  rw [off] at stands
  rw [← covered, Batch.StandsFor.flatten stands]

-- The statements of a group stand for the statements of its rules, one run after the other, and its
-- failures are those of its rules.
theorem lowerGroup_runs (catalog : Catalog) (config : Config) (iteration : Iteration)
    (rules : List Rule) :
    ∃ runs : List (List Statement),
      runs.flatten = rules.flatMap (statementsOf catalog config iteration) ∧
      List.Forall₂ (Batch.StandsFor (merging config)) runs
        (lowerGroup catalog config iteration rules).statements ∧
      (∀ run ∈ runs, config.mergeStatements = true ∨ run.length = 1) ∧
      (lowerGroup catalog config iteration rules).failures =
        rules.filterMap (failureOf? catalog config iteration) := by
  obtain ⟨runs, covered, stands⟩ := lowerGroup_stands catalog config iteration rules
  refine ⟨runs, covered, stands, fun run inside => ?_, lowerGroup_failures _ _ _ _⟩
  by_cases merges : config.mergeStatements = true
  · exact .inl merges
  · obtain ⟨s, -, here⟩ := Compiled.forall₂_result stands inside
    exact .inr (here.length (by rw [merging, if_neg merges]))

end Lowering

end PeerExchange
