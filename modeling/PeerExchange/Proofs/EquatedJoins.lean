import PeerExchange.Proofs.EquatedVariables
import PeerExchange.Proofs.WrittenRows

namespace PeerExchange

open Sql (BinaryOp Database Row Typed Value)

namespace RowSemantics

variable {ctx : Lowering.Context} {db : Database} {env env' final final' : Env} {x y : String}
  {e t : Term} {type : ColumnType} {base body before after : List Atom} {rows : List Row} {parameter : Int}

def equation (x : String) (e : Term) : Atom := .ofBuiltin .eq [.var x, e]

section Positives

theorem positives_atoms {position : Nat} :
    (positives position body).map Prod.snd = body.filter Atom.isPositive := by
  induction body generalizing position with
  | nil => rfl
  | cons a rest ih =>
    unfold positives
    split
    · rename_i positive
      rw [List.map_cons, ih, List.filter_cons_of_pos positive]
    · rename_i negative
      rw [ih, List.filter_cons_of_neg negative]

theorem joinedPlaces_eq : joinedPlaces ctx db body rows =
    (List.zipWith (places ctx.catalog db) (body.filter Atom.isPositive) rows).flatten := by
  rw [joinedPlaces, ← @positives_atoms body 0, List.zipWith_map_left]

theorem chosen_iff : List.Forall₂ (Chosen ctx db parameter none) (positives 0 body) rows ↔
    List.Forall₂ (fun a row => row ∈ db.rows (tableOf ctx.catalog a)) (body.filter Atom.isPositive)
      rows := by
  have unguarded : Chosen ctx db parameter none = fun p row => row ∈ db.rows (tableOf ctx.catalog p.2) :=
    funext fun p => funext fun row => by simp [Chosen]
  rw [← @positives_atoms body 0, List.forall₂_map_left_iff, unguarded]

theorem filter_equation : (before ++ equation x e :: after).filter Atom.isPositive =
    (before ++ after).filter Atom.isPositive := by
  rw [List.filter_append, List.filter_append, List.filter_cons_of_neg (by simp [equation, Atom.isPositive, Atom.ofBuiltin, Atom.relation?])]

theorem filter_substitute {σ : Substitution} : (body.map (Atom.substitute σ)).filter Atom.isPositive =
    (body.filter Atom.isPositive).map (Atom.substitute σ) := by
  rw [List.filter_map]
  rfl

theorem builtins_equation : builtins (before ++ equation x e :: after) =
    builtins before ++ equation x e :: builtins after := by
  rw [builtins, List.filter_append, List.filter_cons_of_pos rfl]
  rfl

theorem builtins_beside : builtins (before ++ after) = builtins before ++ builtins after :=
  List.filter_append ..

theorem builtins_substitute {σ : Substitution} :
    builtins (body.map (Atom.substitute σ)) = (builtins body).map (Atom.substitute σ) := by
  rw [builtins, List.filter_map]
  rfl

theorem joinedPlaces_equation : joinedPlaces ctx db (before ++ equation x e :: after) rows =
    joinedPlaces ctx db (before ++ after) rows := by
  rw [joinedPlaces_eq, joinedPlaces_eq, filter_equation]

theorem joinedPlaces_replaced : joinedPlaces (ctx.joining base x e) db
    (body.map (Atom.substitute (.single x e))) rows =
      (joinedPlaces ctx db body rows).map (replace x e) := by
  have each : (fun a row => places (ctx.joining base x e).catalog db (Atom.substitute (.single x e) a) row) =
      fun a row => (places ctx.catalog db a row).map (replace x e) :=
    funext fun a => funext fun row => places_replaced ctx.catalog db a row
  rw [joinedPlaces_eq, joinedPlaces_eq, filter_substitute, List.zipWith_map_left, each,
    List.map_flatten, List.map_zipWith]

theorem chosen_equation : List.Forall₂ (Chosen ctx db parameter none)
    (positives 0 (before ++ equation x e :: after)) rows ↔
      List.Forall₂ (Chosen ctx db parameter none) (positives 0 (before ++ after)) rows := by
  rw [chosen_iff, chosen_iff, filter_equation]

theorem chosen_replaced : List.Forall₂ (Chosen (ctx.joining base x e) db parameter none)
    (positives 0 (body.map (Atom.substitute (.single x e)))) rows ↔
      List.Forall₂ (Chosen ctx db parameter none) (positives 0 body) rows := by
  rw [chosen_iff, chosen_iff, filter_substitute, List.forall₂_map_left_iff]
  rfl

end Positives

section Equations

variable {names : List String} {steps more : List Step} {m m' : Meaning}

theorem Ordered.initial (ordered : Ordered names (steps ++ more)) : Ordered names steps := by
  induction steps generalizing names with
  | nil => exact .nil
  | cons s rest ih =>
    cases ordered with
    | binds builtin binds later => exact .binds builtin binds (ih later)
    | tests builtin ready later => exact .tests builtin ready (ih later)

theorem contains_after (known : names.contains y = true) : (RowSemantics.after names steps).contains y = true := by
  induction steps generalizing names with
  | nil => exact known
  | cons s rest ih =>
    refine ih ?_
    rw [List.contains_iff_mem] at known ⊢
    exact List.mem_append_right _ known

theorem settled_kept (keeps : ∀ y m, env.get? y = some m → final.get? y = some m)
    (settled : settled? env e = some m) : settled? final e = some m := by
  cases e with
  | «variable» w => exact keeps w.name m settled
  | constant own value => exact settled
  | skolem function args => exact settled

theorem settle_equation (named : ∀ y, names.contains y = env.contains y) (found : env.get? x = some m)
    (settled : settled? env e = some m') :
    Settle ctx final env (schedule ((builtins (before ++ equation x e :: after)).length + 1)
        (builtins (before ++ equation x e :: after)) names) ↔
      Holds .eq m.value m'.value ∧ Settle ctx final env
        (schedule ((builtins (before ++ after)).length + 1) (builtins (before ++ after)) names) := by
  have known : names.contains x = true := by rw [named, NameMap.contains_of_get? found]
  have image : ∀ v ∈ e.vars, names.contains v.name = true := by
    cases e with
    | «variable» w =>
      refine List.forall_mem_singleton.mpr ?_
      rw [named, NameMap.contains_of_get? settled]
    | constant own value => exact List.forall_mem_nil _
    | skolem function args => cases settled
  rw [builtins_equation, builtins_beside]
  have passed : (pass (builtins before) names).2.2 = RowSemantics.after names (pass (builtins before) names).1 :=
    pass_ordered.2
  obtain ⟨first, second, whole, without⟩ := @schedule_equation names (builtins before) (builtins after)
    (equation x e) rfl (by
      have own : Atom.free? (pass (builtins before) names).2.2 (.var x) = none := by
        simp only [Term.var, Atom.free?, passed, contains_after known, if_true]
      have other : Atom.free? (pass (builtins before) names).2.2 e = none := by
        cases e with
        | «variable» w =>
          rw [Atom.free?, passed, contains_after (image w List.mem_cons_self), if_pos rfl]
        | constant own value => rfl
        | skolem function args => rfl
      simp only [Atom.binding?, equation, Atom.ofBuiltin, Atom.builtin?, own, other])
    (by
      refine List.all_eq_true.mpr (List.forall_mem_cons.mpr ⟨?_, List.forall_mem_singleton.mpr ?_⟩)
      · refine List.all_eq_true.mpr (List.forall_mem_singleton.mpr ?_)
        rw [passed, contains_after known, Bool.true_or]
      · refine List.all_eq_true.mpr fun v inside => ?_
        rw [passed, contains_after (image v inside), Bool.true_or])
  have ordered : Ordered names (first ++ second) := without ▸ schedule_ordered _
  have tested {between : Env} (settle : Settle ctx between env first) :
      Tested ctx between ⟨equation x e, .eq, none⟩ ↔ Holds .eq m.value m'.value := by
    have keeps := settle_keeps named ordered.initial settle
    have left : denote ctx between (.var x) = some m := denote_variable (keeps x m found)
    have right : denote ctx between e = some m' := denoteWith_settled (settled_kept keeps settled)
    simp [Tested, sides, equation, Atom.ofBuiltin, Builtin.isFunction, left, right,
      Lowering.comparisonOf]
  rw [whole, without, settle_append, settle_append]
  simp only [Settle]
  constructor
  · rintro ⟨between, settle, test, later⟩
    exact ⟨(tested settle).mp test, between, settle, later⟩
  · rintro ⟨values, between, settle, later⟩
    exact ⟨between, settle, (tested settle).mpr values, later⟩

end Equations

section Matches

theorem nonnull_of_comparable (comparable : Comparable type x e) : e.isNull = false := by
  cases e with
  | «variable» v => rfl
  | constant own value =>
    cases value with
    | null => cases comparable.1
    | string s => rfl
    | integer n => rfl
    | labeledNull label => rfl
  | skolem function args => rfl

theorem renamed_keys (comparable : Comparable type x e) (replaced : Replaced type x e env env') :
    Renamed x e env.keys env'.keys := by
  have keys (env : Env) (y : String) : env.keys.contains y = env.contains y := by
    rw [Bool.eq_iff_iff, List.contains_iff_mem, NameMap.mem_keys]
  obtain ⟨own, image⟩ := contains_own replaced
  refine ⟨fun y other => ?_, by rw [keys, own], fun v inside => ?_⟩
  · rw [keys, keys, contains_replaced replaced other]
  · cases e with
    | «variable» w =>
      cases List.mem_singleton.mp inside
      rw [keys, image v rfl]
    | constant own value => cases inside
    | skolem function args => exact comparable.elim

-- A body joins the equated, at places of one type, and no built-in asks a constant for it.
structure Joins (ctx : Lowering.Context) (db : Database) (type : ColumnType) (x : String) (e : Term)
    (body : List Atom) : Prop where
  comparable : Comparable type x e
  fitted : ∀ a ∈ body, a.builtin? = none → ∀ row ∈ db.rows (tableOf ctx.catalog a),
    ∀ p ∈ places ctx.catalog db a row, Fitted type x e p
  arities : ∀ a ∈ body, a.isPositive = true → ∃ r, Lowering.relationOf ctx a = .ok r
  joined : ∀ v ∈ (equation x e).vars, ∃ a ∈ body, a.isPositive = true ∧
    ∃ t ∈ a.args, name? t = some v.name
  spared : ∀ a ∈ body, a.builtin?.isSome = true → Spared x e a.args
  related : ∀ a ∈ body, a.negated = true → a.builtin? = none

-- The variable and the term have the same marker.
def SameMark (x : String) (e : Term) (env : Env) : Prop :=
  ∃ m m', env.get? x = some m ∧ settled? env e = some m' ∧ m'.mark.value = m.mark.value

theorem exists_joined {guard : Option Guard}
    (chosen : List.Forall₂ (Chosen ctx db parameter guard) (positives 0 body) rows) {a : Atom}
    (member : a ∈ body) (positive : a.isPositive = true) : ∃ row ∈ db.rows (tableOf ctx.catalog a),
      ∀ p ∈ places ctx.catalog db a row, p ∈ joinedPlaces ctx db body rows := by
  have each : List.Forall₂ (fun a row => row ∈ db.rows (tableOf ctx.catalog a))
      (body.filter Atom.isPositive) rows := by
    rw [← @positives_atoms body 0, List.forall₂_map_left_iff]
    exact chosen.imp fun _ _ chosen => chosen.1
  obtain ⟨i, bound, rfl⟩ := List.getElem_of_mem (List.mem_filter.mpr ⟨member, positive⟩)
  have inRows : i < rows.length := each.length_eq ▸ bound
  refine ⟨rows[i], each.get bound inRows, fun p place => ?_⟩
  rw [joinedPlaces_eq]
  refine List.mem_flatten.mpr ⟨_, List.mem_iff_getElem.mpr ⟨i, ?_, rfl⟩, ?_⟩
  · simpa using ⟨bound, inRows⟩
  · simpa using place

theorem named_joinedPlaces
    (chosen : List.Forall₂ (Chosen ctx db parameter none) (positives 0 body) rows) {a : Atom}
    (member : a ∈ body) (positive : a.isPositive = true) {r : Relation}
    (found : Lowering.relationOf ctx a = .ok r) (arg : t ∈ a.args) (named : name? t = some y) :
    y ∈ (joinedPlaces ctx db body rows).filterMap fun p => name? p.2 := by
  obtain ⟨row, -, placed⟩ := exists_joined chosen member positive
  have terms := @Lowering.places_terms _ db _ _ row found
  obtain ⟨p, place, same⟩ := List.mem_map.mp (terms.symm ▸ arg)
  exact List.mem_filterMap.mpr ⟨p, placed p place, same ▸ named⟩

section Equivalence

variable (joins : Joins ctx db type x e body)
include joins

section Chosen

variable (chosen : List.Forall₂ (Chosen ctx db parameter none) (positives 0 body) rows)
include chosen

theorem fitted_joined : ∀ p ∈ joinedPlaces ctx db body rows, Fitted type x e p := by
  intro p inside
  obtain ⟨a, member, positive, row, stored, place⟩ := mem_joinedPlaces chosen inside
  exact joins.fitted a member (Atom.builtin?_of_isPositive positive) row stored p place

theorem named_equated {v : Variable} (inside : v ∈ (equation x e).vars) :
    v.name ∈ (joinedPlaces ctx db body rows).filterMap fun p => name? p.2 := by
  obtain ⟨a, member, positive, t, arg, named⟩ := joins.joined v inside
  obtain ⟨r, found⟩ := joins.arities a member positive
  exact named_joinedPlaces chosen member positive found arg named

theorem image_equated : ∀ w, e = .variable w →
    w.name ∈ (joinedPlaces ctx db body rows).filterMap fun p => name? p.2 := by
  rintro w rfl
  exact named_equated joins chosen (List.mem_cons_of_mem _ List.mem_cons_self)

theorem replaced_joined {c : Meaning} (uniform : Uniform type x e (joinedPlaces ctx db body rows) c) :
    Replaced type x e (bound .empty (joinedPlaces ctx db body rows))
      (bound .empty ((joinedPlaces ctx db body rows).map (replace x e))) :=
  replaced_of_uniform joins.comparable (image_equated joins chosen) (fitted_joined joins chosen)
    (named_equated joins chosen List.mem_cons_self) uniform

theorem match_iff_replaced {c : Meaning}
    (uniform : Uniform type x e (joinedPlaces ctx db body rows) c) :
    (∀ env, Match ctx db parameter none body rows env → ∃ env', Replaced type x e env env' ∧
      Match (ctx.joining base x e) db parameter none (body.map (Atom.substitute (.single x e))) rows
        env') ∧
    ∀ env', Match (ctx.joining base x e) db parameter none (body.map (Atom.substitute (.single x e)))
      rows env' → ∃ env, Replaced type x e env env' ∧ Match ctx db parameter none body rows env := by
  have replaced := replaced_joined joins chosen uniform
  have nonnull := nonnull_of_comparable joins.comparable
  have renamed := renamed_keys joins.comparable replaced
  have ordered : Ordered (bound .empty (joinedPlaces ctx db body rows)).keys
      (schedule ((builtins body).length + 1) (builtins body)
        (bound .empty (joinedPlaces ctx db body rows)).keys) := schedule_ordered _
  have spared : ∀ s ∈ schedule ((builtins body).length + 1) (builtins body)
      (bound .empty (joinedPlaces ctx db body rows)).keys, Spared x e s.atom.args := by
    intro s inside
    obtain ⟨member, called⟩ := List.mem_filter.mp (mem_schedule inside)
    exact joins.spared s.atom member (Bool.and_eq_true_iff.mp called).2
  have named (y : String) : (bound .empty (joinedPlaces ctx db body rows)).keys.contains y =
      (bound .empty (joinedPlaces ctx db body rows)).contains y := by
    rw [Bool.eq_iff_iff, List.contains_iff_mem, NameMap.mem_keys]
  have named' (y : String) :
      (bound .empty ((joinedPlaces ctx db body rows).map (replace x e))).keys.contains y =
        (bound .empty ((joinedPlaces ctx db body rows).map (replace x e))).contains y := by
    rw [Bool.eq_iff_iff, List.contains_iff_mem, NameMap.mem_keys]
  have settling := @settle_replaced ctx _ _ x e type base _ _ ordered named spared replaced
  rw [← Renamed.schedule_replaced renamed] at settling
  have ordered' : Ordered (bound .empty ((joinedPlaces ctx db body rows).map (replace x e))).keys
      (schedule ((builtins body).length + 1) ((builtins body).map (Atom.substitute (.single x e)))
        (bound .empty ((joinedPlaces ctx db body rows).map (replace x e))).keys) := schedule_ordered _
  have length : (builtins (body.map (Atom.substitute (.single x e)))).length = (builtins body).length := by
    rw [builtins_substitute, List.length_map]
  have absent {env env' : Env} (replaced : Replaced type x e env env') :
      (∀ a ∈ body, a.negated = true → ∀ row ∈ db.rows (tableOf ctx.catalog a),
        ¬ Identical ctx db env a row) ↔
      ∀ a ∈ body.map (Atom.substitute (.single x e)), a.negated = true →
        ∀ row ∈ db.rows (tableOf ctx.catalog a), ¬ Identical (ctx.joining base x e) db env' a row := by
    rw [List.forall_mem_map]
    refine forall₂_congr fun a inside => forall_congr' fun negative =>
      forall₂_congr fun row stored => not_congr ?_
    exact identical_replaced nonnull replaced
      (joins.fitted a inside (joins.related a inside negative) row stored)
  have agree {env env' : Env} (replaced : Replaced type x e env env')
      (keeps : ∀ y m, (bound .empty (joinedPlaces ctx db body rows)).get? y = some m → env.get? y = some m)
      (keeps' : ∀ y m, (bound .empty ((joinedPlaces ctx db body rows).map (replace x e))).get? y =
        some m → env'.get? y = some m) :=
    @agree_uniform ctx env env' x e type base _ c joins.comparable (image_equated joins chosen)
      (fitted_joined joins chosen) (named_equated joins chosen List.mem_cons_self) nonnull uniform keeps
      keeps' replaced
  constructor
  · rintro env ⟨-, joined, settled, none⟩
    obtain ⟨env', finals, settled'⟩ := settling.1 env settled
    refine ⟨env', finals, chosen_replaced.mpr chosen, ?_, ?_, (absent finals).mp none⟩
    · rw [joinedPlaces_replaced]
      exact (agree finals (settle_keeps named ordered settled)
        (settle_keeps named' ordered' settled')).mp joined
    · rw [joinedPlaces_replaced, length, builtins_substitute]
      exact settled'
  · rintro env' ⟨-, joined, settled', none⟩
    rw [joinedPlaces_replaced] at joined settled'
    rw [length, builtins_substitute] at settled'
    obtain ⟨env, finals, settled⟩ := settling.2 env' settled'
    refine ⟨env, finals, chosen, ?_, settled, (absent finals).mpr none⟩
    exact (agree finals (settle_keeps named ordered settled)
      (settle_keeps named' ordered' settled')).mpr joined

end Chosen

end Equivalence

theorem Match.keeps {guard : Option Guard} (matched : Match ctx db parameter guard body rows env) :
    ∀ y m, (bound .empty (joinedPlaces ctx db body rows)).get? y = some m → env.get? y = some m :=
  settle_keeps (fun y => by rw [Bool.eq_iff_iff, List.contains_iff_mem, NameMap.mem_keys])
    (schedule_ordered _) matched.settled

theorem match_equation (joins : Joins ctx db type x e (before ++ after)) :
    Match ctx db parameter none (before ++ equation x e :: after) rows env ↔
      Match ctx db parameter none (before ++ after) rows env ∧ ∃ m m', env.get? x = some m ∧
        settled? env e = some m' ∧ Holds .eq m.value m'.value := by
  have starts (chosen : List.Forall₂ (Chosen ctx db parameter none) (positives 0 (before ++ after)) rows) :
      ∃ m m', (bound .empty (joinedPlaces ctx db (before ++ after) rows)).get? x = some m ∧
        settled? (bound .empty (joinedPlaces ctx db (before ++ after) rows)) e = some m' := by
    have bound {v : Variable} (inside : v ∈ (equation x e).vars) :
        ∃ m, (bound .empty (joinedPlaces ctx db (before ++ after) rows)).get? v.name = some m := by
      obtain ⟨m, first⟩ := Option.isSome_iff_exists.mp
        (first?_isSome.mpr (named_equated joins chosen inside))
      exact ⟨m, get?_start.trans first⟩
    obtain ⟨m, found⟩ := bound List.mem_cons_self
    refine ⟨m, ?_⟩
    cases e with
    | «variable» w =>
      obtain ⟨m', settled⟩ := @bound w (List.mem_cons_of_mem _ List.mem_cons_self)
      exact ⟨m', found, settled⟩
    | constant own value => exact ⟨_, found, rfl⟩
    | skolem function args => exact joins.comparable.elim
  have absent : (∀ a ∈ before ++ equation x e :: after, a.negated = true →
      ∀ row ∈ db.rows (tableOf ctx.catalog a), ¬ Identical ctx db env a row) ↔
      ∀ a ∈ before ++ after, a.negated = true →
        ∀ row ∈ db.rows (tableOf ctx.catalog a), ¬ Identical ctx db env a row := by
    simp only [List.forall_mem_append, List.forall_mem_cons]
    exact and_congr_right fun _ => and_iff_right nofun
  have named (y : String) : (bound .empty (joinedPlaces ctx db (before ++ after) rows)).keys.contains y =
      (bound .empty (joinedPlaces ctx db (before ++ after) rows)).contains y := by
    rw [Bool.eq_iff_iff, List.contains_iff_mem, NameMap.mem_keys]
  constructor
  · rintro ⟨chosen, joined, settled, none⟩
    rw [chosen_equation] at chosen
    rw [joinedPlaces_equation] at joined settled
    obtain ⟨m, m', found, image⟩ := starts chosen
    obtain ⟨values, settled⟩ := (settle_equation named found image).mp settled
    have matched : Match ctx db parameter Option.none (before ++ after) rows env :=
      ⟨chosen, joined, settled, absent.mp none⟩
    exact ⟨matched, m, m', matched.keeps x m found, settled_kept matched.keeps image, values⟩
  · rintro ⟨matched, n, n', found', image', values⟩
    obtain ⟨m, m', found, image⟩ := starts matched.chosen
    cases found'.symm.trans (matched.keeps x m found)
    cases image'.symm.trans (settled_kept matched.keeps image)
    refine ⟨chosen_equation.mpr matched.chosen, ?_, ?_, absent.mpr matched.absent⟩
    · rw [joinedPlaces_equation]
      exact matched.joined
    · rw [joinedPlaces_equation]
      exact (settle_equation named found image).mpr ⟨values, matched.settled⟩

-- The matches of the body with the one in place of the other are those in which the equated have the
-- same marker.
theorem match_joining (joins : Joins ctx db type x e (before ++ after)) :
    (∀ env, Match ctx db parameter none (before ++ equation x e :: after) rows env → SameMark x e env →
      ∃ env', Replaced type x e env env' ∧ Match (ctx.joining base x e) db parameter none
        ((before ++ after).map (Atom.substitute (.single x e))) rows env') ∧
    ∀ env', Match (ctx.joining base x e) db parameter none
        ((before ++ after).map (Atom.substitute (.single x e))) rows env' →
      ∃ env, Replaced type x e env env' ∧ SameMark x e env ∧
        Match ctx db parameter none (before ++ equation x e :: after) rows env := by
  constructor
  · rintro env matched ⟨m, m', found, settled, marks⟩
    obtain ⟨matched, n, n', found', settled', values⟩ := (match_equation joins).mp matched
    cases found.symm.trans found'
    cases settled.symm.trans settled'
    have chosen := matched.chosen
    have uniform := uniform_of_equation joins.comparable (fitted_joined joins chosen)
      (named_equated joins chosen List.mem_cons_self) (image_equated joins chosen) matched.keeps
      matched.joined found settled values marks
    exact (match_iff_replaced joins chosen uniform).1 env matched
  · intro env' matched'
    have chosen := chosen_replaced.mp matched'.chosen
    have keeps := matched'.keeps
    have agree := matched'.joined
    rw [joinedPlaces_replaced] at keeps agree
    obtain ⟨c, uniform⟩ := uniform_of_agree joins.comparable (fitted_joined joins chosen)
      (named_equated joins chosen List.mem_cons_self) (image_equated joins chosen)
      (nonnull_of_comparable joins.comparable) keeps agree
    obtain ⟨env, replaced, matched⟩ := (match_iff_replaced joins chosen uniform).2 env' matched'
    obtain ⟨m, start, like⟩ := standing uniform (named_equated joins chosen List.mem_cons_self)
      fun v same => .inl ⟨v, rfl, same⟩
    have found := matched.keeps x m start
    obtain ⟨m', settled, within, near⟩ : ∃ m' , settled? env e = some m' ∧
        ∃ within, Resembles within m m' := by
      cases shape : e with
      | «variable» w =>
        obtain ⟨m', start', like'⟩ := standing uniform (image_equated joins chosen w shape)
          fun v same => .inr ⟨w, shape, v, rfl, same⟩
        exact ⟨m', matched.keeps w.name m' start', none, like.symm.trans like'⟩
      | constant own value =>
        exact ⟨_, rfl, some type, like.symm.trans (uniform.image own value shape)⟩
      | skolem function args =>
        have comparable := joins.comparable
        rw [shape] at comparable
        exact comparable.elim
    have known : m.value.value ≠ .null := like.value ▸ uniform.known
    exact ⟨env, replaced, ⟨m, m', found, settled, near.mark⟩,
      (match_equation joins).mpr ⟨matched, m, m', found, settled, near.holds known⟩⟩

end Matches

end RowSemantics

end PeerExchange
