import PeerExchange.Proofs.NameMap
import PeerExchange.Proofs.RowSemantics

namespace PeerExchange

theorem Binary.order_swap (a b : Binary) : (a.order b).swap = b.order a := by
  simp only [Binary.order, Int.min_comm b.exponent, Nat.compare_swap]

theorem Floating.order_swap (x y : Floating) : (x.order y).swap = y.order x := by
  cases x with
  | finite na a =>
    cases y with
    | finite nb b =>
      rw [order, order, Bool.and_comm]
      split
      · rfl
      · cases na <;> cases nb <;> simp [negated, Binary.order_swap]
    | infinite nb => cases nb <;> rfl
  | infinite na =>
    cases y with
    | finite nb b => cases na <;> rfl
    | infinite nb => cases na <;> cases nb <;> rfl

namespace Sql

namespace Value

theorem ofInteger_ne_null (n : Int) : ofInteger n ≠ .null := by
  unfold ofInteger
  split <;> exact nofun

theorem order_swap (v w : Value) : (v.order w).swap = w.order v := by
  cases v with
  | null => cases w <;> rfl
  | integer m =>
    cases w with
    | integer n => exact Int.compare_swap m n
    | real y => exact Floating.order_swap _ _
    | null => rfl
    | text t => rfl
  | real x =>
    cases w with
    | integer n => exact Floating.order_swap _ _
    | real y => exact Floating.order_swap _ _
    | null => rfl
    | text t => rfl
  | text s =>
    cases w with
    | text t => exact (Std.OrientedOrd.eq_swap (a := t) (b := s)).symm
    | _ => rfl

theorem order_self (v : Value) : v.order v = .eq := by
  have swapped := order_swap v v
  cases same : v.order v with
  | eq => rfl
  | lt => simp [same] at swapped
  | gt => simp [same] at swapped

theorem rank_of_order {v w : Value} (same : v.order w = .eq) : v.rank = w.rank := by
  cases v <;> cases w <;> first | rfl | cases same

theorem rank_ofNumeral (n : Numeral) : (ofNumeral n).rank = 1 := by
  unfold ofNumeral
  split
  · rfl
  · unfold ofFloating
    cases n.toFloating.integer? <;> rfl

-- Of values that a text column keeps, only one that is no number is the same as another when it is
-- read as an integer.
theorem store_integer_of_texts {v w : Value} (left : v.store .text = v) (right : w.store .text = w)
    (same : (v.store .integer).order w = .eq) : v.store .integer = v := by
  cases v with
  | null => rfl
  | integer n => cases left
  | real x => cases left
  | text s =>
    cases parsed : ofNumericText? s with
    | none => simp [store, parsed]
    | some number =>
      obtain ⟨n, -, rfl⟩ := Option.map_eq_some_iff.mp parsed
      have ranks := rank_of_order same
      rw [store, parsed, Option.getD_some, rank_ofNumeral] at ranks
      cases w with
      | null => cases ranks
      | integer n => cases right
      | real x => cases right
      | text t => cases ranks

theorem same_self (v : Value) : v.same v = true := by
  simp [same, order_self]

theorem same_comm (v w : Value) : v.same w = w.same v := by
  unfold same
  rw [← order_swap w v]
  cases w.order v <;> rfl

end Value

end Sql

namespace RowSemantics

open Sql (BinaryOp Typed Value)

variable {ctx : Lowering.Context} {env : Env} {ps : List (Meaning × Term)} {x : String} {t : Term}

def name? : Term → Option String
  | .variable v => if v.skolem.isNone then some v.name else none
  | _ => none

theorem name?_eq (named : name? t = some x) : ∃ v, t = .variable v ∧ v.name = x ∧ v.skolem = none := by
  unfold name? at named
  split at named
  · rename_i v
    split at named
    · rename_i plain
      exact ⟨v, rfl, Option.some.inj named, Option.isNone_iff_eq_none.mp plain⟩
    · cases named
  · cases named

theorem binder?_eq_some {β : Type} {known : NameMap β} :
    binder? known t = some x ↔ name? t = some x ∧ known.contains x = false := by
  cases t with
  | «variable» v =>
    simp only [binder?, name?]
    cases v.skolem <;> simp +contextual [and_comm]
  | constant type value => simp [binder?, name?]
  | skolem function args => simp [binder?, name?]

def first? {α : Type} (x : String) (ps : List (α × Term)) : Option α :=
  (ps.find? fun p => name? p.2 = some x).map Prod.fst

theorem first?_isSome {α : Type} {ps : List (α × Term)} :
    (first? x ps).isSome = true ↔ x ∈ ps.filterMap fun p => name? p.2 := by
  rw [first?, Option.isSome_map, List.find?_isSome, List.mem_filterMap]
  simp only [decide_eq_true_eq]

theorem first?_append {α : Type} {ps more : List (α × Term)} :
    first? x (ps ++ more) = (first? x ps).or (first? x more) := by
  rw [first?, List.find?_append, Option.map_or]
  rfl

theorem first?_map {α β : Type} (f : α → β) (ps : List (α × Term)) :
    first? x (ps.map fun p => (f p.1, p.2)) = (first? x ps).map f := by
  rw [first?, first?, List.find?_map, Option.map_map, Option.map_map]
  rfl

theorem get?_bound : (bound env ps).get? x = (env.get? x).or (first? x ps) := by
  induction ps generalizing env with
  | nil => simp [bound, first?]
  | cons p rest ih =>
    obtain ⟨m, t⟩ := p
    unfold bound
    split
    · rename_i y binds
      obtain ⟨named, fresh⟩ := binder?_eq_some.mp binds
      have unbound : env.get? y = none := by simpa [NameMap.contains] using fresh
      rw [ih, NameMap.get?_insert]
      by_cases same : y = x
      · subst same
        simp [unbound, first?, named]
      · simp [first?, named, same]
    · rename_i none
      rw [ih]
      by_cases named : name? t = some x
      · have known : env.contains x = true := by
          by_contra fresh
          have binds := binder?_eq_some.mpr ⟨named, Bool.eq_false_iff.mpr fresh⟩
          rw [none] at binds
          cases binds
        obtain ⟨own, found⟩ := NameMap.get?_of_contains known
        simp [found]
      · simp [first?, named]

theorem first?_of_apart {α : Type} {ps : List (α × Term)}
    (apart : ps.Pairwise fun p q => name? p.2 = some x → name? q.2 ≠ some x) {p : α × Term}
    (inside : p ∈ ps) (named : name? p.2 = some x) : first? x ps = some p.1 := by
  induction ps with
  | nil => cases inside
  | cons q rest ih =>
    obtain ⟨first, apart⟩ := List.pairwise_cons.mp apart
    rcases List.mem_cons.mp inside with rfl | later
    · simp [first?, named]
    · have other : name? q.2 ≠ some x := fun same => first p later same named
      simpa [first?, other] using ih apart later

theorem first?_of_nodup {α : Type} {ps : List (α × Term)}
    (distinct : (ps.map fun p => name? p.2).Nodup) {p : α × Term} (inside : p ∈ ps)
    (named : name? p.2 = some x) : first? x ps = some p.1 := by
  refine first?_of_apart ?_ inside named
  refine (List.pairwise_map.mp distinct).imp fun differ here there => differ ?_
  rw [here, there]

theorem bound_append {more : List (Meaning × Term)} :
    bound env (ps ++ more) = bound (bound env ps) more := by
  induction ps generalizing env with
  | nil => rfl
  | cons p rest ih =>
    obtain ⟨m, t⟩ := p
    rw [List.cons_append, bound, bound]
    split <;> exact ih

theorem contains_bound :
    (bound env ps).contains x = true ↔ env.contains x = true ∨ x ∈ ps.filterMap fun p => name? p.2 := by
  rw [NameMap.contains, get?_bound, Option.isSome_or, Bool.or_eq_true, first?_isSome, NameMap.contains]

theorem agree_iff {final : Env} {op : BinaryOp} : Agree ctx final op env ps ↔
    ∀ before p after, ps = before ++ p :: after → binder? (bound env before) p.2 = none →
      Agrees ctx final op p.1 p.2 := by
  induction ps generalizing env with
  | nil =>
    refine iff_of_true trivial fun before p after split => ?_
    cases List.append_ne_nil_of_right_ne_nil before (List.cons_ne_nil p after) split.symm
  | cons q rest ih =>
    obtain ⟨m, t⟩ := q
    have later (env' : Env) (next : ∀ before, bound env ((m, t) :: before) = bound env' before) :
        (∀ before p after, (m, t) :: rest = before ++ p :: after →
          binder? (bound env before) p.2 = none → Agrees ctx final op p.1 p.2) ↔
        (binder? env t = none → Agrees ctx final op m t) ∧
        ∀ before p after, rest = before ++ p :: after →
          binder? (bound env' before) p.2 = none → Agrees ctx final op p.1 p.2 := by
      constructor
      · intro all
        refine ⟨fun unbound => all [] (m, t) rest rfl unbound, fun before p after split unbound => ?_⟩
        refine all ((m, t) :: before) p after (by rw [split, List.cons_append]) ?_
        rw [next]
        exact unbound
      · rintro ⟨here, others⟩ before p after split unbound
        cases before with
        | nil =>
          cases split
          exact here unbound
        | cons first before =>
          obtain ⟨rfl, tail⟩ := List.cons.inj split
          rw [next] at unbound
          exact others before p after tail unbound
    unfold Agree
    split
    · rename_i x binds
      rw [ih, later (env.insert x m) fun before => by rw [bound, binds]]
      simp [binds]
    · rename_i unbound
      rw [ih, later env fun before => by rw [bound, unbound]]
      simp [unbound]

theorem denote_variable {v : Variable} {m : Meaning} (known : env.get? v.name = some m) :
    denote ctx env (.variable v) = some m := by
  rw [denote, denoteWith, known]

theorem holds_is_self (a : Typed) : Holds .is a a := by
  simp [Holds, BinaryOp.compare, BinaryOp.accepts, Typed.order, Value.order_self]

theorem correlated_bound (distinct : (ps.map fun p => name? p.2).Nodup)
    (named : ∀ p ∈ ps, (name? p.2).isSome = true) : Correlated ctx (bound .empty ps) ps := by
  intro p inside
  obtain ⟨x, own⟩ := Option.isSome_iff_exists.mp (named p inside)
  obtain ⟨v, same, rfl, -⟩ := name?_eq own
  have known : (bound .empty ps).get? v.name = some p.1 := by
    rw [get?_bound, first?_of_nodup distinct inside own]
    simp
  refine ⟨p.1, ?_, fun _ => holds_is_self _, holds_is_self _⟩
  rw [same, denote_variable known]

end RowSemantics

end PeerExchange
