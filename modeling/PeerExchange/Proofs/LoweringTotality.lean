import Mathlib.Order.MinMax
import PeerExchange.Proofs.BoundNames
import PeerExchange.Proofs.LoweredBodies
import PeerExchange.Proofs.ScannedTexts

namespace PeerExchange

open Sql (Expr Statement)

theorem Term.IsUnmarked.skolem_none {t : Term} (plain : t.IsUnmarked) : ∀ v ∈ t.vars, v.skolem = none := by
  cases t with
  | «variable» v => exact List.forall_mem_singleton.mpr plain.2
  | constant type value => exact List.forall_mem_nil _
  | skolem function args => exact plain.elim

def Atom.IsKnown (catalog : Catalog) (a : Atom) : Prop :=
  ∃ r, catalog.relations.get? a.relationName = some r ∧ a.args.length = r.arity

namespace Iteration

-- The iterations next to it have numbers as well.
def InRange : Iteration → Prop
  | literal k => fitsWord (k - 1) = true ∧ fitsWord (k + 1) = true
  | prepared => True

instance (i : Iteration) : Decidable i.InRange :=
  match i with
  | literal k => inferInstanceAs (Decidable (fitsWord (k - 1) = true ∧ fitsWord (k + 1) = true))
  | prepared => isTrue trivial

theorem word_total {n : Int} (fits : fitsWord n = true) : ∃ e, word n = .ok e := by
  rw [fitsWord, Bool.and_eq_true, decide_eq_true_eq, decide_eq_true_eq] at fits
  exact ⟨.integer n, if_pos (by simpa using fits)⟩

theorem expr_total {i : Iteration} {offset : Int} (range : i.InRange)
    (near : -1 ≤ offset ∧ offset ≤ 1) : ∃ e, i.expr offset = .ok e := by
  cases i with
  | literal k =>
    obtain ⟨below, above⟩ := range
    refine word_total ?_
    simp only [fitsWord, Bool.and_eq_true, decide_eq_true_eq] at below above ⊢
    omega
  | prepared =>
    rcases (by omega : offset = -1 ∨ offset = 0 ∨ offset = 1) with rfl | rfl | rfl <;> exact ⟨_, rfl⟩

end Iteration

namespace Lowering

variable {ctx : Context} {bindings bindings' : Bindings} {t : Term} {v : Variable} {a : Atom}

def Has (bindings : Bindings) (name : String) : Prop := bindings.contains name = true

theorem has_insert {name other : String} {b : Binding} :
    Has (bindings.insert name b) other ↔ name = other ∨ Has bindings other := NameMap.contains_insert

def Resolved (r : Rule) (names : String → Prop) (v : Variable) : Prop :=
  names v.name ∨ ∃ term, v.skolem.bind r.invention? = some term ∧ ∀ u ∈ term.vars, names u.name

theorem Resolved.mono {r : Rule} {names names' : String → Prop}
    (within : ∀ name, names name → names' name) (resolved : Resolved r names v) :
    Resolved r names' v :=
  resolved.imp (within _) fun ⟨term, invented, inputs⟩ =>
    ⟨term, invented, fun u inside => within _ (inputs u inside)⟩

section Values

mutual

theorem valueWith_total {invention : Variable → Compiled Binding} : (t : Term) →
    (∀ v ∈ t.vars, Has bindings v.name ∨ ∃ b, invention v = .ok b) →
      ∃ b, valueWith ctx bindings invention t = .ok b
  | .variable v, resolved => by
    rw [valueWith]
    split
    · exact ⟨_, rfl⟩
    · rename_i unbound
      rcases resolved v (List.mem_singleton_self v) with bound | invented
      · obtain ⟨b, found⟩ := NameMap.get?_of_contains bound
        rw [unbound] at found
        cases found
      · exact invented
  | .constant type value, _ => ⟨_, by rw [valueWith]⟩
  | .skolem function args, resolved => by
    rw [Term.vars, Term.variablesOf_eq_flatMap] at resolved
    obtain ⟨values, found⟩ := valuesWith_total args fun t inside v within =>
      resolved v (List.mem_flatMap.mpr ⟨t, inside, within⟩)
    exact ⟨_, by rw [valueWith, found]; rfl⟩

theorem valuesWith_total {invention : Variable → Compiled Binding} : (args : List Term) →
    (∀ t ∈ args, ∀ v ∈ t.vars, Has bindings v.name ∨ ∃ b, invention v = .ok b) →
      ∃ values, valuesWith ctx bindings invention args = .ok values
  | [], _ => ⟨[], by rw [valuesWith]⟩
  | arg :: rest, resolved => by
    obtain ⟨first, others⟩ := List.forall_mem_cons.mp resolved
    obtain ⟨b, here⟩ := valueWith_total arg first
    obtain ⟨values, later⟩ := valuesWith_total rest others
    exact ⟨_, by rw [valuesWith, here, later]; rfl⟩

end

theorem value_total (resolved : ∀ v ∈ t.vars, Resolved ctx.rule (Has bindings) v) :
    ∃ b, value ctx bindings t = .ok b := by
  refine valueWith_total t fun v inside => (resolved v inside).imp id ?_
  rintro ⟨term, invented, inputs⟩
  rw [inventedValue, invented]
  exact valueWith_total term fun u inside => .inl (inputs u inside)

theorem values_total {args : List Term}
    (resolved : ∀ t ∈ args, ∀ v ∈ t.vars, Resolved ctx.rule (Has bindings) v) :
    ∃ values, args.mapM (value ctx bindings) = .ok values := by
  induction args with
  | nil => exact ⟨[], rfl⟩
  | cons arg rest ih =>
    obtain ⟨first, others⟩ := List.forall_mem_cons.mp resolved
    obtain ⟨b, here⟩ := value_total first
    obtain ⟨values, later⟩ := ih others
    exact ⟨_, by rw [List.mapM_cons, here, later]; rfl⟩

theorem conditions_total {nullSafe : Bool} {p : Place}
    (resolved : ∀ v ∈ p.term.vars, Resolved ctx.rule (Has bindings) v) :
    ∃ es, conditions ctx bindings nullSafe p = .ok es := by
  unfold conditions
  split
  · exact ⟨_, rfl⟩
  · obtain ⟨b, found⟩ := value_total resolved
    exact ⟨_, by rw [found]; rfl⟩

theorem allConditions_total {nullSafe : Bool} {ps : List Place}
    (resolved : ∀ p ∈ ps, ∀ v ∈ p.term.vars, Resolved ctx.rule (Has bindings) v) :
    ∃ es, allConditions ctx bindings nullSafe ps = .ok es := by
  induction ps with
  | nil => exact ⟨[], rfl⟩
  | cons p rest ih =>
    obtain ⟨first, others⟩ := List.forall_mem_cons.mp resolved
    obtain ⟨here, found⟩ := conditions_total first
    obtain ⟨later, founds⟩ := ih others
    exact ⟨_, by rw [allConditions, found, founds]; rfl⟩

end Values

section Joins

variable {guard : Option Guard} {p : Place} {ps : List Place} {s : Scope} {position : Nat}

theorem bindPlaces_has : (∀ name, Has bindings name → Has (bindPlaces bindings ps).1 name) ∧
    (bindPlaces bindings ps).2 ⊆ ps ∧
    ∀ p ∈ ps, p.term.IsUnmarked → ∀ v ∈ p.term.vars, Has (bindPlaces bindings ps).1 v.name := by
  induction ps generalizing bindings with
  | nil => exact ⟨fun _ => id, List.Subset.refl _, List.forall_mem_nil _⟩
  | cons p rest ih =>
    have skipped (skips : bindPlaces bindings (p :: rest) =
        ((bindPlaces bindings rest).1, p :: (bindPlaces bindings rest).2))
        (first : p.term.IsUnmarked → ∀ v ∈ p.term.vars, Has bindings v.name) :
        (∀ name, Has bindings name → Has (bindPlaces bindings (p :: rest)).1 name) ∧
        (bindPlaces bindings (p :: rest)).2 ⊆ p :: rest ∧
        ∀ q ∈ p :: rest, q.term.IsUnmarked →
          ∀ v ∈ q.term.vars, Has (bindPlaces bindings (p :: rest)).1 v.name := by
      obtain ⟨kept, left, bound⟩ := @ih bindings
      rw [skips]
      refine ⟨kept, List.cons_subset_cons p left, List.forall_mem_cons.mpr ⟨?_, bound⟩⟩
      exact fun plain v inside => kept _ (first plain v inside)
    cases shape : p.term with
    | constant type value =>
      refine skipped (by simp only [bindPlaces, shape]) fun _ v inside => ?_
      rw [shape] at inside
      cases inside
    | skolem function args =>
      exact skipped (by simp only [bindPlaces, shape]) fun plain => by
        rw [shape] at plain
        exact plain.elim
    | «variable» x =>
      by_cases binds : (x.skolem.isNone && !bindings.contains x.name) = true
      · obtain ⟨kept, left, bound⟩ := @ih (bindings.insert x.name p.column)
        have taken : bindPlaces bindings (p :: rest) =
            bindPlaces (bindings.insert x.name p.column) rest := by
          simp only [bindPlaces, shape, binds, if_true]
        rw [taken]
        refine ⟨fun name known => kept name (has_insert.mpr (.inr known)),
          List.subset_cons_of_subset p left, List.forall_mem_cons.mpr ⟨fun _ v inside => ?_, bound⟩⟩
        rw [shape] at inside
        obtain rfl := List.mem_singleton.mp inside
        exact kept _ (has_insert.mpr (.inl rfl))
      · refine skipped (by simp only [bindPlaces, shape, binds, Bool.false_eq_true, if_false])
          fun plain v inside => ?_
        rw [shape] at plain inside
        obtain rfl := List.mem_singleton.mp inside
        simpa [plain.2, Has] using binds

theorem optionalPlaces_total (plain : ∀ p ∈ ps, p.term.IsUnmarked) :
    ∃ bindings' es, optionalPlaces ctx bindings ps = .ok (bindings', es) ∧
      (∀ name, Has bindings name → Has bindings' name) ∧
      ∀ p ∈ ps, ∀ v ∈ p.term.vars, Has bindings' v.name := by
  induction ps generalizing bindings with
  | nil => exact ⟨bindings, [], rfl, fun _ => id, List.forall_mem_nil _⟩
  | cons p rest ih =>
    obtain ⟨own, others⟩ := List.forall_mem_cons.mp plain
    obtain ⟨kept, left, bound⟩ := @bindPlaces_has bindings [p]
    have here := bound p (List.mem_singleton_self p) own
    obtain ⟨bindings', es, found, kept', bound'⟩ := @ih (bindPlaces bindings [p]).1 others
    have known : ∀ name, Has bindings name → Has bindings' name :=
      fun name given => kept' name (kept name given)
    have all : ∀ q ∈ p :: rest, ∀ v ∈ q.term.vars, Has bindings' v.name :=
      List.forall_mem_cons.mpr ⟨fun v inside => kept' _ (here v inside), bound'⟩
    rw [optionalPlaces]
    split
    · rename_i between placed
      rw [placed] at found
      exact ⟨bindings', es, found, known, all⟩
    · rename_i between placed
      obtain ⟨first, settled⟩ := @conditions_total ctx (bindPlaces bindings [p]).1 true p
        fun v inside => .inl (here v inside)
      rw [placed] at found settled
      exact ⟨bindings', first ++ es, by rw [settled, found]; rfl, known, all⟩

theorem relationOf_total (known : a.IsKnown ctx.catalog) : ∃ r, relationOf ctx a = .ok r ∧
    ctx.catalog.relations.get? a.relationName = some r ∧ a.args.length = r.arity := by
  obtain ⟨r, found, arity⟩ := known
  refine ⟨r, ?_, found, arity⟩
  rw [relationOf, Catalog.relation, found]
  exact if_pos arity

def Stamped (catalog : Catalog) (guard : Option Guard) (position : Nat) (a : Atom) : Prop :=
  ∀ g ∈ guard, g.position = position → (-1 ≤ g.offset ∧ g.offset ≤ 1) ∧
    ∀ r, catalog.relations.get? a.relationName = some r → r.hasStratum a.kind = true

theorem Stamped.unguarded {catalog : Catalog} : Stamped catalog none position a :=
  fun _ given => absurd given (Option.not_mem_none _)

theorem guardConditions_total {r : Relation} {qualifier : String} (range : ctx.iteration.InRange)
    (found : ctx.catalog.relations.get? a.relationName = some r)
    (stamped : Stamped ctx.catalog guard position a) :
    ∃ es, guardConditions ctx guard position r a.kind qualifier = .ok es := by
  unfold guardConditions
  split
  · rename_i g
    split
    · rename_i here
      obtain ⟨near, stratum⟩ := stamped g rfl here
      obtain ⟨stamp, lowered⟩ := Iteration.expr_total range near
      rw [if_pos (stratum r found), lowered]
      exact ⟨_, rfl⟩
    · exact ⟨_, rfl⟩
  · exact ⟨_, rfl⟩

theorem terms_placesOf {r : Relation} {qualifier : String} {args : List Term} :
    ∀ p ∈ placesOf r qualifier args, p.term ∈ args := by
  refine List.forall_mem_map.mpr fun pair inside => ?_
  exact (List.of_mem_zip inside).1

theorem mem_placesOf {r : Relation} {qualifier : String} {args : List Term}
    (arity : args.length = r.arity) {t : Term} (inside : t ∈ args) :
    ∃ p ∈ placesOf r qualifier args, p.term = t := by
  obtain ⟨i, bound, rfl⟩ := List.getElem_of_mem inside
  have column : i < r.columns.length := Nat.lt_of_lt_of_eq bound arity
  refine ⟨_, List.mem_map.mpr ⟨(args[i], r.columns[i]), ?_, rfl⟩, rfl⟩
  rw [← List.getElem_zip (h := by simp [bound, column])]
  exact List.getElem_mem _

-- A scope after an atom was joined to it.
structure Joins (a : Atom) (s s' : Scope) : Prop where
  kept : ∀ name, Has s.bindings name → Has s'.bindings name
  bound : (∀ t ∈ a.args, t.IsUnmarked) → ∀ name ∈ a.variableNames, Has s'.bindings name
  pending : ∀ p ∈ s'.pending, p ∈ s.pending ∨ p.term ∈ a.args
  outer : s'.outerJoined = (s.outerJoined || a.optional)

theorem joinAtom_total (range : ctx.iteration.InRange) (known : a.IsKnown ctx.catalog)
    (ordered : s.outerJoined = true → a.optional = true)
    (plain : a.optional = true → ∀ t ∈ a.args, t.IsUnmarked)
    (stamped : Stamped ctx.catalog guard position a) :
    ∃ s', joinAtom ctx guard s position a = .ok s' ∧ Joins a s s' := by
  obtain ⟨r, related, found, arity⟩ := relationOf_total known
  obtain ⟨guarded, lowered⟩ :=
    @guardConditions_total ctx a guard position r (aliasName s.aliases) range found stamped
  have names {bindings : Bindings} (all : ∀ t ∈ a.args, ∀ v ∈ t.vars, Has bindings v.name) :
      ∀ name ∈ a.variableNames, Has bindings name := by
    refine List.forall_mem_map.mpr fun v inside => ?_
    obtain ⟨t, listed, within⟩ := List.mem_flatMap.mp inside
    exact all t listed v within
  unfold joinAtom
  rw [if_neg (by simpa using ordered), related]
  dsimp only [bind, Except.bind]
  rw [lowered]
  dsimp only
  split
  · rename_i optional
    obtain ⟨bindings', es, settled, kept, bound⟩ := @optionalPlaces_total ctx s.bindings
      (placesOf r (aliasName s.aliases) a.args)
      fun p inside => plain optional _ (terms_placesOf p inside)
    rw [settled]
    refine ⟨_, rfl, kept, fun _ => names fun t inside v within => ?_, fun p inside => .inl inside, ?_⟩
    · obtain ⟨p, placed, rfl⟩ := @mem_placesOf r (aliasName s.aliases) _ arity _ inside
      exact bound p placed v within
    · simp [optional]
  · rename_i joined
    obtain ⟨kept, left, bound⟩ :=
      @bindPlaces_has s.bindings (placesOf r (aliasName s.aliases) a.args)
    refine ⟨_, rfl, kept, fun each => names fun t inside v within => ?_, fun p inside => ?_, ?_⟩
    · obtain ⟨p, placed, rfl⟩ := @mem_placesOf r (aliasName s.aliases) _ arity _ inside
      exact bound p placed (each _ inside) v within
    · exact (List.mem_append.mp inside).imp_right fun new => terms_placesOf p (left new)
    · simp [joined]

structure JoinsAll (body : List Atom) (s s' : Scope) : Prop where
  kept : ∀ name, Has s.bindings name → Has s'.bindings name
  bound : ∀ a ∈ body, a.isPositive = true → ∀ name ∈ a.variableNames, Has s'.bindings name
  pending : ∀ p ∈ s'.pending, p ∈ s.pending ∨ ∃ a ∈ body, a.isPositive = true ∧ p.term ∈ a.args

theorem joinAtoms_total {body : List Atom} (range : ctx.iteration.InRange)
    (known : ∀ a ∈ body, a.isPositive = true → a.IsKnown ctx.catalog)
    (plain : ∀ a ∈ body, a.isPositive = true → ∀ t ∈ a.args, t.IsUnmarked)
    (ordered : (body.filter Atom.isPositive).Pairwise fun a b => a.optional = true → b.optional = true)
    (outer : s.outerJoined = true → ∀ a ∈ body, a.isPositive = true → a.optional = true)
    (stamped : ∀ i a, body[i]? = some a → a.isPositive = true →
      Stamped ctx.catalog guard (position + i) a) :
    ∃ s', joinAtoms ctx guard s position body = .ok s' ∧ JoinsAll body s s' := by
  induction body generalizing s position with
  | nil => exact ⟨s, rfl, fun _ => id, nofun, fun p => .inl⟩
  | cons a rest ih =>
    obtain ⟨firstKnown, known⟩ := List.forall_mem_cons.mp known
    obtain ⟨firstPlain, plain⟩ := List.forall_mem_cons.mp plain
    have later : ∀ i b, rest[i]? = some b → b.isPositive = true →
        Stamped ctx.catalog guard (position + 1 + i) b := fun i b found positive => by
      rw [Nat.add_assoc, Nat.add_comm 1 i]
      exact stamped (i + 1) b found positive
    rw [joinAtoms]
    split
    · rename_i positive
      rw [List.filter_cons_of_pos positive, List.pairwise_cons] at ordered
      obtain ⟨middle, joined, first⟩ := @joinAtom_total ctx a guard s position range
        (firstKnown positive) (fun given => outer given a List.mem_cons_self positive)
        (fun _ => firstPlain positive) (stamped 0 a rfl positive)
      obtain ⟨s', found, joins⟩ := ih (s := middle) known plain ordered.2 (fun given b inside positive => by
        rw [first.outer, Bool.or_eq_true] at given
        rcases given with before | optional
        · exact outer before b (List.mem_cons_of_mem _ inside) positive
        · exact ordered.1 b (List.mem_filter.mpr ⟨inside, positive⟩) optional) later
      refine ⟨s', by rw [joined]; exact found, fun name given => joins.kept name (first.kept name given),
        List.forall_mem_cons.mpr ⟨fun _ name mentioned => ?_, joins.bound⟩, fun p inside => ?_⟩
      · exact joins.kept name (first.bound (firstPlain positive) name mentioned)
      · rcases joins.pending p inside with before | ⟨b, listed, positive, term⟩
        · exact (first.pending p before).imp_right fun term => ⟨a, List.mem_cons_self, positive, term⟩
        · exact .inr ⟨b, List.mem_cons_of_mem _ listed, positive, term⟩
    · rename_i negative
      rw [List.filter_cons_of_neg negative] at ordered
      obtain ⟨s', found, joins⟩ := ih (s := s) known plain ordered
        (fun given b inside => outer given b (List.mem_cons_of_mem _ inside)) later
      refine ⟨s', found, joins.kept, List.forall_mem_cons.mpr
        ⟨fun positive => absurd positive negative, joins.bound⟩, fun p inside => ?_⟩
      exact (joins.pending p inside).imp_right fun ⟨b, listed, rest⟩ =>
        ⟨b, List.mem_cons_of_mem _ listed, rest⟩

end Joins

section Builtins

variable {op : Builtin} {atoms left : List Atom} {conditions : List Expr}

-- A built-in over terms without inventions, as many as it takes.
structure Computes (a : Atom) (op : Builtin) : Prop where
  called : a.builtin? = some op
  arity : a.args.length = op.arity
  plain : ∀ t ∈ a.args, ∀ v ∈ t.vars, v.skolem = none

def AllBound (a : Atom) (bindings : Bindings) : Prop := ∀ name ∈ a.variableNames, Has bindings name

theorem AllBound.resolved (bound : AllBound a bindings) :
    ∀ t ∈ a.args, ∀ v ∈ t.vars, Resolved ctx.rule (Has bindings) v := fun t inside _ within =>
  .inl (bound _ (List.mem_map_of_mem (List.mem_flatMap.mpr ⟨t, inside, within⟩)))

theorem mem_keys_iff {name : String} : name ∈ bindings.keys ↔ Has bindings name := NameMap.mem_keys

theorem functionValue_total {args : List Term}
    (resolved : ∀ t ∈ args, ∀ v ∈ t.vars, Resolved ctx.rule (Has bindings) v) :
    ∃ b, functionValue ctx bindings op args = .ok b := by
  obtain ⟨values, found⟩ := values_total resolved
  exact ⟨_, by rw [functionValue, found]; rfl⟩

theorem boundValue_total {name : String} (computes : Computes a op)
    (binds : a.binding? bindings.keys = some name) :
    (∃ b, boundValue ctx bindings a op name = .ok b) ∧
      ∀ other ∈ a.variableNames, other = name ∨ Has bindings other := by
  obtain ⟨unbound, inputs, determines, known⟩ := Atom.determines_of_binding binds
  have resolved : ∀ t ∈ inputs, ∀ v ∈ t.vars, Resolved ctx.rule (Has bindings) v :=
    fun t inside v within => .inl (mem_keys_iff.mp (known t inside v within))
  have arity := computes.arity
  cases determines with
  | output called function args =>
    obtain rfl := Option.some.inj (computes.called.symm.trans called)
    constructor
    · rw [boundValue, if_pos function, args]
      exact functionValue_total resolved
    · refine List.forall_mem_map.mpr fun u inside => ?_
      rw [Atom.vars, args, List.flatMap_cons, List.mem_append] at inside
      rcases inside with here | later
      · exact .inl (congrArg _ (List.mem_singleton.mp here))
      · obtain ⟨t, listed, within⟩ := List.mem_flatMap.mp later
        exact .inr (mem_keys_iff.mp (known t listed u within))
  | left equation args =>
    rename_i v right more
    obtain rfl := Option.some.inj (computes.called.symm.trans equation)
    obtain rfl : more = [] := by simpa [args, Builtin.arity, Builtin.isFunction] using arity
    constructor
    · simpa [boundValue, Builtin.isFunction, args, Term.asVariable?] using
        value_total (resolved right (List.mem_singleton_self right))
    · refine List.forall_mem_map.mpr fun u inside => ?_
      simp only [Atom.vars, args, List.flatMap_cons, List.flatMap_nil, List.append_nil, Term.vars,
        List.singleton_append, List.mem_cons] at inside
      rcases inside with rfl | later
      · exact .inl rfl
      · exact .inr (mem_keys_iff.mp (known right (List.mem_singleton_self right) u later))
  | right equation args =>
    rename_i v left more
    obtain rfl := Option.some.inj (computes.called.symm.trans equation)
    obtain rfl : more = [] := by simpa [args, Builtin.arity, Builtin.isFunction] using arity
    have own := known left (List.mem_singleton_self left)
    constructor
    · have other : ¬ (left.asVariable?.any fun w => w.name = v.name) = true := by
        intro same
        obtain ⟨w, shape, named⟩ := (Option.any_eq_true ..).mp same
        have is : left = .variable w := by
          cases left <;> simp_all [Term.asVariable?]
        refine unbound (of_decide_eq_true named ▸ own w ?_)
        simp [is, Term.vars]
      simp only [boundValue, Builtin.isFunction, args, Bool.false_eq_true, if_false, if_neg other]
      exact value_total (resolved left (List.mem_singleton_self left))
    · refine List.forall_mem_map.mpr fun u inside => ?_
      simp only [Atom.vars, args, List.flatMap_cons, List.flatMap_nil, List.append_nil, Term.vars,
        List.mem_append, List.mem_singleton] at inside
      rcases inside with first | rfl
      · exact .inr (mem_keys_iff.mp (own u first))
      · exact .inl rfl

theorem builtinCondition_total (computes : Computes a op) (bound : AllBound a bindings) :
    ∃ e, builtinCondition ctx bindings a op = .ok e := by
  have resolved := @AllBound.resolved ctx bindings a bound
  have arity := computes.arity
  unfold builtinCondition
  split
  · rename_i none
    rw [none] at arity
    cases op <;> cases arity
  · rename_i first rest args
    rw [args] at resolved arity
    obtain ⟨here, others⟩ := List.forall_mem_cons.mp resolved
    obtain ⟨left, found⟩ := value_total here
    rw [found]
    dsimp only [bind, Except.bind]
    split
    · obtain ⟨right, found⟩ := @functionValue_total ctx bindings op rest others
      rw [found]
      exact ⟨_, rfl⟩
    · rename_i comparison
      cases rest with
      | nil => simp [Builtin.arity, comparison] at arity
      | cons second more =>
        obtain ⟨right, found⟩ := value_total (others second List.mem_cons_self)
        simp only [found]
        exact ⟨_, rfl⟩

theorem isShaped_of_computes (computes : Computes a op) : a.isShaped = true := by
  have arity := computes.arity
  unfold Builtin.arity at arity
  unfold Atom.isShaped
  rw [computes.called]
  dsimp only
  split at arity <;> rename_i kind <;> simp [kind, arity]

def Stuck (bindings : Bindings) (a : Atom) : Prop :=
  a.binding? bindings.keys = none ∧ ¬ AllBound a bindings

-- What a pass over built-ins leaves, and what is bound after it.
structure Passed (atoms : List Atom) (bindings : Bindings) (left : List Atom) (bindings' : Bindings) :
    Prop where
  within : left ⊆ atoms
  shorter : left.length ≤ atoms.length
  kept : ∀ name, Has bindings name → Has bindings' name
  settled : ∀ a ∈ atoms, a ∈ left ∨ AllBound a bindings'
  stuck : left.length = atoms.length → bindings' = bindings ∧ ∀ a ∈ atoms, Stuck bindings a

theorem AllBound.mono (kept : ∀ name, Has bindings name → Has bindings' name)
    (bound : AllBound a bindings) : AllBound a bindings' :=
  fun name inside => kept name (bound name inside)

theorem Passed.settle {rest : List Atom} {between : Bindings}
    (kept : ∀ name, Has bindings name → Has between name) (bound : AllBound a between)
    (passed : Passed rest between left bindings') : Passed (a :: rest) bindings left bindings' where
  within := List.subset_cons_of_subset a passed.within
  shorter := Nat.le_succ_of_le passed.shorter
  kept name given := passed.kept name (kept name given)
  settled := List.forall_mem_cons.mpr ⟨.inr (bound.mono passed.kept), passed.settled⟩
  stuck all := absurd all (Nat.ne_of_lt (Nat.lt_succ_of_le passed.shorter))

theorem builtinPass_total (computes : ∀ a ∈ atoms, ∃ op, Computes a op) :
    ∃ left bindings' conditions', builtinPass ctx atoms bindings conditions =
      .ok (left, bindings', conditions') ∧ Passed atoms bindings left bindings' := by
  induction atoms generalizing bindings conditions with
  | nil =>
    exact ⟨[], bindings, conditions, rfl, List.Subset.refl _, Nat.le_refl _, fun _ => id, nofun,
      fun _ => ⟨rfl, nofun⟩⟩
  | cons a rest ih =>
    obtain ⟨⟨op, own⟩, computes⟩ := List.forall_mem_cons.mp computes
    rw [builtinPass]
    simp only [own.called]
    cases binds : a.binding? bindings.keys with
    | some name =>
      obtain ⟨⟨b, found⟩, others⟩ := @boundValue_total ctx bindings a op name own binds
      obtain ⟨left, bindings', conditions', ran, passed⟩ :=
        @ih (bindings.insert name b) conditions computes
      simp only [found]
      refine ⟨left, bindings', conditions', ran, passed.settle (fun _ given => has_insert.mpr (.inr given))
        fun other mentioned => has_insert.mpr ?_⟩
      exact (others other mentioned).imp_left Eq.symm
    | none =>
      simp only [isShaped_of_computes own, Bool.not_true, Bool.false_eq_true, if_false]
      by_cases all : a.args.all (isResolvable bindings) = true
      · have bound : AllBound a bindings := by
          refine List.forall_mem_map.mpr fun v inside => ?_
          obtain ⟨t, listed, within⟩ := List.mem_flatMap.mp inside
          have known := List.all_eq_true.mp (List.all_eq_true.mp all t listed) v within
          simpa [own.plain t listed v within, Has] using known
        obtain ⟨e, lowered⟩ := @builtinCondition_total ctx bindings a op own bound
        obtain ⟨left, bindings', conditions', ran, passed⟩ :=
          @ih bindings (conditions ++ [e]) computes
        simp only [all, if_true, lowered]
        exact ⟨left, bindings', conditions', ran, passed.settle (fun _ => id) bound⟩
      · have open_ : ¬ AllBound a bindings := fun bound => all <|
          List.all_eq_true.mpr fun t listed => List.all_eq_true.mpr fun v within => by
            have known := bound v.name
              (List.mem_map_of_mem (List.mem_flatMap.mpr ⟨t, listed, within⟩))
            simpa using .inl known
        obtain ⟨left, bindings', conditions', ran, passed⟩ :=
          @ih bindings conditions computes
        rw [if_neg all, ran]
        refine ⟨a :: left, bindings', conditions', rfl, List.cons_subset_cons a passed.within,
          Nat.succ_le_succ passed.shorter, passed.kept, List.forall_mem_cons.mpr
          ⟨.inl List.mem_cons_self, fun b inside => (passed.settled b inside).imp_left
            (List.mem_cons_of_mem a)⟩, fun same => ?_⟩
        obtain ⟨unchanged, others⟩ := passed.stuck (Nat.succ.inj same)
        exact ⟨unchanged, List.forall_mem_cons.mpr ⟨⟨binds, open_⟩, others⟩⟩

variable {body : List Atom}

theorem closed_of_stuck (joined : ∀ a ∈ body, a.isPositive = true → AllBound a bindings)
    (builtins : ∀ a ∈ body, a.negated = false → a.builtin?.isSome = true →
      Stuck bindings a ∨ AllBound a bindings) : Closed body (Has bindings) where
  joined := joined
  determined a inside plain inputs name determines known := by
    rcases builtins a inside plain determines.builtin with ⟨none, -⟩ | bound
    · by_contra unbound
      rw [Atom.binding?_of_determines determines (fun given => unbound (mem_keys_iff.mp given))
        fun t listed v within => mem_keys_iff.mpr (known t listed v within)] at none
      cases none
    · exact bound name determines.mem_variableNames

theorem builtinPasses_total {passes : Nat} (computes : ∀ a ∈ atoms, ∃ op, Computes a op)
    (enough : atoms.length ≤ passes)
    (joined : ∀ a ∈ body, a.isPositive = true → AllBound a bindings)
    (builtins : ∀ a ∈ body, a.negated = false → a.builtin?.isSome = true →
      a ∈ atoms ∨ AllBound a bindings)
    (needed : ∀ a ∈ atoms, ∀ name ∈ a.variableNames, Binds body name) :
    ∃ bindings' conditions', builtinPasses ctx passes atoms bindings conditions =
      .ok (bindings', conditions') ∧ (∀ name, Has bindings name → Has bindings' name) ∧
      ∀ a ∈ body, a.negated = false → a.builtin?.isSome = true → AllBound a bindings' := by
  induction passes generalizing atoms bindings conditions with
  | zero =>
    obtain rfl := List.eq_nil_of_length_eq_zero (Nat.le_zero.mp enough)
    exact ⟨bindings, conditions, rfl, fun _ => id, fun a inside plain called =>
      (builtins a inside plain called).resolve_left nofun⟩
  | succ passes ih =>
    cases atoms with
    | nil =>
      exact ⟨bindings, conditions, rfl, fun _ => id, fun a inside plain called =>
        (builtins a inside plain called).resolve_left nofun⟩
    | cons first rest =>
      obtain ⟨left, between, conditions', ran, passed⟩ :=
        @builtinPass_total ctx bindings (first :: rest) conditions computes
      -- A pass that settles nothing shows that what is bound is closed, so that nothing was open.
      have progress : left.length ≠ (first :: rest).length := by
        intro same
        obtain ⟨-, stuck⟩ := passed.stuck same
        have closed := closed_of_stuck joined fun a inside plain called =>
          (builtins a inside plain called).imp_left (stuck a)
        exact (stuck first List.mem_cons_self).2 fun name mentioned =>
          closed.binds (needed first List.mem_cons_self name mentioned)
      obtain ⟨bindings', conditions'', found, kept, bound⟩ := @ih between left conditions'
        (fun a inside => computes a (passed.within inside))
        (Nat.le_of_lt_succ (Nat.lt_of_lt_of_le (Nat.lt_of_le_of_ne passed.shorter progress) enough))
        (fun a inside positive => (joined a inside positive).mono passed.kept)
        (fun a inside plain called => by
          rcases builtins a inside plain called with pending | bound
          · exact passed.settled a pending
          · exact .inr (bound.mono passed.kept))
        fun a inside => needed a (passed.within inside)
      refine ⟨bindings', conditions'', ?_, fun name given => kept name (passed.kept name given), bound⟩
      unfold builtinPasses
      rw [ran]
      exact (if_neg progress).trans found

end Builtins

section Bodies

variable {body : List Atom} {guard : Option Guard}

-- What a body needs to be lowered: known relations, built-ins over plain terms, optional atoms
-- after all others, and a value for all else.
structure Readable (catalog : Catalog) (r : Rule) (guard : Option Guard) (body : List Atom) : Prop where
  known : ∀ a ∈ body, a.builtin? = none → a.IsKnown catalog
  builtins : ∀ a ∈ body, ∀ op, a.builtin? = some op → a.negated = false ∧ a.args.length = op.arity
  plain : ∀ a ∈ body, a.negated = false → ∀ t ∈ a.args, t.IsUnmarked
  ordered : (body.filter Atom.isPositive).Pairwise fun a b => a.optional = true → b.optional = true
  required : ∀ a ∈ body, a.negated = true → a.optional = false
  needed : ∀ a ∈ body, a.isPositive = false → ∀ v ∈ a.vars, Resolved r (Binds body) v
  stamped : ∀ i a, body[i]? = some a → a.isPositive = true → Stamped catalog guard i a

theorem negatedConditions_total {atoms : List Atom} {aliases : Nat} (range : ctx.iteration.InRange)
    (known : ∀ a ∈ atoms, a.builtin? = none ∧ a.IsKnown ctx.catalog ∧ a.optional = false)
    (resolved : ∀ a ∈ atoms, ∀ v ∈ a.vars, Resolved ctx.rule (Has bindings) v) :
    ∃ es aliases', negatedConditions ctx bindings aliases atoms = .ok (es, aliases') := by
  induction atoms generalizing aliases with
  | nil => exact ⟨[], aliases, rfl⟩
  | cons a rest ih =>
    obtain ⟨⟨related, own, required⟩, known⟩ := List.forall_mem_cons.mp known
    obtain ⟨values, resolved⟩ := List.forall_mem_cons.mp resolved
    obtain ⟨s, joined, joins⟩ := @joinAtom_total ctx { a with negated := false } none
      { bindings := bindings, aliases := aliases } 0 range own nofun (fun optional => absurd (required.symm.trans optional) nofun) nofun
    obtain ⟨es, conditioned⟩ := @allConditions_total ctx s.bindings true s.pending
      fun p inside v within => by
        have listed := (joins.pending p inside).resolve_left nofun
        exact (values v (List.mem_flatMap.mpr ⟨p.term, listed, within⟩)).mono joins.kept
    obtain ⟨others, aliases', later⟩ := @ih (aliases + 1) known resolved
    refine ⟨.exists true (.mk false [] s.sources es) :: others, aliases', ?_⟩
    rw [negatedConditions]
    simp only [related, negatedSelect, joined, bind, Except.bind, conditioned, later]

theorem lowerBody_total (range : ctx.iteration.InRange) (readable : Readable ctx.catalog ctx.rule guard body) :
    ∃ s, lowerBody ctx guard body = .ok s ∧ ∀ name, Binds body name → Has s.bindings name := by
  obtain ⟨joined, lowered, joins⟩ := @joinAtoms_total ctx guard
    { bindings := .empty, aliases := 0 } 0 body range
    (fun a inside positive => readable.known a inside (Atom.builtin?_of_isPositive positive))
    (fun a inside positive => readable.plain a inside (Atom.negated_of_isPositive positive))
    readable.ordered nofun
    (fun i a found positive => by
      rw [Nat.zero_add]
      exact readable.stamped i a found positive)
  have computes : ∀ a ∈ body.filter (fun a => !a.negated && a.builtin?.isSome), ∃ op, Computes a op := by
    intro a inside
    obtain ⟨listed, own⟩ := List.mem_filter.mp inside
    simp only [Bool.and_eq_true, Bool.not_eq_true'] at own
    obtain ⟨op, called⟩ := Option.isSome_iff_exists.mp own.2
    exact ⟨op, called, (readable.builtins a listed op called).2,
      fun t arg => (readable.plain a listed own.1 t arg).skolem_none⟩
  have mentioned {a : Atom} (listed : a ∈ body) (called : a.builtin?.isSome = true) :
      ∀ name ∈ a.variableNames, Binds body name := by
    refine List.forall_mem_map.mpr fun v inside => ?_
    obtain ⟨op, called⟩ := Option.isSome_iff_exists.mp called
    have negative : a.isPositive = false := by
      cases positive : a.isPositive with
      | false => rfl
      | true =>
        rw [Atom.builtin?_of_isPositive positive] at called
        cases called
    have plain := readable.plain a listed (readable.builtins a listed op called).1
    rcases readable.needed a listed negative v inside with binds | ⟨term, invented, -⟩
    · exact binds
    · obtain ⟨t, argument, within⟩ := List.mem_flatMap.mp inside
      rw [(plain t argument).skolem_none v within] at invented
      cases invented
  obtain ⟨bindings, conditions, passed, kept, bound⟩ := @builtinPasses_total ctx joined.bindings _
    joined.conditions body _ computes (Nat.le_succ _) joins.bound
    (fun a inside plain called =>
      .inl (List.mem_filter.mpr ⟨inside, by simp [plain, called]⟩))
    (fun a inside => by
      obtain ⟨listed, own⟩ := List.mem_filter.mp inside
      exact mentioned listed (Bool.and_eq_true_iff.mp own).2)
  have closed : Closed body (Has bindings) := closed_of_stuck
    (fun a inside positive name named => kept name (joins.bound a inside positive name named))
    (fun a inside plain called => .inr (bound a inside plain called))
  have binds : ∀ name, Binds body name → Has bindings name := fun name => closed.binds
  obtain ⟨places, placed⟩ := @allConditions_total ctx bindings false joined.pending
    fun p inside v within => by
      obtain ⟨a, listed, positive, term⟩ := (joins.pending p inside).resolve_left nofun
      exact .inl (kept _ (joins.bound a listed positive v.name
        (List.mem_map_of_mem (List.mem_flatMap.mpr ⟨p.term, term, within⟩))))
  obtain ⟨negations, aliases, negated⟩ := @negatedConditions_total ctx bindings
    (body.filter (·.negated)) joined.aliases range
    (fun a inside => by
      obtain ⟨listed, negative⟩ := List.mem_filter.mp inside
      have plain : a.builtin? = none := by
        cases called : a.builtin? with
        | none => rfl
        | some op =>
          rw [(readable.builtins a listed op called).1] at negative
          cases negative
      exact ⟨plain, readable.known a listed plain, readable.required a listed negative⟩)
    (fun a inside v within => by
      obtain ⟨listed, negative⟩ := List.mem_filter.mp inside
      exact (readable.needed a listed (by simp [Atom.isPositive, negative]) v within).mono binds)
  refine ⟨{ joined with
    bindings := bindings
    conditions := conditions ++ places ++ negations
    pending := []
    aliases := aliases }, ?_, binds⟩
  unfold lowerBody
  simp only [lowered, bind, Except.bind, passed, placed, negated]

end Bodies

section Heads

variable {catalog : Catalog} {rule : Rule} {guard : Option Guard} {body : List Atom} {r : Relation}
  {head own : Atom}

structure Writes (catalog : Catalog) (rule : Rule) (body : List Atom) (head : Atom) : Prop where
  known : head.IsKnown catalog
  related : head.builtin? = none
  required : head.optional = false
  resolved : ∀ v ∈ head.vars, Resolved rule (Binds body) v

theorem Readable.append (readable : Readable catalog rule guard body)
    (writes : Writes catalog rule body head) :
    Readable catalog rule guard (body ++ [head.negate]) := by
  have wider : ∀ name, Binds body name → Binds (body ++ [head.negate]) name :=
    fun _ => Binds.mono fun a inside _ => List.mem_append_left _ inside
  have negative : head.negate.isPositive = false := rfl
  refine ⟨?_, ?_, ?_, ?_, ?_, ?_, ?_⟩
  · exact List.forall_mem_append.mpr
      ⟨readable.known, List.forall_mem_singleton.mpr fun _ => writes.known⟩
  · refine List.forall_mem_append.mpr ⟨readable.builtins, List.forall_mem_singleton.mpr ?_⟩
    exact fun op called => nomatch writes.related.symm.trans called
  · exact List.forall_mem_append.mpr ⟨readable.plain, List.forall_mem_singleton.mpr nofun⟩
  · rw [List.filter_append, List.filter_singleton, negative, cond_false, List.append_nil]
    exact readable.ordered
  · exact List.forall_mem_append.mpr
      ⟨readable.required, List.forall_mem_singleton.mpr fun _ => writes.required⟩
  · refine List.forall_mem_append.mpr ⟨fun a inside other v within =>
      (readable.needed a inside other v within).mono wider, List.forall_mem_singleton.mpr ?_⟩
    exact fun _ v within => (writes.resolved v within).mono wider
  · intro i a found positive
    rw [List.getElem?_append] at found
    split at found
    · exact readable.stamped i a found positive
    · have last := List.mem_singleton.mp (List.mem_of_getElem? found)
      rw [last] at positive
      cases positive

theorem binds_of_append (negated : own.negated = true) {name : String}
    (binds : Binds (body ++ [own]) name) : Binds body name := by
  refine binds.mono fun a inside plain => ?_
  rcases List.mem_append.mp inside with before | last
  · exact before
  · rw [List.mem_singleton.mp last, negated] at plain
    cases plain

theorem Readable.of_append (negated : own.negated = true)
    (readable : Readable catalog rule guard (body ++ [own])) : Readable catalog rule guard body where
  known a inside := readable.known a (List.mem_append_left _ inside)
  builtins a inside := readable.builtins a (List.mem_append_left _ inside)
  plain a inside := readable.plain a (List.mem_append_left _ inside)
  ordered := by
    have ordered := readable.ordered
    rw [List.filter_append] at ordered
    exact (List.pairwise_append.mp ordered).1
  required a inside := readable.required a (List.mem_append_left _ inside)
  needed a inside other v within :=
    (readable.needed a (List.mem_append_left _ inside) other v within).mono
      fun _ => binds_of_append negated
  stamped i a found := readable.stamped i a (by
    rw [List.getElem?_append_left (List.getElem?_eq_some_iff.mp found).1, found])

theorem negated_of_same {a b : Atom} (same : a.same b = true) : a.negated = b.negated := by
  simp only [Atom.same, Bool.and_eq_true, decide_eq_true_eq] at same
  exact same.1.2

theorem Readable.insertionBody {setSemantics : Bool} (readable : Readable catalog rule guard body)
    (writes : Writes catalog rule body head) :
    Readable catalog rule guard (insertionBody setSemantics r head body).1 ∧
      ∀ name, Binds body name → Binds (insertionBody setSemantics r head body).1 name := by
  -- Leaving out the last atom, where that is the negated head, is no loss.
  have shortened {whole : List Atom} (readable : Readable catalog rule guard whole)
      (wider : ∀ name, Binds body name → Binds whole name) :
      let kept := (if whole.getLast?.any (·.same head.negate) && !r.hasStratum head.kind
        then (whole.dropLast, true) else (whole, false)).1
      Readable catalog rule guard kept ∧ ∀ name, Binds body name → Binds kept name := by
    intro kept
    by_cases last : (whole.getLast?.any (·.same head.negate) && !r.hasStratum head.kind) = true
    · obtain ⟨a, found, same⟩ := (Option.any_eq_true ..).mp (Bool.and_eq_true_iff.mp last).1
      have parts : whole = whole.dropLast ++ [a] := (List.dropLast_append_getLast? a found).symm
      have negated : a.negated = true := negated_of_same same
      have short : kept = whole.dropLast := by simp only [kept, last, if_true]
      rw [short]
      rw [parts] at readable
      refine ⟨readable.of_append negated, fun name binds => ?_⟩
      have whole_ := wider name binds
      rw [parts] at whole_
      exact binds_of_append negated whole_
    · have all : kept = whole := by simp only [kept, last, if_false, Bool.false_eq_true]
      rw [all]
      exact ⟨readable, wider⟩
  unfold Lowering.insertionBody
  dsimp only
  split
  · exact shortened (readable.append writes)
      fun _ => Binds.mono fun a inside _ => List.mem_append_left _ inside
  · exact shortened readable fun _ => id

end Heads

section Rules

variable {r : Relation} {head : Atom}

theorem projectColumns_total {places : List (Term × Column)} {i : Nat}
    (resolved : ∀ p ∈ places, ∀ v ∈ p.1.vars, Resolved ctx.rule (Has bindings) v) :
    ∃ es, projectColumns ctx r bindings i places = .ok es := by
  induction places generalizing i with
  | nil => exact ⟨[], rfl⟩
  | cons p rest ih =>
    obtain ⟨first, others⟩ := List.forall_mem_cons.mp resolved
    obtain ⟨b, here⟩ := value_total first
    obtain ⟨es, later⟩ := ih (i := i + 1) others
    exact ⟨_, by rw [projectColumns, here]; simp only [bind, Except.bind, later]; rfl⟩

theorem correlate_total {table : String} {places : List (Term × Column)}
    (resolved : ∀ p ∈ places, ∀ v ∈ p.1.vars, Resolved ctx.rule (Has bindings) v) :
    ∃ es, correlate ctx table r bindings places = .ok es := by
  induction places with
  | nil => exact ⟨[], rfl⟩
  | cons p rest ih =>
    obtain ⟨first, others⟩ := List.forall_mem_cons.mp resolved
    obtain ⟨b, here⟩ := value_total first
    obtain ⟨es, later⟩ := ih others
    exact ⟨_, by rw [correlate, here]; simp only [bind, Except.bind, later]; rfl⟩

theorem resolved_places {names : String → Prop} {rule : Rule} {columns : List Column}
    (resolved : ∀ v ∈ head.vars, Resolved rule names v) :
    ∀ p ∈ head.args.zip columns, ∀ v ∈ p.1.vars, Resolved rule names v :=
  fun _ inside v within =>
    resolved v (List.mem_flatMap.mpr ⟨_, (List.of_mem_zip inside).1, within⟩)

def Near (rule : Rule) : Prop :=
  ∀ offset, rule.stamp = some (.iteration offset) → -1 ≤ offset ∧ offset ≤ 1

theorem Near.unstamped {rule : Rule} (unstamped : rule.stamp = none) : Near rule :=
  fun _ stamped => absurd (unstamped.symm.trans stamped) (Option.some_ne_none _).symm

theorem project_total (range : ctx.iteration.InRange) (near : Near ctx.rule)
    (resolved : ∀ v ∈ head.vars, Resolved ctx.rule (Has bindings) v) :
    ∃ es, project ctx r head bindings = .ok es := by
  obtain ⟨es, projected⟩ := projectColumns_total (r := r) (i := 0)
    (@resolved_places _ _ _ r.columns resolved)
  have stamp : ∃ e, stampExpr ctx = .ok e := by
    unfold stampExpr
    split
    · exact ⟨_, rfl⟩
    · rename_i offset stamped
      exact Iteration.expr_total range (near offset stamped)
    · exact ⟨_, rfl⟩
  obtain ⟨e, stamped⟩ := stamp
  unfold project
  rw [projected]
  dsimp only [bind, Except.bind]
  split
  · exact ⟨_, by rw [stamped]⟩
  · exact ⟨_, rfl⟩

end Rules

end Lowering

open Lowering in
structure Rule.Lowerable (catalog : Catalog) (r : Rule) : Prop where
  body : r.body ≠ []
  readable : Readable catalog r r.guard r.body
  head : ∃ head, r.head = [head] ∧ Writes catalog r r.body head
  near : Near r

namespace Lowering

variable {ctx : Context} {r : Relation} {head : Atom}

theorem lowerInsert_total {setSemantics : Bool} (range : ctx.iteration.InRange)
    (lowerable : ctx.rule.Lowerable ctx.catalog) (writes : Writes ctx.catalog ctx.rule ctx.rule.body head) :
    ∃ s, lowerInsert ctx head r setSemantics = .ok s := by
  obtain ⟨readable, wider⟩ :=
    @Readable.insertionBody _ _ _ _ r _ setSemantics lowerable.readable writes
  obtain ⟨scope, lowered, bound⟩ := lowerBody_total range readable
  obtain ⟨es, projected⟩ := project_total (r := r) range lowerable.near fun v inside =>
    (writes.resolved v inside).mono fun name binds => bound name (wider name binds)
  unfold lowerInsert
  simp only [Rule.isFact, List.isEmpty_iff, if_neg lowerable.body, lowered, bind, Except.bind,
    projected]
  exact ⟨_, rfl⟩

theorem lowerDelete_total (range : ctx.iteration.InRange)
    (lowerable : ctx.rule.Lowerable ctx.catalog) (writes : Writes ctx.catalog ctx.rule ctx.rule.body head) :
    ∃ s, lowerDelete ctx head r = .ok s := by
  obtain ⟨scope, lowered, bound⟩ := lowerBody_total range lowerable.readable
  obtain ⟨es, correlated⟩ := @correlate_total ctx scope.bindings r (r.tableName head.kind) _
    (@resolved_places _ _ _ r.columns fun v inside => (writes.resolved v inside).mono bound)
  unfold lowerDelete
  simp only [Rule.isFact, List.isEmpty_iff, if_neg lowerable.body, lowered, bind, Except.bind,
    correlated]
  exact ⟨_, rfl⟩

theorem lowerView_total (range : ctx.iteration.InRange)
    (lowerable : ctx.rule.Lowerable ctx.catalog) (writes : Writes ctx.catalog ctx.rule ctx.rule.body head) :
    ∃ s, lowerView ctx head r = .ok s := by
  have unguarded : Readable ctx.catalog ctx.rule none ctx.rule.body :=
    { lowerable.readable with stamped := fun _ _ _ _ => .unguarded }
  obtain ⟨scope, lowered, bound⟩ := lowerBody_total range unguarded
  obtain ⟨es, projected⟩ := project_total (r := r) range lowerable.near fun v inside =>
    (writes.resolved v inside).mono bound
  unfold lowerView
  simp only [lowered, bind, Except.bind, projected]
  exact ⟨_, rfl⟩

end Lowering

theorem Rule.Lowerable.lower {catalog : Catalog} {config : Config} {iteration : Iteration} {r : Rule}
    (lowerable : r.Lowerable catalog) (range : iteration.InRange) :
    ∃ statements, r.lower catalog config iteration = .ok statements := by
  let ctx : Lowering.Context := ⟨catalog, config, r, iteration⟩
  obtain ⟨head, heads, writes⟩ := lowerable.head
  obtain ⟨relation, found, -⟩ := @Lowering.relationOf_total ctx head writes.known
  have total : ∃ statements, Lowering.lowerRule ctx = .ok statements := by
    unfold Lowering.lowerRule
    simp only [ctx, heads]
    rw [found]
    dsimp only [bind, Except.bind]
    cases r.action with
    | derive =>
      obtain ⟨s, lowered⟩ := @Lowering.lowerInsert_total ctx relation head _ range lowerable writes
      simp only [ctx] at lowered
      exact ⟨_, by rw [lowered]⟩
    | retract =>
      obtain ⟨s, lowered⟩ := @Lowering.lowerDelete_total ctx relation head range lowerable writes
      exact ⟨_, by rw [lowered]⟩
    | view =>
      obtain ⟨s, lowered⟩ := @Lowering.lowerView_total ctx relation head range lowerable writes
      exact ⟨_, by rw [lowered]⟩
    | replace =>
      obtain ⟨s, lowered⟩ :=
        @Lowering.lowerInsert_total ctx relation head false range lowerable writes
      exact ⟨_, by rw [lowered]⟩
  obtain ⟨statements, lowered⟩ := total
  exact ⟨statements, by rw [Rule.lower, lowered]⟩

end PeerExchange
