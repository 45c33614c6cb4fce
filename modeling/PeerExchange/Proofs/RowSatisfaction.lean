import PeerExchange.Proofs.LoweredBodies
import PeerExchange.Proofs.RowAssignments

namespace PeerExchange

open Sql (BinaryOp Database Row Typed Value)

namespace RowSemantics

variable {ctx : Lowering.Context} {db : Database} {env : Env} {σ : Assignment} {names : List String}

section Comparing

variable {a b : Typed} {type : ColumnType}

theorem holds_is_iff : Holds .is a b ↔ a.order b = .eq := by
  simp [Holds, BinaryOp.compare, BinaryOp.accepts]

theorem holds_eq_iff : Holds .eq a b ↔ a.value ≠ .null ∧ b.value ≠ .null ∧ a.order b = .eq := by
  unfold Holds BinaryOp.compare
  by_cases left : a.value = .null <;> by_cases right : b.value = .null <;>
    simp [left, right, BinaryOp.accepts]

theorem null_of_order (same : a.order b = .eq) : a.value = .null ↔ b.value = .null := by
  unfold Typed.order at same
  dsimp only at same
  generalize Typed.comparisonType a.type b.type = type at same
  constructor
  · intro null
    rw [null, show Value.null.keep type = .null from Lowering.keep_eq_null_iff.mpr rfl] at same
    rw [← Value.order_swap, Ordering.swap_eq_eq, Lowering.order_null_iff] at same
    exact Lowering.keep_eq_null_iff.mp same
  · intro null
    rw [null, show Value.null.keep type = .null from Lowering.keep_eq_null_iff.mpr rfl,
      Lowering.order_null_iff] at same
    exact Lowering.keep_eq_null_iff.mp same

-- A value that a column of the type keeps as it is, read from such a column or typed by nothing.
structure Fits (type : ColumnType) (a : Typed) : Prop where
  typed : a.type = some type ∨ a.type = none
  kept : a.value.store type = a.value

theorem order_of_fits (own : a.type = some type) (fits : Fits type a) (other : Fits type b) :
    a.order b = a.value.order b.value := by
  have raw (common : Option ColumnType) (known : common = some type ∨ common = none) :
      (a.value.keep common).order (b.value.keep common) = a.value.order b.value := by
    rcases known with rfl | rfl
    · rw [Value.keep, Value.keep, fits.kept, other.kept]
    · rfl
  refine raw _ ?_
  rw [own]
  rcases other.typed with typed | untyped
  · rw [typed]
    cases type with
    | text => exact .inr rfl
    | integer => exact .inl rfl
  · rw [untyped]
    cases type <;> exact .inl rfl

theorem agrees_iff {op : BinaryOp} {place m : Meaning} {t : Term} (equates : op = .eq ∨ op = .is)
    (plain : t.isPlain = true) (meant : denote ctx env t = some m) (unmarked : place.marker = none)
    (honest : m.Honest) : Agrees ctx env op place t ↔ Holds op place.value m.value := by
  have nonnull : t.isNull = false := by
    unfold Term.isNull
    split
    · cases plain
    · rfl
  have marks (holds : Holds op place.value m.value) : Holds op place.mark m.mark := by
    have same : place.mark = m.mark := by
      have order : place.value.order m.value = .eq := by
        rcases equates with rfl | rfl
        · exact (holds_eq_iff.mp holds).2.2
        · exact holds_is_iff.mp holds
      rw [honest, Meaning.mark, unmarked, Option.getD_none]
      simp only [null_of_order order]
    rw [same, honest]
    rcases equates with rfl | rfl
    · exact holds_eq_iff.mpr ⟨by rintro ⟨⟩, by rintro ⟨⟩, holds_is_iff.mp (holds_is_self _)⟩
    · exact holds_is_self _
  unfold Agrees
  simp only [nonnull, Bool.false_eq_true, if_false, meant, Option.some.injEq, exists_eq_left']
  exact ⟨fun both => both.2, fun holds => ⟨fun _ => marks holds, holds⟩⟩

end Comparing

section Atoms

variable {a : Atom} {row : Row} {ps : List (Meaning × Term)}

def cells (c : Catalog) (db : Database) (a : Atom) (row : Row) : List (Typed × Term) :=
  (places c db a row).map fun p => (p.1.value, p.2)

-- A row that is identical to the arguments of an atom. A variable outside the names is local to
-- the atom, and stands for what the row has at its first place.
def Assignment.Hits (σ : Assignment) (c : Catalog) (db : Database) (names : List String) (a : Atom)
    (row : Row) : Prop :=
  ∀ p ∈ cells c db a row, Holds .is p.1 ((σ.extended names (cells c db a row)).value p.2)

theorem reads_bound (reads : Reads env σ names) (unmarked : ∀ p ∈ ps, p.1.marker = none) :
    Reads (bound env ps) (σ.extended names (ps.map fun p => (p.1.value, p.2)))
      ((ps.filterMap fun p => name? p.2) ++ names) where
  named x := by
    rw [Bool.eq_iff_iff, contains_bound, ← reads.named, List.contains_iff_mem, List.contains_iff_mem,
      List.mem_append, or_comm]
  read x m found := by
    rw [get?_bound] at found
    unfold Assignment.extended
    cases known : env.get? x with
    | some own =>
      rw [known, Option.some_or] at found
      cases found
      have inside : x ∈ names := by
        rw [← List.contains_iff_mem, reads.named]
        exact NameMap.contains_of_get? known
      rw [if_pos inside]
      exact reads.read x m known
    | none =>
      rw [known, Option.none_or] at found
      have outside : x ∉ names := by
        rw [← List.contains_iff_mem, reads.named, NameMap.contains, known]
        rintro ⟨⟩
      rw [if_neg outside, first?_map, found]
      obtain ⟨p, first, rfl⟩ := Option.map_eq_some_iff.mp found
      refine ⟨rfl, ?_⟩
      have plain := unmarked p (List.mem_of_find?_eq_some first)
      rw [Meaning.Honest, Meaning.mark, plain, Option.getD_none]

theorem place_cases {final : Env} {op : BinaryOp} {before after : List (Meaning × Term)}
    {p : Meaning × Term} (equates : op = .eq ∨ op = .is)
    (keeps : ∀ x m, (bound env (before ++ p :: after)).get? x = some m → final.get? x = some m)
    (reads : Reads final σ names) (unmarked : p.1.marker = none) (plain : p.2.isPlain = true) :
    ((binder? (bound env before) p.2).isSome = true ∧ σ.value p.2 = p.1.value) ∨
      binder? (bound env before) p.2 = none ∧
        (Agrees ctx final op p.1 p.2 ↔ Holds op p.1.value (σ.value p.2)) := by
  obtain ⟨place, t⟩ := p
  dsimp only at unmarked plain ⊢
  rw [bound_append] at keeps
  cases binds : binder? (bound env before) t with
  | some x =>
    refine .inl ⟨rfl, ?_⟩
    obtain ⟨named, fresh⟩ := binder?_eq_some.mp binds
    obtain ⟨v, rfl, rfl, -⟩ := name?_eq named
    have unbound : (bound env before).get? v.name = none := by
      rw [NameMap.contains] at fresh
      exact Option.not_isSome_iff_eq_none.mp (Bool.not_eq_true _ ▸ fresh)
    have own : (bound (bound env before) ((place, .variable v) :: after)).get? v.name = some place := by
      rw [get?_bound, unbound, Option.none_or, first?, List.find?_cons_of_pos (by simpa using named)]
      rfl
    exact (reads.read v.name place (keeps v.name place own)).1.symm
  | none =>
    refine .inr ⟨rfl, ?_⟩
    have known : ∀ v ∈ t.vars, names.contains v.name = true := by
      intro v listed
      cases t with
      | «variable» u =>
        cases List.mem_singleton.mp listed
        have inside : (bound env before).contains v.name = true := by
          by_contra fresh
          have named : name? (.variable v) = some v.name := if_pos plain
          have binder := binder?_eq_some.mpr ⟨named, Bool.not_eq_true _ ▸ fresh⟩
          rw [binds] at binder
          cases binder
        obtain ⟨m, found⟩ := NameMap.get?_of_contains inside
        have later : (bound (bound env before) ((place, .variable v) :: after)).get? v.name = some m := by
          rw [get?_bound, found, Option.some_or]
        rw [reads.named]
        exact NameMap.contains_of_get? (keeps v.name m later)
      | constant type literal => cases listed
      | skolem function args => cases plain
    obtain ⟨m, meant, same, honest⟩ := @Reads.denote ctx _ _ _ reads _ plain known
    rw [agrees_iff equates plain meant unmarked honest, same]

theorem identical_iff (reads : Reads env σ names)
    (unmarked : ∀ p ∈ places ctx.catalog db a row, p.1.marker = none)
    (plain : ∀ p ∈ places ctx.catalog db a row, p.2.isPlain = true) :
    Identical ctx db env a row ↔ σ.Hits ctx.catalog db names a row := by
  unfold Identical Assignment.Hits cells
  generalize places ctx.catalog db a row = ps at unmarked plain
  have inner := reads_bound reads unmarked
  have each (before : List (Meaning × Term)) (p : Meaning × Term) (after : List (Meaning × Term))
      (split : ps = before ++ p :: after) :=
    @place_cases ctx env _ _ (bound env ps) .is before after p (.inr rfl) (split ▸ fun _ _ found => found)
      inner (unmarked p (split ▸ by simp)) (plain p (split ▸ by simp))
  rw [agree_iff, List.forall_mem_map]
  constructor
  · intro agree p inside
    obtain ⟨before, after, split⟩ := List.append_of_mem inside
    rcases each before p after split with ⟨-, own⟩ | ⟨compared, agrees⟩
    · rw [own]
      exact holds_is_self _
    · exact agrees.mp (agree before p after split compared)
  · intro holds before p after split compared
    rcases each before p after split with ⟨binds, -⟩ | ⟨-, agrees⟩
    · rw [compared] at binds
      cases binds
    · exact agrees.mpr (holds p (split ▸ by simp))

end Atoms

section Joining

variable {final : Env} {ps : List (Meaning × Term)} {typeOf : String → ColumnType}

def WellTyped (typeOf : String → ColumnType) (p : Meaning × Term) : Prop :=
  ∃ type, p.1.value.type = some type ∧ Fits type p.1.value ∧
    (∀ v, p.2 = .variable v → type = typeOf v.name) ∧
    ∀ own literal, p.2 = .constant own literal → Fits type (Meaning.ofLiteral own literal).value

theorem two_le_count {α : Type} {f : α → Option String} {items : List α} {x : String} :
    2 ≤ (items.filterMap f).count x ↔
      ∃ before item after, items = before ++ item :: after ∧ f item = some x ∧
        x ∈ before.filterMap f := by
  constructor
  · induction items with
    | nil => exact fun twice => absurd twice (by simp)
    | cons first rest ih =>
      intro twice
      rw [List.filterMap_cons] at twice
      split at twice
      · obtain ⟨before, item, after, split, own, earlier⟩ := ih twice
        refine ⟨first :: before, item, after, by rw [split, List.cons_append], own, ?_⟩
        exact List.filterMap_subset f (List.subset_cons_self first before) earlier
      · rename_i y named
        by_cases same : y = x
        · subst same
          rw [List.count_cons_self] at twice
          have again : y ∈ rest.filterMap f := List.count_pos_iff.mp (by omega)
          obtain ⟨item, inside, own⟩ := List.mem_filterMap.mp again
          obtain ⟨before, after, split⟩ := List.append_of_mem inside
          refine ⟨first :: before, item, after, by rw [split, List.cons_append], own, ?_⟩
          exact List.mem_filterMap.mpr ⟨first, List.mem_cons_self, named⟩
        · rw [List.count_cons_of_ne same] at twice
          obtain ⟨before, item, after, split, own, earlier⟩ := ih twice
          refine ⟨first :: before, item, after, by rw [split, List.cons_append], own, ?_⟩
          exact List.filterMap_subset f (List.subset_cons_self first before) earlier
  · rintro ⟨before, item, after, rfl, own, earlier⟩
    have once := List.count_pos_iff.mpr earlier
    rw [List.filterMap_append, List.count_append, List.filterMap_cons_some own, List.count_cons_self]
    omega

theorem constant_value_ne_null {type : Option ColumnType} {literal : Literal}
    (plain : (Term.constant type literal).isPlain = true) :
    (Meaning.ofLiteral type literal).value.value ≠ .null := by
  cases literal with
  | string s => exact nofun
  | integer n => exact Value.ofInteger_ne_null n
  | null => cases plain
  | labeledNull label => cases plain

theorem fits_value (keeps : ∀ x m, (bound .empty ps).get? x = some m → final.get? x = some m)
    (reads : Reads final σ names) (plain : ∀ p ∈ ps, p.2.isPlain = true)
    (typed : ∀ p ∈ ps, WellTyped typeOf p) {p : Meaning × Term} (inside : p ∈ ps) :
    ∃ type, p.1.value.type = some type ∧ Fits type p.1.value ∧ Fits type (σ.value p.2) := by
  obtain ⟨type, own, fits, onVariable, onConstant⟩ := typed p inside
  refine ⟨type, own, fits, ?_⟩
  cases shape : p.2 with
  | «variable» v =>
    have named : name? p.2 = some v.name := by
      have unmarked := plain p inside
      rw [shape] at unmarked ⊢
      exact if_pos unmarked
    have listed : v.name ∈ ps.filterMap fun p => name? p.2 := List.mem_filterMap.mpr ⟨p, inside, named⟩
    obtain ⟨m, first⟩ := Option.isSome_iff_exists.mp (first?_isSome.mpr listed)
    have found : (bound .empty ps).get? v.name = some m := by
      rw [get?_bound, first]
      rfl
    obtain ⟨q, at_, rfl⟩ := Option.map_eq_some_iff.mp first
    obtain ⟨other, otherOwn, otherFits, otherVariable, -⟩ := typed q (List.mem_of_find?_eq_some at_)
    have bound := List.find?_some at_
    obtain ⟨u, same, equal, -⟩ := name?_eq (of_decide_eq_true bound)
    rw [onVariable v shape, ← equal, ← otherVariable u same, Assignment.value,
      ← (reads.read v.name q.1 (keeps v.name q.1 found)).1]
    exact otherFits
  | constant type literal => exact onConstant type literal shape
  | skolem function args =>
    have unmarked := plain p inside
    rw [shape] at unmarked
    cases unmarked

-- Joined places agree where every place holds what its term stands for, and what stands at two
-- places is not null.
theorem joined_iff (keeps : ∀ x m, (bound .empty ps).get? x = some m → final.get? x = some m)
    (reads : Reads final σ names) (unmarked : ∀ p ∈ ps, p.1.marker = none)
    (plain : ∀ p ∈ ps, p.2.isPlain = true) (typed : ∀ p ∈ ps, WellTyped typeOf p) :
    Agree ctx final .eq .empty ps ↔
      (∀ p ∈ ps, (σ.value p.2).value.same p.1.value.value = true) ∧
        ∀ x, 2 ≤ (ps.filterMap fun p => name? p.2).count x → (σ x).value ≠ .null := by
  have each (before : List (Meaning × Term)) (p : Meaning × Term) (after : List (Meaning × Term))
      (split : ps = before ++ p :: after) :=
    @place_cases ctx .empty _ _ final .eq before after p (.inl rfl) (split ▸ keeps) reads
      (unmarked p (split ▸ by simp)) (plain p (split ▸ by simp))
  have compare (p : Meaning × Term) (inside : p ∈ ps) : Holds .eq p.1.value (σ.value p.2) ↔
      (σ.value p.2).value ≠ .null ∧ (σ.value p.2).value.same p.1.value.value = true := by
    obtain ⟨type, own, fits, other⟩ := fits_value keeps reads plain typed inside
    have raw := order_of_fits own fits other
    rw [holds_eq_iff, raw, Value.same_comm, Value.same, decide_eq_true_eq]
    constructor
    · exact fun all => all.2
    · intro both
      refine ⟨fun null => both.1 ?_, both⟩
      exact (null_of_order (raw.trans both.2)).mp null
  rw [agree_iff]
  constructor
  · intro agree
    refine ⟨fun p inside => ?_, fun x twice => ?_⟩
    · obtain ⟨before, after, split⟩ := List.append_of_mem inside
      rcases each before p after split with ⟨-, own⟩ | ⟨compared, agrees⟩
      · rw [own]
        exact Value.same_self _
      · exact ((compare p inside).mp (agrees.mp (agree before p after split compared))).2
    · obtain ⟨before, p, after, split, named, earlier⟩ := two_le_count.mp twice
      have inside : p ∈ ps := split ▸ by simp
      obtain ⟨v, shape, rfl, -⟩ := name?_eq named
      rcases each before p after split with ⟨binds, -⟩ | ⟨compared, agrees⟩
      · obtain ⟨y, binder⟩ := Option.isSome_iff_exists.mp binds
        obtain ⟨own, fresh⟩ := binder?_eq_some.mp binder
        cases named.symm.trans own
        rw [contains_bound.mpr (.inr earlier)] at fresh
        cases fresh
      · have known := ((compare p inside).mp (agrees.mp (agree before p after split compared))).1
        rw [shape] at known
        exact known
  · rintro ⟨same, repeated⟩ before p after split compared
    have inside : p ∈ ps := split ▸ by simp
    rcases each before p after split with ⟨binds, -⟩ | ⟨-, agrees⟩
    · rw [compared] at binds
      cases binds
    · refine agrees.mpr ((compare p inside).mpr ⟨?_, same p inside⟩)
      cases shape : p.2 with
      | «variable» v =>
        have unmarked := plain p inside
        rw [shape] at unmarked compared
        have named : name? (.variable v) = some v.name := if_pos unmarked
        refine repeated v.name (two_le_count.mpr ⟨before, p, after, split, shape ▸ named, ?_⟩)
        by_contra unseen
        have fresh : (bound .empty before).contains v.name = false := by
          rw [← Bool.not_eq_true, contains_bound]
          rintro (none | seen)
          · cases none
          · exact unseen seen
        rw [binder?_eq_some.mpr ⟨named, fresh⟩] at compared
        cases compared
      | constant type literal =>
        have literal_ := plain p inside
        rw [shape] at literal_
        exact constant_value_ne_null literal_
      | skolem function args =>
        have unmarked := plain p inside
        rw [shape] at unmarked
        cases unmarked

end Joining

section Bodies

variable {parameter : Int} {guard : Option Guard} {body : List Atom} {rows : List Row}
  {typeOf : String → ColumnType}

def joinedCells (ctx : Lowering.Context) (db : Database) (body : List Atom) (rows : List Row) :
    List (Typed × Term) :=
  (joinedPlaces ctx db body rows).map fun p => (p.1.value, p.2)

-- The variables of the joined atoms.
def joinedNames (body : List Atom) : List String :=
  (positives 0 body).flatMap fun p => p.2.args.filterMap name?

def steps (body : List Atom) : List Step :=
  schedule ((builtins body).length + 1) (builtins body) (joinedNames body)

def boundNames (body : List Atom) : List String := after (joinedNames body) (steps body)

-- An assignment under which a body holds on stored rows: each joined atom's row is its row, a
-- variable at two places of joined atoms is not null, each built-in binds its variable or is true,
-- and no negated atom has a row.
structure Satisfies (ctx : Lowering.Context) (db : Database) (parameter : Int)
    (guard : Option Guard) (body : List Atom) (rows : List Row) (σ : Assignment) : Prop where
  chosen : List.Forall₂ (Chosen ctx db parameter guard) (positives 0 body) rows
  first : ∀ x m, first? x (joinedCells ctx db body rows) = some m → σ x = m
  joined : ∀ p ∈ joinedCells ctx db body rows, (σ.value p.2).value.same p.1.value = true
  repeated : ∀ x, 2 ≤ ((joinedCells ctx db body rows).filterMap fun p => name? p.2).count x →
    (σ x).value ≠ .null
  settled : ∀ s ∈ steps body, σ.Settles s
  absent : ∀ a ∈ body, a.negated = true → ∀ row ∈ db.rows (tableOf ctx.catalog a),
    ¬ σ.Hits ctx.catalog db (boundNames body) a row

-- Plain arguments over relations without markers, of the types of their columns.
structure Regular (ctx : Lowering.Context) (db : Database) (typeOf : String → ColumnType)
    (body : List Atom) : Prop where
  plain : ∀ a ∈ body, ∀ t ∈ a.args, t.isPlain = true
  arities : ∀ a ∈ body, a.isPositive = true → ∃ r, Lowering.relationOf ctx a = .ok r
  unmarked : ∀ a ∈ body, ∀ row, ∀ p ∈ places ctx.catalog db a row, p.1.marker = none
  typed : ∀ a ∈ body, a.isPositive = true → ∀ row ∈ db.rows (tableOf ctx.catalog a),
    ∀ p ∈ places ctx.catalog db a row, WellTyped typeOf p

theorem places_plain {a : Atom} (plain : ∀ t ∈ a.args, t.isPlain = true) {row : Row} :
    ∀ p ∈ places ctx.catalog db a row, p.2.isPlain = true := by
  intro p inside
  unfold places at inside
  split at inside
  · obtain ⟨⟨arg, column⟩, listed, rfl⟩ := List.mem_map.mp inside
    exact plain arg (List.of_mem_zip listed).1
  · cases inside

theorem mem_joinedPlaces (chosen : List.Forall₂ (Chosen ctx db parameter guard) (positives 0 body) rows)
    {p : Meaning × Term} (inside : p ∈ joinedPlaces ctx db body rows) :
    ∃ a ∈ body, a.isPositive = true ∧ ∃ row ∈ db.rows (tableOf ctx.catalog a),
      p ∈ places ctx.catalog db a row := by
  obtain ⟨ps, listed, member⟩ := List.mem_flatten.mp inside
  rw [← List.map_uncurry_zip_eq_zipWith] at listed
  obtain ⟨⟨q, row⟩, zipped, rfl⟩ := List.mem_map.mp listed
  obtain ⟨inBody, positive⟩ := Lowering.positives_mem (List.of_mem_zip zipped).1
  exact ⟨q.2, inBody, positive, row, ((List.forall₂_iff_zip.mp chosen).2 zipped).1, member⟩

theorem joinedPlaces_names (regular : Regular ctx db typeOf body)
    (chosen : List.Forall₂ (Chosen ctx db parameter guard) (positives 0 body) rows) :
    ((joinedPlaces ctx db body rows).filterMap fun p => name? p.2) = joinedNames body := by
  have arities : ∀ q ∈ positives 0 body, ∃ r, Lowering.relationOf ctx q.2 = .ok r := by
    intro q listed
    obtain ⟨inBody, positive⟩ := Lowering.positives_mem listed
    exact regular.arities q.2 inBody positive
  unfold joinedPlaces joinedNames
  generalize positives 0 body = joined at chosen arities
  induction chosen with
  | nil => rfl
  | @cons q row _ _ _ _ ih =>
    obtain ⟨⟨r, found⟩, arities⟩ := List.forall_mem_cons.mp arities
    rw [List.zipWith_cons_cons, List.flatten_cons, List.filterMap_append, ih arities, List.flatMap_cons,
      ← @Lowering.places_terms _ db _ _ row found, List.filterMap_map]
    rfl

section Bridge

variable (regular : Regular ctx db typeOf body)
include regular

theorem steps_plain : ∀ s ∈ steps body, ∀ t ∈ s.atom.args, t.isPlain = true := by
  intro s inside
  exact regular.plain s.atom (List.mem_of_mem_filter (mem_schedule inside))

theorem named_joined (chosen : List.Forall₂ (Chosen ctx db parameter guard) (positives 0 body) rows)
    (x : String) : (joinedNames body).contains x =
      (bound .empty (joinedPlaces ctx db body rows)).contains x := by
  rw [Bool.eq_iff_iff, contains_bound, joinedPlaces_names regular chosen, List.contains_iff_mem]
  simp [NameMap.contains]

theorem reads_joined (chosen : List.Forall₂ (Chosen ctx db parameter guard) (positives 0 body) rows)
    (first : ∀ x m, first? x (joinedCells ctx db body rows) = some m → σ x = m) :
    Reads (bound .empty (joinedPlaces ctx db body rows)) σ (joinedNames body) where
  named := named_joined regular chosen
  read x m found := by
    rw [get?_bound] at found
    have at_ : first? x (joinedPlaces ctx db body rows) = some m := by simpa using found
    obtain ⟨p, placed, rfl⟩ := Option.map_eq_some_iff.mp at_
    refine ⟨(first x p.1.value ?_).symm, ?_⟩
    · rw [joinedCells, first?_map, at_]
      rfl
    · obtain ⟨a, inBody, -, row, -, member⟩ := mem_joinedPlaces chosen (List.mem_of_find?_eq_some placed)
      have unmarked := regular.unmarked a inBody row p member
      rw [Meaning.Honest, Meaning.mark, unmarked, Option.getD_none]

theorem schedule_joined
    (chosen : List.Forall₂ (Chosen ctx db parameter guard) (positives 0 body) rows) :
    schedule ((builtins body).length + 1) (builtins body)
      (bound .empty (joinedPlaces ctx db body rows)).keys = steps body := by
  refine schedule_congr (fun x => ?_) _
  rw [named_joined regular chosen, Bool.eq_iff_iff, List.contains_iff_mem, NameMap.mem_keys]

theorem match_iff (reads : Reads env σ (boundNames body))
    (chosen : List.Forall₂ (Chosen ctx db parameter guard) (positives 0 body) rows)
    (keeps : ∀ x m, (bound .empty (joinedPlaces ctx db body rows)).get? x = some m →
      env.get? x = some m) :
    (Agree ctx env .eq .empty (joinedPlaces ctx db body rows) ↔
      (∀ p ∈ joinedCells ctx db body rows, (σ.value p.2).value.same p.1.value = true) ∧
        ∀ x, 2 ≤ ((joinedCells ctx db body rows).filterMap fun p => name? p.2).count x →
          (σ x).value ≠ .null) ∧
      ((∀ a ∈ body, a.negated = true → ∀ row ∈ db.rows (tableOf ctx.catalog a),
          ¬ Identical ctx db env a row) ↔
        ∀ a ∈ body, a.negated = true → ∀ row ∈ db.rows (tableOf ctx.catalog a),
          ¬ σ.Hits ctx.catalog db (boundNames body) a row) := by
  constructor
  · have onPlaces {P : Meaning × Term → Prop} (each : ∀ a ∈ body, a.isPositive = true →
        ∀ row ∈ db.rows (tableOf ctx.catalog a), ∀ p ∈ places ctx.catalog db a row, P p) :
        ∀ p ∈ joinedPlaces ctx db body rows, P p := by
      intro p inside
      obtain ⟨a, inBody, positive, row, stored, member⟩ := mem_joinedPlaces chosen inside
      exact each a inBody positive row stored p member
    rw [joined_iff keeps reads (onPlaces fun a inBody _ row _ => regular.unmarked a inBody row)
      (onPlaces fun a inBody _ _ _ => places_plain (regular.plain a inBody)) (onPlaces regular.typed),
      joinedCells, List.forall_mem_map, List.filterMap_map]
    rfl
  · refine forall₂_congr fun a inBody => forall_congr' fun _ => forall₂_congr fun row _ => not_congr ?_
    exact identical_iff reads (regular.unmarked a inBody row) (places_plain (regular.plain a inBody))

theorem satisfies_of_match (holds : Match ctx db parameter guard body rows env) :
    ∃ σ, Satisfies ctx db parameter guard body rows σ ∧ Reads env σ (boundNames body) := by
  let σ : Assignment := fun x => ((env.get? x).map Meaning.value).getD ⟨.null, none⟩
  have agrees (x : String) (m : Meaning) (found : env.get? x = some m) : m.value = σ x := by
    simp only [σ, found, Option.map_some, Option.getD_some]
  have ordered : Ordered (joinedNames body) (steps body) := schedule_ordered _
  have settle := holds.settled
  rw [schedule_joined regular holds.chosen] at settle
  have keeps := settle_keeps (named_joined regular holds.chosen) ordered settle
  have first (x : String) (m : Typed)
      (at_ : first? x (joinedCells ctx db body rows) = some m) : σ x = m := by
    rw [joinedCells, first?_map] at at_
    obtain ⟨place, found, rfl⟩ := Option.map_eq_some_iff.mp at_
    refine (agrees x place (keeps x place ?_)).symm
    rw [get?_bound, found]
    rfl
  have start := reads_joined regular holds.chosen first
  obtain ⟨settled, reads⟩ := start.settles_of_settle ordered (steps_plain regular) agrees settle
  obtain ⟨joined, absent⟩ := @match_iff _ _ _ _ _ _ _ _ _ regular reads holds.chosen keeps
  obtain ⟨same, repeated⟩ := joined.mp holds.joined
  exact ⟨σ, ⟨holds.chosen, first, same, repeated, settled, absent.mp holds.absent⟩, reads⟩

theorem match_of_satisfies (holds : Satisfies ctx db parameter guard body rows σ) :
    ∃ env, Match ctx db parameter guard body rows env ∧ Reads env σ (boundNames body) := by
  have start := reads_joined regular holds.chosen holds.first
  have ordered : Ordered (joinedNames body) (steps body) := schedule_ordered _
  obtain ⟨env, settle, reads⟩ := @Reads.settle_of_settles ctx _ _ _ _ start ordered (steps_plain regular)
    holds.settled
  have keeps := settle_keeps start.named ordered settle
  obtain ⟨joined, absent⟩ := @match_iff _ _ _ _ _ _ _ _ _ regular reads holds.chosen keeps
  refine ⟨env, ⟨holds.chosen, joined.mpr ⟨holds.joined, holds.repeated⟩, ?_, absent.mpr holds.absent⟩,
    reads⟩
  rw [schedule_joined regular holds.chosen]
  exact settle

end Bridge

end Bodies

end RowSemantics

end PeerExchange
