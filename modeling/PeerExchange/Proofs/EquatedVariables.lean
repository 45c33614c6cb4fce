import PeerExchange.Proofs.ReplacedBuiltins

namespace PeerExchange

open Sql (BinaryOp Database Row Typed Value)

namespace RowSemantics

variable {ctx : Lowering.Context} {env env' final final' : Env} {x y : String}
  {e t : Term} {type : ColumnType} {body : List Atom}

section Joining

variable {ps : List (Meaning × Term)} {c m m' : Meaning}

theorem eq_of_order {v w : Value} (here : Exact v) (there : Exact w) (same : v.order w = .eq) :
    v = w := by
  cases v with
  | null => cases w <;> first | rfl | cases same
  | integer n =>
    cases w with
    | integer k => exact congrArg Value.integer (Std.compare_eq_iff_eq.mp same)
    | real r => exact absurd rfl (there r)
    | null => cases same
    | text s => cases same
  | real r => exact absurd rfl (here r)
  | text s =>
    cases w with
    | text u => exact congrArg Value.text (Std.compare_eq_iff_eq.mp same)
    | real r => exact absurd rfl (there r)
    | null => cases same
    | integer k => cases same

theorem holds_of_fits {a b : Typed} (here : Fits type a) (there : Fits type b)
    (same : b.value = a.value) (known : a.value ≠ .null) : Holds .eq a b := by
  refine holds_eq_iff.mpr ⟨known, same ▸ known, ?_⟩
  rw [order_fits here there, same, Value.order_self]

theorem Resembles.holds {within : Option ColumnType} (like : Resembles within m m')
    (known : m.value.value ≠ .null) : Holds .eq m.value m'.value := by
  rcases like.typed with same | ⟨type, -, here, there⟩
  · rw [Resembles.value_eq ⟨like.value, .inl same, like.mark, like.counts, like.counts'⟩]
    exact holds_eq_iff.mpr ⟨known, known, holds_is_iff.mp (holds_is_self _)⟩
  · exact holds_of_fits here there like.value known

theorem eq_of_holds {type : ColumnType} {a b : Typed} (here : Fits type a) (there : Fits type b)
    (exact : Exact a.value) (exact' : Exact b.value) (holds : Holds .eq a b) : a.value = b.value := by
  have order := (holds_eq_iff.mp holds).2.2
  rw [order_fits here there] at order
  exact eq_of_order exact exact' order

theorem Sound.exact_mark (sound : Sound type m) : Exact m.mark.value := by
  obtain ⟨n, shown⟩ := sound.shown
  rw [shown]
  nofun

theorem Sound.resembles (here : Sound type m) (there : Sound type m')
    (value : m'.value.value = m.value.value) (mark : m'.mark.value = m.mark.value) :
    Resembles (some type) m m' :=
  ⟨value, .inr ⟨type, rfl, here.kept, there.kept⟩, mark, here.counts, there.counts⟩

theorem Resembles.narrow {within : Option ColumnType} (like : Resembles within m m')
    (typed : m'.value.type = m.value.type) : Resembles none m m' :=
  ⟨like.value, .inl typed, like.mark, like.counts, like.counts'⟩

-- Places of the equated that all hold one known value with one mark, which a constant has too.
structure Uniform (type : ColumnType) (x : String) (e : Term) (ps : List (Meaning × Term))
    (c : Meaning) : Prop where
  known : c.value.value ≠ .null
  each : ∀ p ∈ ps, Stands x e p.2 → Resembles none c p.1
  image : ∀ own value, e = .constant own value → Resembles (some type) c (.ofLiteral own value)

theorem name?_other (other : y ≠ x) (apart : ∀ w, e = .variable w → w.name ≠ y) (t : Term) :
    name? (t.substitute (.single x e)) = some y ↔ name? t = some y := by
  cases t with
  | «variable» v =>
    by_cases same : v.name = x
    · rw [Term.substitute_own same]
      refine iff_of_false (fun named => ?_) fun named => ?_
      · obtain ⟨w, rfl, equal, -⟩ := name?_eq named
        exact apart w rfl equal
      · obtain ⟨_, ⟨⟩, equal, -⟩ := name?_eq named
        exact other (equal.symm.trans same)
    · rw [Term.substitute_other same]
  | constant own value => rfl
  | skolem function args =>
    rw [Term.substitute_skolem]
    rfl

theorem first?_other (other : y ≠ x) (apart : ∀ w, e = .variable w → w.name ≠ y) :
    first? y (ps.map (replace x e)) = first? y ps := by
  have named : (fun p : Meaning × Term => decide (name? (replace x e p).2 = some y)) =
      fun p => decide (name? p.2 = some y) := funext fun p => by
    rw [Bool.eq_iff_iff, decide_eq_true_eq, decide_eq_true_eq]
    exact name?_other other apart p.2
  rw [first?, first?, List.find?_map, Option.map_map]
  exact congrArg (fun f => (ps.find? f).map Prod.fst) named

theorem mem_of_first? (first : first? y ps = some m) :
    ∃ p ∈ ps, p.1 = m ∧ ∃ v, p.2 = .variable v ∧ v.name = y := by
  obtain ⟨p, found, same⟩ := Option.map_eq_some_iff.mp first
  have named := List.find?_some found
  rw [decide_eq_true_eq] at named
  obtain ⟨v, shape, equal, -⟩ := name?_eq named
  exact ⟨p, List.mem_of_find?_eq_some found, same, v, shape, equal⟩

theorem names_image {w : Variable} (t : Term) :
    (t.substitute (.single x (.variable w))).Names w.name ↔ Stands x (.variable w) t := by
  cases t with
  | «variable» v =>
    by_cases own : v.name = x
    · rw [Term.substitute_own own]
      exact iff_of_true ⟨w, rfl, rfl⟩ (.inl ⟨v, rfl, own⟩)
    · rw [Term.substitute_other own]
      refine ⟨fun names => .inr ⟨w, rfl, names⟩, ?_⟩
      rintro (⟨_, ⟨⟩, same⟩ | ⟨_, ⟨⟩, names⟩)
      · exact absurd same own
      · exact names
  | constant own value =>
    refine iff_of_false ?_ ?_
    · rintro ⟨_, shape, -⟩
      cases shape
    · rintro (⟨_, ⟨⟩, -⟩ | ⟨_, -, _, ⟨⟩, -⟩)
  | skolem function args =>
    rw [Term.substitute_skolem]
    refine iff_of_false ?_ ?_
    · rintro ⟨_, shape, -⟩
      cases shape
    · rintro (⟨_, ⟨⟩, -⟩ | ⟨_, -, _, ⟨⟩, -⟩)

theorem named_image {w : Variable} (image : w.name ∈ ps.filterMap fun p => name? p.2)
    (different : w.name ≠ x) :
    w.name ∈ (ps.map (replace x (.variable w))).filterMap fun p => name? p.2 := by
  obtain ⟨q, inside, named⟩ := List.mem_filterMap.mp image
  refine List.mem_filterMap.mpr ⟨_, List.mem_map_of_mem inside, ?_⟩
  obtain ⟨v, shape, same, -⟩ := name?_eq named
  rw [replace, shape, Term.substitute_other (same ▸ different), ← shape]
  exact named

theorem first?_image {w : Variable} (image : w.name ∈ ps.filterMap fun p => name? p.2)
    (different : w.name ≠ x) : ∃ p ∈ ps, Stands x (.variable w) p.2 ∧
      first? w.name (ps.map (replace x (.variable w))) = some p.1 := by
  obtain ⟨m, first⟩ := Option.isSome_iff_exists.mp (first?_isSome.mpr (named_image image different))
  obtain ⟨p', listed, rfl, names⟩ := mem_of_first? first
  obtain ⟨p, member, rfl⟩ := List.mem_map.mp listed
  exact ⟨p, member, (names_image p.2).mp names, first⟩

section Uniformity

theorem get?_start : (bound .empty ps).get? y = first? y ps := by simp [get?_bound]

theorem standing (uniform : Uniform type x e ps c) (named : y ∈ ps.filterMap fun p => name? p.2)
    (stands : ∀ v : Variable, v.name = y → Stands x e (.variable v)) :
    ∃ m, (bound .empty ps).get? y = some m ∧ Resembles none c m := by
  obtain ⟨m, first⟩ := Option.isSome_iff_exists.mp (first?_isSome.mpr named)
  obtain ⟨p, inside, rfl, v, shape, same⟩ := mem_of_first? first
  exact ⟨p.1, get?_start.trans first, uniform.each p inside (shape.symm ▸ stands v same)⟩

variable (comparable : Comparable type x e)
  (image : ∀ w, e = .variable w → w.name ∈ ps.filterMap fun p => name? p.2)
include comparable image

theorem settled_image (uniform : Uniform type x e ps c) :
    ∃ m, settled? (bound .empty (ps.map (replace x e))) e = some m ∧ Resembles (slack type e) c m := by
  cases e with
  | «variable» w =>
    obtain ⟨q, member, stands, found⟩ := first?_image (image w rfl) comparable.1
    exact ⟨q.1, get?_start.trans found, uniform.each q member stands⟩
  | constant own value => exact ⟨_, rfl, uniform.image own value rfl⟩
  | skolem function args => exact comparable.elim

variable (fitted : ∀ p ∈ ps, Fitted type x e p) (own : x ∈ ps.filterMap fun p => name? p.2)
include fitted own

theorem replaced_of_uniform (uniform : Uniform type x e ps c) :
    Replaced type x e (bound .empty ps) (bound .empty (ps.map (replace x e))) := by
  obtain ⟨m, found, like⟩ := standing uniform own fun v same => .inl ⟨v, rfl, same⟩
  obtain ⟨m', meant, alike⟩ := settled_image comparable image uniform
  refine ⟨fun y other => ?_, m, m', found, meant, like.symm.trans alike⟩
  by_cases apart : ∀ w, e = .variable w → w.name ≠ y
  · rw [get?_start, get?_start, first?_other other apart]
    cases found : first? y ps with
    | none => exact .none
    | some m =>
      obtain ⟨q, member, rfl, -⟩ := mem_of_first? found
      exact .some (.self (fitted q member).counts)
  · push Not at apart
    obtain ⟨w, rfl, rfl⟩ := apart
    obtain ⟨n, found, onImage⟩ := standing uniform (image w rfl) fun v same => .inr ⟨w, rfl, v, rfl, same⟩
    have settled : (bound .empty (ps.map (replace x (.variable w)))).get? w.name = some m' := meant
    rw [found, settled]
    exact .some (onImage.symm.trans alike)

omit comparable image fitted own in
theorem binder?_apart {before : List (Meaning × Term)} {t : Term} (apart : ¬ Stands x e t) :
    binder? (bound .empty (before.map (replace x e))) (t.substitute (.single x e)) =
      binder? (bound .empty before) t := by
  cases t with
  | «variable» v =>
    have other : v.name ≠ x := fun same => apart (.inl ⟨v, rfl, same⟩)
    have differs (w : Variable) (shape : e = .variable w) : w.name ≠ v.name :=
      fun same => apart (.inr ⟨w, shape, v, rfl, same.symm⟩)
    have known : (bound .empty (before.map (replace x e))).contains v.name =
        (bound .empty before).contains v.name := by
      rw [NameMap.contains, NameMap.contains, get?_start, get?_start, first?_other other differs]
    rw [Term.substitute_other other, binder?, binder?, known]
  | constant own value => rfl
  | skolem function args =>
    rw [Term.substitute_skolem]
    rfl

theorem agree_uniform (nonnull : e.isNull = false) (uniform : Uniform type x e ps c)
    (keeps : ∀ y m, (bound .empty ps).get? y = some m → final.get? y = some m)
    (keeps' : ∀ y m, (bound .empty (ps.map (replace x e))).get? y = some m → final'.get? y = some m)
    (finals : Replaced type x e final final') : Agree ctx final .eq .empty ps ↔
      Agree (ctx.joining body x e) final' .eq .empty (ps.map (replace x e)) := by
  have mark {p : Meaning × Term} (inside : p ∈ ps) (stands : Stands x e p.2) :
      p.1.mark.value ≠ .null := by
    obtain ⟨n, shown⟩ := ((fitted p inside).sound stands).shown
    rw [shown]
    nofun
  have holds {ctx : Lowering.Context} {env : Env} {p : Meaning × Term} {t : Term} {m : Meaning}
      {within : Option ColumnType} (inside : p ∈ ps) (stands : Stands x e p.2)
      (nonnull : t.isNull = false) (meant : denote ctx env t = some m) (like : Resembles within c m) :
      Agrees ctx env .eq p.1 t := by
    have near := uniform.each p inside stands
    have known : p.1.value.value ≠ .null := near.value ▸ uniform.known
    exact (agrees_marked (.inl rfl) nonnull).mpr
      ⟨m, meant, holds_of_fits near.counts' like.counts' (like.mark.trans near.mark.symm) (mark inside stands),
        (near.symm.trans like).holds known⟩
  have original {p : Meaning × Term} (inside : p ∈ ps) (stands : Stands x e p.2) :
      Agrees ctx final .eq p.1 p.2 := by
    rcases stands with ⟨v, shape, same⟩ | ⟨w, rfl, v, shape, same⟩
    · obtain ⟨m, found, like⟩ := standing uniform own fun v same => .inl ⟨v, rfl, same⟩
      rw [shape]
      refine holds inside (.inl ⟨v, shape, same⟩) rfl (denote_variable (keeps _ _ ?_)) like
      rw [same, found]
    · obtain ⟨m, found, like⟩ :=
        standing uniform (image w rfl) fun v same => .inr ⟨w, rfl, v, rfl, same⟩
      rw [shape]
      refine holds inside (.inr ⟨w, rfl, v, shape, same⟩) rfl (denote_variable (keeps _ _ ?_)) like
      rw [same, found]
  have replaced {p : Meaning × Term} (inside : p ∈ ps) (stands : Stands x e p.2) :
      Agrees (ctx.joining body x e) final' .eq p.1 (p.2.substitute (.single x e)) := by
    obtain ⟨m, settled, like⟩ := settled_image comparable image uniform
    have kept : settled? final' e = some m := by
      cases e with
      | «variable» w => exact keeps' w.name m settled
      | constant own value => exact settled
      | skolem function args => exact settled
    have meant : denote (ctx.joining body x e) final' e = some m := denoteWith_settled kept
    rcases stands with ⟨v, shape, same⟩ | ⟨w, rfl, v, shape, same⟩
    · rw [shape, Term.substitute_own same]
      exact holds inside (.inl ⟨v, shape, same⟩) nonnull meant like
    · rw [shape, Term.substitute_other (same ▸ comparable.1)]
      refine holds inside (.inr ⟨w, rfl, v, shape, same⟩) rfl (denote_variable ?_) like
      rw [same]
      exact kept
  have elsewhere {p : Meaning × Term} (inside : p ∈ ps) (apart : ¬ Stands x e p.2) :
      Agrees ctx final .eq p.1 p.2 ↔
        Agrees (ctx.joining body x e) final' .eq p.1 (p.2.substitute (.single x e)) :=
    agrees_replaced finals (.inl rfl) nonnull (fitted p inside).counts
      fun names => absurd (.inl names) apart
  rw [agree_iff, agree_iff]
  constructor
  · intro agree before' p' after' split unbound
    obtain ⟨before, rest, rfl, rfl, tail⟩ := List.map_eq_append_iff.mp split
    obtain ⟨p, after, rfl, rfl, rfl⟩ := List.map_eq_cons_iff.mp tail
    have inside : p ∈ before ++ p :: after := List.mem_append_right _ List.mem_cons_self
    by_cases stands : Stands x e p.2
    · exact replaced inside stands
    · refine (elsewhere inside stands).mp (agree before p after rfl ?_)
      rw [← binder?_apart stands]
      exact unbound
  · intro agree before p after split unbound
    have inside : p ∈ ps := split ▸ List.mem_append_right _ List.mem_cons_self
    by_cases stands : Stands x e p.2
    · exact original inside stands
    · refine (elsewhere inside stands).mpr (agree (before.map (replace x e)) (replace x e p)
        (after.map (replace x e)) ?_ ?_)
      · rw [split, List.map_append, List.map_cons]
      · rw [replace, binder?_apart stands]
        exact unbound

end Uniformity

section Agreement

variable (keeps : ∀ y m, (bound .empty ps).get? y = some m → final.get? y = some m)
include keeps

theorem found_at (named : y ∈ ps.filterMap fun p => name? p.2) :
    ∃ q ∈ ps, q.2.Names y ∧ final.get? y = some q.1 := by
  obtain ⟨m, first⟩ := Option.isSome_iff_exists.mp (first?_isSome.mpr named)
  obtain ⟨q, inside, rfl, names⟩ := mem_of_first? first
  exact ⟨q, inside, names, keeps y q.1 (get?_start.trans first)⟩

theorem place_agrees {op : BinaryOp} (agree : Agree ctx final op .empty ps) {p : Meaning × Term}
    (inside : p ∈ ps) :
    (∃ v, p.2 = .variable v ∧ final.get? v.name = some p.1) ∨ Agrees ctx final op p.1 p.2 := by
  obtain ⟨before, after, split⟩ := List.append_of_mem inside
  cases binds : binder? (bound .empty before) p.2 with
  | none => exact .inr (agree_iff.mp agree before p after split binds)
  | some y =>
    obtain ⟨named, fresh⟩ := binder?_eq_some.mp binds
    obtain ⟨v, shape, rfl, -⟩ := name?_eq named
    refine .inl ⟨v, shape, keeps v.name p.1 ?_⟩
    have unbound : first? v.name before = none := by
      rw [NameMap.contains, get?_start] at fresh
      exact Option.not_isSome_iff_eq_none.mp (Bool.not_eq_true _ ▸ fresh)
    rw [get?_start, split, first?_append, unbound, Option.none_or, first?,
      List.find?_cons_of_pos (by rw [decide_eq_true_eq]; exact named)]
    rfl

theorem resembles_at (agree : Agree ctx final .eq .empty ps)
    (sound : ∀ p ∈ ps, p.2.Names y → Sound type p.1 ∧ p.1.value.type = some type)
    (named : y ∈ ps.filterMap fun p => name? p.2) (found : final.get? y = some m) :
    ∀ p ∈ ps, p.2.Names y → Resembles none m p.1 := by
  obtain ⟨q, member, names, known⟩ := found_at keeps named
  cases found.symm.trans known
  obtain ⟨here, typed⟩ := sound q member names
  intro p inside named
  obtain ⟨v, shape, rfl⟩ := named
  obtain ⟨there, typed'⟩ := sound p inside ⟨v, shape, rfl⟩
  rcases place_agrees keeps agree inside with ⟨u, same, own⟩ | agrees
  · cases shape.symm.trans same
    rw [← Option.some.inj (found.symm.trans own)]
    exact .self here.counts
  · obtain ⟨m, meant, marks, values⟩ := (agrees_marked (.inl rfl) (by rw [shape]; rfl)).mp agrees
    rw [shape, denote_variable found] at meant
    cases meant
    have value := eq_of_holds there.kept here.kept there.exact here.exact values
    have mark := eq_of_holds there.counts here.counts there.exact_mark here.exact_mark marks
    exact (here.resembles there value mark).narrow (typed'.trans typed.symm)

end Agreement

theorem sound_constant {own : Option ColumnType} {value : Literal}
    (comparable : Comparable type x (.constant own value)) : Sound type (.ofLiteral own value) := by
  obtain ⟨typed, small⟩ := comparable
  have counts : Fits .integer (Meaning.ofLiteral own value).mark := ⟨.inr rfl, rfl⟩
  have shown : ∃ n, (Meaning.ofLiteral own value).mark.value = .integer n := ⟨_, rfl⟩
  cases value with
  | string s =>
    cases typed
    exact ⟨counts, shown, ⟨.inr rfl, rfl⟩, fun r same => by cases same⟩
  | integer n =>
    cases typed
    have fits : fitsWord n = true := by
      rw [Literal.tooLarge?] at small
      split at small
      · assumption
      · cases small
    have value : (Meaning.ofLiteral own (.integer n)).value = ⟨.integer n, none⟩ := by
      simp [Meaning.ofLiteral, Value.ofInteger, fits]
    refine ⟨counts, shown, ?_, ?_⟩
    · rw [value]
      exact ⟨.inr rfl, rfl⟩
    · rw [value]
      intro r same
      cases same
  | null => cases typed
  | labeledNull label => cases typed

section Centre

variable (comparable : Comparable type x e) (fitted : ∀ p ∈ ps, Fitted type x e p)
  (own : x ∈ ps.filterMap fun p => name? p.2)
  (image : ∀ w, e = .variable w → w.name ∈ ps.filterMap fun p => name? p.2)
include comparable fitted own image

-- The equated stand for one value with one mark where the equality holds and the marks are the same.
theorem uniform_of_equation
    (keeps : ∀ y m, (bound .empty ps).get? y = some m → final.get? y = some m)
    (agree : Agree ctx final .eq .empty ps) (found : final.get? x = some m)
    (settled : settled? final e = some m') (values : Holds .eq m.value m'.value)
    (marks : m'.mark.value = m.mark.value) : Uniform type x e ps m := by
  have sound (p : Meaning × Term) (inside : p ∈ ps) (stands : Stands x e p.2) :
      Sound type p.1 ∧ p.1.value.type = some type :=
    ⟨(fitted p inside).sound stands, (fitted p inside).typed stands⟩
  have onOwn := resembles_at keeps agree
    (fun p inside names => sound p inside (.inl names)) own found
  obtain ⟨q, member, names, known⟩ := found_at keeps own
  cases found.symm.trans known
  obtain ⟨here, typed⟩ := sound q member (.inl names)
  have like (there : Sound type m') : Resembles (some type) q.1 m' :=
    here.resembles there (eq_of_holds here.kept there.kept here.exact there.exact values).symm marks
  refine ⟨(holds_eq_iff.mp values).1, fun p inside stands => ?_, ?_⟩
  · rcases stands with names | ⟨w, rfl, names⟩
    · exact onOwn p inside names
    · have onImage := resembles_at keeps agree
        (fun p inside names => sound p inside (.inr ⟨w, rfl, names⟩)) (image w rfl) settled
      obtain ⟨q', member', names', known'⟩ := found_at keeps (image w rfl)
      cases settled.symm.trans known'
      obtain ⟨there, typed'⟩ := sound q' member' (.inr ⟨w, rfl, names'⟩)
      exact ((like there).narrow (typed'.trans typed.symm)).trans (onImage p inside names)
  · rintro own value rfl
    cases settled
    exact like (sound_constant comparable)

theorem uniform_of_agree (nonnull : e.isNull = false)
    (keeps : ∀ y m, (bound .empty (ps.map (replace x e))).get? y = some m → final.get? y = some m)
    (agree : Agree ctx final .eq .empty (ps.map (replace x e))) : ∃ c, Uniform type x e ps c := by
  have sound (p : Meaning × Term) (inside : p ∈ ps) (stands : Stands x e p.2) :
      Sound type p.1 ∧ p.1.value.type = some type :=
    ⟨(fitted p inside).sound stands, (fitted p inside).typed stands⟩
  cases e with
  | «variable» w =>
    have image := image w rfl
    obtain ⟨different, plain⟩ := comparable
    have named := named_image image different
    obtain ⟨q, -, -, found⟩ := found_at keeps named
    have like := resembles_at keeps agree (fun p' inside names => by
      obtain ⟨p, member, rfl⟩ := List.mem_map.mp inside
      exact sound p member ((names_image p.2).mp names)) named found
    have each (p : Meaning × Term) (inside : p ∈ ps) (stands : Stands x (.variable w) p.2) :
        Resembles none q.1 p.1 :=
      like (replace x (.variable w) p) (List.mem_map_of_mem inside) ((names_image p.2).mpr stands)
    refine ⟨q.1, ?_, each, fun own value same => by cases same⟩
    -- What stands at a place after another one is compared, and so it is not null.
    have compared {before after : List (Meaning × Term)} {p : Meaning × Term}
        (split : ps = before ++ p :: after) (stands : Stands x (.variable w) p.2)
        (earlier : w.name ∈ (before.map (replace x (.variable w))).filterMap fun p => name? p.2) :
        q.1.value.value ≠ .null := by
      obtain ⟨v, shape, same⟩ := (names_image p.2).mpr stands
      have agrees := agree_iff.mp agree (before.map (replace x (.variable w)))
        (replace x (.variable w) p) (after.map (replace x (.variable w)))
        (by rw [split, List.map_append, List.map_cons])
      rw [replace, shape] at agrees
      have bound : (bound .empty (before.map (replace x (.variable w)))).contains v.name = true := by
        rw [same]
        exact contains_bound.mpr (.inr earlier)
      obtain ⟨m, meant, -, values⟩ := (agrees_marked (.inl rfl) rfl).mp (agrees (by simp [binder?, bound]))
      rw [denote_variable (same ▸ found)] at meant
      cases meant
      exact (holds_eq_iff.mp values).2.1
    obtain ⟨p, inside, first⟩ := List.mem_filterMap.mp own
    obtain ⟨before, after, rfl⟩ := List.append_of_mem inside
    obtain ⟨v, shape, same, -⟩ := name?_eq first
    by_cases earlier : w.name ∈ (before.map (replace x (.variable w))).filterMap fun p => name? p.2
    · exact compared rfl (.inl ⟨v, shape, same⟩) earlier
    · obtain ⟨p', inside', second⟩ := List.mem_filterMap.mp image
      obtain ⟨v', shape', same', -⟩ := name?_eq second
      rcases List.mem_append.mp inside' with there | there
      · exact absurd (named_image (List.mem_filterMap.mpr ⟨p', there, second⟩) different) earlier
      · rcases List.mem_cons.mp there with rfl | later
        · rw [first] at second
          exact absurd (Option.some.inj second).symm different
        · obtain ⟨between, rest, rfl⟩ := List.append_of_mem later
          refine @compared (before ++ p :: between) rest p' (by simp) (.inr ⟨w, rfl, v', shape', same'⟩) ?_
          refine List.mem_filterMap.mpr ⟨replace x (.variable w) p, List.mem_map_of_mem (by simp), ?_⟩
          rw [replace, shape, Term.substitute_own same]
          simp [name?, plain]
  | constant own' value =>
    have constant := sound_constant comparable
    have each (p : Meaning × Term) (inside : p ∈ ps) (names : p.2.Names x) :
        Resembles (some type) (.ofLiteral own' value) p.1 ∧ p.1.value.value ≠ .null := by
      obtain ⟨there, typed⟩ := sound p inside (.inl names)
      obtain ⟨v, shape, same⟩ := names
      have image : (replace x (.constant own' value) p).2 = .constant own' value := by
        rw [replace, shape, Term.substitute_own same]
      rcases place_agrees keeps agree (List.mem_map_of_mem inside) with ⟨u, other, -⟩ | agrees
      · cases image.symm.trans other
      · rw [image] at agrees
        obtain ⟨m, meant, marks, values⟩ := (agrees_marked (.inl rfl) nonnull).mp agrees
        cases meant
        exact ⟨constant.resembles there
          (eq_of_holds there.kept constant.kept there.exact constant.exact values)
          (eq_of_holds there.counts constant.counts there.exact_mark constant.exact_mark marks),
          (holds_eq_iff.mp values).1⟩
    obtain ⟨q, member, v, shape, same⟩ : ∃ q ∈ ps, ∃ v, q.2 = .variable v ∧ v.name = x := by
      obtain ⟨q, member, named⟩ := List.mem_filterMap.mp own
      obtain ⟨v, shape, same, -⟩ := name?_eq named
      exact ⟨q, member, v, shape, same⟩
    obtain ⟨like, known⟩ := each q member ⟨v, shape, same⟩
    refine ⟨q.1, known, fun p inside stands => ?_, ?_⟩
    · rcases stands with names | ⟨_, ⟨⟩, -⟩
      have typed := (sound p inside (.inl names)).2.trans (sound q member (.inl ⟨v, shape, same⟩)).2.symm
      obtain ⟨alike, -⟩ := each p inside names
      exact ⟨alike.value.trans like.value.symm, .inl typed, alike.mark.trans like.mark.symm, like.counts',
        alike.counts'⟩
    · rintro _ _ ⟨⟩
      exact like.symm
  | skolem function args => exact comparable.elim

end Centre

end Joining

end RowSemantics

end PeerExchange
