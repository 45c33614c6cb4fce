import PeerExchange.Proofs.EquatedJoins

namespace PeerExchange

open Sql (Database Row Value)

namespace Sql

theorem foldl_mem {α : Type} {f : α → α → α} (picks : ∀ a b, f a b = a ∨ f a b = b) (first : α)
    (rest : List α) : rest.foldl f first ∈ first :: rest := by
  induction rest generalizing first with
  | nil => exact List.mem_singleton_self _
  | cons second rest ih =>
    rw [List.foldl_cons]
    rcases List.mem_cons.mp (ih (f first second)) with same | later
    · rw [same]
      rcases picks first second with left | right
      · exact left.symm ▸ List.mem_cons_self
      · exact right.symm ▸ List.mem_cons_of_mem _ List.mem_cons_self
    · exact List.mem_cons_of_mem _ (List.mem_cons_of_mem _ later)

theorem picked_eq_null_iff {f : Value → Value → Value} (picks : ∀ a b, f a b = a ∨ f a b = b)
    (first : Value) (rest : List Value) :
    (if (first :: rest).contains .null then .null else rest.foldl f first) = .null ↔
      Value.null ∈ first :: rest := by
  split
  · rename_i null
    exact iff_of_true rfl (List.contains_iff_mem.mp null)
  · rename_i known
    have absent : Value.null ∉ first :: rest := fun inside => known (List.contains_iff_mem.mpr inside)
    exact iff_of_false (fun same => absent (same ▸ foldl_mem picks first rest)) absent

theorem mem_intersperse {α : Type} {separator a : α} {items : List α}
    (inside : a ∈ items.intersperse separator) : a = separator ∨ a ∈ items := by
  induction items with
  | nil => cases inside
  | cons first rest ih =>
    cases rest with
    | nil => exact .inr inside
    | cons second rest =>
      rw [List.intersperse_cons_cons] at inside
      rcases List.mem_cons.mp inside with rfl | inside
      · exact .inr List.mem_cons_self
      · rcases List.mem_cons.mp inside with rfl | inside
        · exact .inl rfl
        · exact (ih inside).imp_right (List.mem_cons_of_mem _)

theorem concatenate_ne_null {vs : List Value} (known : ∀ v ∈ vs, v ≠ .null) :
    concatenate vs ≠ .null := by
  have texts : ∃ texts, vs.mapM Value.toText? = some texts := by
    induction vs with
    | nil => exact ⟨[], rfl⟩
    | cons v rest ih =>
      obtain ⟨here, known⟩ := List.forall_mem_cons.mp known
      obtain ⟨texts, later⟩ := ih known
      cases v with
      | null => exact absurd rfl here
      | integer n => exact ⟨_, by rw [List.mapM_cons, later]; rfl⟩
      | real x => exact ⟨_, by rw [List.mapM_cons, later]; rfl⟩
      | text s => exact ⟨_, by rw [List.mapM_cons, later]; rfl⟩
  obtain ⟨texts, found⟩ := texts
  rw [concatenate, found]
  exact nofun

end Sql

theorem Term.any_asVariable? {t : Term} {x : String} :
    t.asVariable?.any (·.name = x) = true ↔ ∃ v, t = .variable v ∧ v.name = x := by
  cases t <;> simp [Term.asVariable?]

namespace RowSemantics

variable {ctx : Lowering.Context} {env final : Env} {a : Atom} {op : Builtin} {t : Term} {x name : String}
  {inputs : List Term} {s : Step} {steps : List Step} {names : List String} {m : Meaning}

theorem function_eq_null_iff {vs : List Value} (function : op.isFunction = true) (some : vs ≠ []) :
    (Lowering.functionOf op).apply vs = .null ↔ Value.null ∈ vs := by
  obtain ⟨first, rest, rfl⟩ := List.exists_cons_of_ne_nil some
  cases op with
  | least => exact Sql.picked_eq_null_iff (fun a b => by split <;> simp) first rest
  | greatest => exact Sql.picked_eq_null_iff (fun a b => by split <;> simp) first rest
  | eq | ne | lt | le | gt | ge => cases function

theorem inventedText_ne_null {width : Nat} {function : String} {values : List Value} :
    inventedText width function values ≠ .null := by
  refine Sql.concatenate_ne_null fun v inside => ?_
  have part (v : Value) : inventedPart width v ≠ .null := by
    rw [inventedPart]
    generalize Sql.Function.substr.apply _ = cut
    cases cut <;> rintro ⟨⟩
  rw [List.mem_append, List.mem_append, List.mem_singleton, List.mem_singleton] at inside
  rcases inside with (rfl | within) | rfl
  · rintro ⟨⟩
  · rcases Sql.mem_intersperse within with rfl | given
    · rintro ⟨⟩
    · obtain ⟨u, -, rfl⟩ := List.mem_map.mp given
      exact part u
  · rintro ⟨⟩

theorem inventedMeaning_ne_null {depth : Nat} {v : Variable}
    (invented : inventedMeaning ctx env depth v = some m) : m.value.value ≠ .null := by
  cases depth with
  | zero => cases invented
  | succ depth =>
    rw [inventedMeaning] at invented
    obtain ⟨term, found, invented⟩ := Option.bind_eq_some_iff.mp invented
    obtain ⟨k, -, found⟩ := Option.bind_eq_some_iff.mp found
    obtain ⟨i, -, rfl⟩ := Option.map_eq_some_iff.mp found
    rw [Invention.term, denoteWith] at invented
    obtain ⟨values, -, rfl⟩ := Option.map_eq_some_iff.mp invented
    exact inventedText_ne_null

theorem denote_unmarked (unmarked : t.IsUnmarked) : denote ctx env t = settled? env t := by
  cases t with
  | «variable» v =>
    rw [denote, denoteWith, settled?]
    cases env.get? v.name with
    | some m => rfl
    | none =>
      dsimp only
      rw [inventedMeaning, unmarked.2]
      rfl
  | constant type value => rfl
  | skolem function args => exact unmarked.elim

theorem denotes_iff {ms : List Meaning} : inputs.mapM (denote ctx env) = some ms ↔
    List.Forall₂ (fun t m => denote ctx env t = some m) inputs ms := by
  induction inputs generalizing ms with
  | nil =>
    rw [List.mapM_nil, List.forall₂_nil_left_iff]
    exact ⟨fun same => (Option.some.inj same).symm, fun same => same ▸ rfl⟩
  | cons t rest ih =>
    rw [List.mapM_cons, List.forall₂_cons_left_iff]
    constructor
    · intro all
      obtain ⟨m, here, all⟩ := Option.bind_eq_some_iff.mp all
      obtain ⟨others, later, all⟩ := Option.bind_eq_some_iff.mp all
      cases all
      exact ⟨m, others, here, ih.mp later, rfl⟩
    · rintro ⟨m, others, here, later, rfl⟩
      rw [here, ih.mpr later]
      rfl

section Kept

variable (keeps : ∀ y m, env.get? y = some m → final.get? y = some m)
include keeps

theorem denote_kept (unmarked : t.IsUnmarked) (meant : denote ctx env t = some m) :
    denote ctx final t = some m := by
  rw [denote_unmarked unmarked] at meant ⊢
  exact settled_kept keeps meant

theorem functionMeaning_kept (unmarked : ∀ t ∈ inputs, t.IsUnmarked)
    (meant : functionMeaning ctx env op inputs = some m) :
    functionMeaning ctx final op inputs = some m := by
  obtain ⟨ms, all, rfl⟩ := Option.map_eq_some_iff.mp meant
  obtain ⟨length, each⟩ := List.forall₂_iff_zip.mp (denotes_iff.mp all)
  have kept : List.Forall₂ (fun t m => denote ctx final t = some m) inputs ms :=
    List.forall₂_iff_zip.mpr ⟨length, fun inside =>
      denote_kept keeps (unmarked _ (List.of_mem_zip inside).1) (each inside)⟩
  rw [functionMeaning, denotes_iff.mpr kept]
  rfl

end Kept

theorem functionMeaning_null_iff (function : op.isFunction = true) (nonempty : inputs ≠ [])
    (meant : functionMeaning ctx env op inputs = some m) : m.value.value = .null ↔
      ∃ t ∈ inputs, ∃ m', denote ctx env t = some m' ∧ m'.value.value = .null := by
  obtain ⟨ms, all, rfl⟩ := Option.map_eq_some_iff.mp meant
  have each := denotes_iff.mp all
  have values : ms.map (·.value.value) ≠ [] := by
    rw [ne_eq, List.map_eq_nil_iff, ← List.length_eq_zero_iff, ← each.length_eq]
    exact fun none => nonempty (List.length_eq_zero_iff.mp none)
  refine (function_eq_null_iff function values).trans ⟨fun inside => ?_, fun ⟨t, arg, m', found, null⟩ => ?_⟩
  · obtain ⟨m', listed, null⟩ := List.mem_map.mp inside
    obtain ⟨t, arg, found⟩ := Compiled.forall₂_source each listed
    exact ⟨t, arg, m', found, null⟩
  · obtain ⟨other, listed, same⟩ := Compiled.forall₂_result each arg
    cases found.symm.trans same
    exact List.mem_map.mpr ⟨m', listed, null⟩

-- A step of settling built-ins, seen from the end: what it read has stayed, and so has what it bound.
inductive Step.SettledIn (ctx : Lowering.Context) (final : Env) : Step → Prop
  | bound {env : Env} {names : List String} {a : Atom} {op : Builtin} {x : String} {m : Meaning}
    (keeps : ∀ y m, env.get? y = some m → final.get? y = some m) (builtin : a.builtin? = some op)
    (binds : a.binding? names = some x) (given : computed ctx env ⟨a, op, some x⟩ x = some m)
    (found : final.get? x = some m) : Step.SettledIn ctx final ⟨a, op, some x⟩
  | tested {env : Env} {a : Atom} {op : Builtin}
    (keeps : ∀ y m, env.get? y = some m → final.get? y = some m) (builtin : a.builtin? = some op)
    (tested : Tested ctx env ⟨a, op, none⟩) : Step.SettledIn ctx final ⟨a, op, none⟩

theorem settledIn_of_settle (named : ∀ x, names.contains x = env.contains x)
    (ordered : Ordered names steps) (settle : Settle ctx final env steps) :
    ∀ s ∈ steps, s.SettledIn ctx final := by
  induction ordered generalizing env with
  | nil => exact List.forall_mem_nil _
  | @binds names a op x rest builtin binds later ih =>
    have keeps := settle_keeps named (.binds builtin binds later) settle
    obtain ⟨m, given, settle⟩ := settle
    have kept := settle_keeps (named_insert named) later settle x m (by
      rw [NameMap.get?_insert, if_pos rfl])
    exact List.forall_mem_cons.mpr ⟨.bound keeps builtin binds given kept, ih (named_insert named) settle⟩
  | tests builtin ready later ih =>
    have keeps := settle_keeps named (.tests builtin ready later) settle
    exact List.forall_mem_cons.mpr ⟨.tested keeps builtin settle.1, ih named settle.2⟩

section Settled

variable (settled : s.SettledIn ctx final) (unmarked : ∀ t ∈ s.atom.args, t.IsUnmarked)
include settled unmarked

-- An equation has null on both sides or on neither: it is tested, or one side gets the other's value.
theorem equation_null_iff {left right : Term} {more : List Term} (equation : s.atom.builtin? = some .eq)
    (args : s.atom.args = left :: right :: more) : ∃ l r, denote ctx final left = some l ∧
      denote ctx final right = some r ∧ (l.value.value = .null ↔ r.value.value = .null) := by
  rw [args] at unmarked
  obtain ⟨plainLeft, unmarked⟩ := List.forall_mem_cons.mp unmarked
  obtain ⟨plainRight, -⟩ := List.forall_mem_cons.mp unmarked
  cases settled with
  | bound keeps builtin binds given found =>
    dsimp only at args equation
    cases equation.symm.trans builtin
    simp only [computed, Builtin.isFunction, args, Bool.false_eq_true, if_false] at given
    obtain ⟨-, inputs, determines, -⟩ := Atom.determines_of_binding binds
    cases determines with
    | output called function shape =>
      cases equation.symm.trans called
      cases function
    | left called shape =>
      rw [args] at shape
      cases shape
      rw [if_pos (by simp [Term.asVariable?])] at given
      exact ⟨_, _, denote_variable found, denote_kept keeps plainRight given, Iff.rfl⟩
    | @right v _ _ called shape =>
      rw [args] at shape
      cases shape
      split at given
      · rename_i same
        obtain ⟨u, rfl, named⟩ := Term.any_asVariable?.mp same
        exact ⟨_, _, denote_variable (named ▸ found), denote_variable found, Iff.rfl⟩
      · exact ⟨_, _, denote_kept keeps plainLeft given, denote_variable found, Iff.rfl⟩
  | tested keeps builtin tested =>
    dsimp only at args equation
    cases equation.symm.trans builtin
    obtain ⟨l, r, both, holds⟩ := tested
    simp only [sides, args, Builtin.isFunction] at both
    obtain ⟨l', onLeft, both⟩ := Option.bind_eq_some_iff.mp both
    obtain ⟨r', onRight, both⟩ := Option.bind_eq_some_iff.mp both
    cases both
    obtain ⟨here, there, -⟩ := holds_eq_iff.mp holds
    exact ⟨l, r, denote_kept keeps plainLeft onLeft, denote_kept keeps plainRight onRight,
      iff_of_false here there⟩

-- The output of a function is null exactly when an input is: it is tested, or it gets the result.
theorem output_null_iff {v : Variable} (called : s.atom.builtin? = some op)
    (function : op.isFunction = true) (args : s.atom.args = .variable v :: inputs)
    (nonempty : inputs ≠ []) : ∃ m, final.get? v.name = some m ∧ (m.value.value = .null ↔
      ∃ t ∈ inputs, ∃ m', denote ctx final t = some m' ∧ m'.value.value = .null) := by
  rw [args] at unmarked
  obtain ⟨plain, unmarked⟩ := List.forall_mem_cons.mp unmarked
  cases settled with
  | bound keeps builtin binds given found =>
    dsimp only at args called
    cases called.symm.trans builtin
    simp only [computed, function, if_true, args, List.tail_cons] at given
    have result := functionMeaning_null_iff function nonempty (functionMeaning_kept keeps unmarked given)
    obtain ⟨-, others, determines, -⟩ := Atom.determines_of_binding binds
    cases determines with
    | output _ _ shape =>
      rw [args] at shape
      cases shape
      exact ⟨_, found, result⟩
    | left equation =>
      cases called.symm.trans equation
      cases function
    | right equation =>
      cases called.symm.trans equation
      cases function
  | tested keeps builtin tested =>
    dsimp only at args called
    cases called.symm.trans builtin
    obtain ⟨l, r, both, holds⟩ := tested
    simp only [sides, args, function, if_true] at both
    obtain ⟨l', output, both⟩ := Option.bind_eq_some_iff.mp both
    obtain ⟨r', result, both⟩ := Option.bind_eq_some_iff.mp both
    cases both
    have compares : Lowering.comparisonOf op = .eq := by cases op <;> first | rfl | cases function
    rw [compares] at holds
    obtain ⟨here, there, -⟩ := holds_eq_iff.mp holds
    have output := denote_kept keeps plain output
    rw [denote_unmarked plain] at output
    have result := functionMeaning_null_iff function nonempty (functionMeaning_kept keeps unmarked result)
    exact ⟨l, output, iff_of_false here (result.not.mp there)⟩

theorem determined_null_iff (arity : ∀ op, s.atom.builtin? = some op → s.atom.args.length = op.arity)
    (determines : s.atom.Determines inputs name) : ∃ m, final.get? name = some m ∧
      (m.value.value = .null ↔
        ∃ t ∈ inputs, ∃ m', denote ctx final t = some m' ∧ m'.value.value = .null) := by
  have single {u : Term} {l r : Meaning} (same : l.value.value = .null ↔ r.value.value = .null)
      (meant : denote ctx final u = some r) : l.value.value = .null ↔
        ∃ t ∈ [u], ∃ m', denote ctx final t = some m' ∧ m'.value.value = .null := by
    simp [same, meant]
  have known {v : Variable} {m : Meaning} (arg : .variable v ∈ s.atom.args)
      (meant : denote ctx final (.variable v) = some m) : final.get? v.name = some m := by
    rwa [denote_unmarked (unmarked _ arg)] at meant
  cases determines with
  | output called function args =>
    refine output_null_iff settled unmarked called function args ?_
    have length := arity _ called
    rw [args, Builtin.arity, if_pos function] at length
    exact List.ne_nil_of_length_eq_add_one (Nat.succ.inj length)
  | left equation args =>
    obtain ⟨l, r, onLeft, onRight, same⟩ := equation_null_iff settled unmarked equation args
    exact ⟨l, known (by simp [args]) onLeft, single same onRight⟩
  | right equation args =>
    obtain ⟨l, r, onLeft, onRight, same⟩ := equation_null_iff settled unmarked equation args
    exact ⟨r, known (by simp [args]) onRight, single same.symm onLeft⟩

end Settled

theorem bound_before (settle : Settle ctx final env steps) (found : final.get? x = some m) :
    env.get? x = some m ∨ ∃ s ∈ steps, s.binds = some x := by
  induction steps generalizing env with
  | nil =>
    cases settle
    exact .inl found
  | cons s rest ih =>
    cases binds : s.binds with
    | none =>
      simp only [Settle, binds] at settle
      rcases ih settle.2 with known | ⟨s, later, own⟩
      · exact .inl known
      · exact .inr ⟨s, List.mem_cons_of_mem _ later, own⟩
    | some y =>
      simp only [Settle, binds] at settle
      obtain ⟨given, -, settle⟩ := settle
      rcases ih settle with known | ⟨s, later, own⟩
      · rw [NameMap.get?_insert] at known
        split at known
        · rename_i same
          exact .inr ⟨s, List.mem_cons_self, same ▸ binds⟩
        · exact .inl known
      · exact .inr ⟨s, List.mem_cons_of_mem _ later, own⟩

end RowSemantics

namespace Lowering

open RowSemantics (Match builtins joinedPlaces schedule)

variable {ctx : Context} {db : Database} {guard : Option Guard} {body : List Atom} {sc : Scope}
  {rows : List Row} {env : RowSemantics.Env} {parameter : Int} {a : Atom}

theorem builtinPasses_cover {passes : Nat} {atoms : List Atom} {names : List String}
    {bindings bindings' : Bindings} {conditions conditions' : List Sql.Expr}
    (named : Named names bindings)
    (ran : builtinPasses ctx passes atoms bindings conditions = .ok (bindings', conditions')) :
    ∀ a ∈ atoms, a.builtin?.isSome = true → ∃ s ∈ schedule passes atoms names, s.atom = a := by
  induction passes generalizing atoms names bindings conditions with
  | zero =>
    cases atoms with
    | nil => exact List.forall_mem_nil _
    | cons first rest => cases ran
  | succ passes ih =>
    cases atoms with
    | nil => exact List.forall_mem_nil _
    | cons first rest =>
      unfold builtinPasses at ran
      obtain ⟨⟨left, between, grown⟩, once, ran⟩ := Compiled.bind_ok.mp ran
      obtain ⟨same, named', -⟩ := builtinPass_settles (v := []) named once
      dsimp only at ran
      split at ran
      · cases ran
      · intro a inside called
        have listed := (@RowSemantics.pass_perm names (first :: rest)).symm.subset
          (List.mem_filter.mpr ⟨inside, called⟩)
        unfold schedule
        dsimp only
        rcases List.mem_append.mp listed with here | later
        · obtain ⟨s, settled, rfl⟩ := List.mem_map.mp here
          exact ⟨s, List.mem_append_left _ settled, rfl⟩
        · obtain ⟨s, settled, own⟩ := ih named' ran a (same ▸ later) called
          exact ⟨s, List.mem_append_right _ (same ▸ settled), own⟩

theorem lowerBody_covers (plain : ∀ a ∈ body, a.optional = false)
    (stores : ∀ a ∈ body, a.builtin? = none → StoresAtom ctx.catalog db a)
    (ran : lowerBody ctx guard body = .ok sc)
    (matched : Match ctx db parameter guard body rows env) (inside : a ∈ builtins body) :
    ∃ s ∈ schedule ((builtins body).length + 1) (builtins body)
      (RowSemantics.bound .empty (joinedPlaces ctx db body rows)).keys, s.atom = a := by
  obtain ⟨joined, read, ran⟩ := Compiled.bind_ok.mp ran
  obtain ⟨⟨bindings, conditions⟩, settled, -⟩ := Compiled.bind_ok.mp ran
  obtain ⟨joins, positives, added, joinable⟩ := joinAtoms_joinable plain stores read
  have each := rowsFor_of_chosen positives joinable matched.chosen
  rw [@Joined.bound _ _ _ _ _ _ _ added positives joinable each ⟨db, parameter⟩ [],
    show (environment ⟨db, parameter⟩ (frame db joins rows :: []) joined.bindings).keys =
      joined.bindings.keys from NameMap.keys_map _ _]
  exact builtinPasses_cover (named_keys _) settled a inside
    (Bool.and_eq_true_iff.mp (List.mem_filter.mp inside).2).2

end Lowering

end PeerExchange
