import PeerExchange.Proofs.LoweredBuiltins
import PeerExchange.Proofs.RowBindings

namespace PeerExchange

open Sql (BinaryOp Database Row Typed Value)

def Term.isPlain : Term → Bool
  | .variable v => v.skolem.isNone
  | .constant _ (.string _) | .constant _ (.integer _) => true
  | _ => false

namespace RowSemantics

abbrev Assignment := String → Typed

namespace Assignment

def value (σ : Assignment) : Term → Typed
  | .variable v => σ v.name
  | .constant type literal => (Meaning.ofLiteral type literal).value
  | .skolem _ _ => ⟨.null, none⟩

def applied (σ : Assignment) (op : Builtin) (args : List Term) : Typed :=
  ⟨(Lowering.functionOf op).apply (args.map fun t => (σ.value t).value), none⟩

def computed (σ : Assignment) (s : Step) (x : String) : Typed :=
  if s.op.isFunction then σ.applied s.op s.atom.args.tail
  else
    match s.atom.args with
    | left :: right :: _ => σ.value (if left.asVariable?.any (·.name = x) then right else left)
    | _ => ⟨.null, none⟩

def Tests (σ : Assignment) (s : Step) : Prop :=
  match s.atom.args with
  | [] => False
  | first :: rest =>
    if s.op.isFunction then
      Holds (Lowering.comparisonOf s.op) (σ.value first) (σ.applied s.op rest)
    else ∃ second, rest.head? = some second ∧
      Holds (Lowering.comparisonOf s.op) (σ.value first) (σ.value second)

def Settles (σ : Assignment) (s : Step) : Prop :=
  match s.binds with
  | some x => σ x = σ.computed s x
  | none => σ.Tests s

-- Variables outside the names stand for what the first of their places holds.
def extended (σ : Assignment) (names : List String) (cs : List (Typed × Term)) : Assignment :=
  fun x => if x ∈ names then σ x else (first? x cs).getD ⟨.null, none⟩

end Assignment

section Scheduling

variable {names names' : List String} {steps more : List Step} {atoms : List Atom} {a : Atom}
  {x : String}

-- Each step is ready once the names of the steps before it are bound.
inductive Ordered : List String → List Step → Prop where
  | nil {names : List String} : Ordered names []
  | binds {names : List String} {a : Atom} {op : Builtin} {x : String} {rest : List Step}
    (builtin : a.builtin? = some op) (binds : a.binding? names = some x)
    (later : Ordered (x :: names) rest) : Ordered names (⟨a, op, some x⟩ :: rest)
  | tests {names : List String} {a : Atom} {op : Builtin} {rest : List Step}
    (builtin : a.builtin? = some op)
    (ready : ∀ t ∈ a.args, ∀ v ∈ t.vars, (names.contains v.name || v.skolem.isSome) = true)
    (later : Ordered names rest) : Ordered names (⟨a, op, none⟩ :: rest)

-- The names that are bound after the steps.
def after (names : List String) : List Step → List String
  | [] => names
  | s :: rest => after (s.binds.toList ++ names) rest

theorem Ordered.append (first : Ordered names steps) (second : Ordered (after names steps) more) :
    Ordered names (steps ++ more) := by
  induction first with
  | nil => exact second
  | binds builtin binds _ ih => exact .binds builtin binds (ih second)
  | tests builtin ready _ ih => exact .tests builtin ready (ih second)

theorem pass_ordered : Ordered names (pass atoms names).1 ∧
    (pass atoms names).2.2 = after names (pass atoms names).1 := by
  induction atoms generalizing names with
  | nil => exact ⟨.nil, rfl⟩
  | cons a rest ih =>
    unfold pass
    split
    · exact ih
    · rename_i op builtin
      split
      · rename_i x binds
        exact ⟨.binds builtin binds ih.1, ih.2⟩
      · split
        · rename_i ready
          simp only [List.all_eq_true] at ready
          exact ⟨.tests builtin ready ih.1, ih.2⟩
        · exact ih

theorem schedule_ordered (passes : Nat) : Ordered names (schedule passes atoms names) := by
  induction passes generalizing atoms names with
  | zero => cases atoms <;> exact .nil
  | succ passes ih =>
    cases atoms with
    | nil => exact .nil
    | cons a rest =>
      obtain ⟨first, named⟩ := @pass_ordered names (a :: rest)
      exact first.append (named ▸ ih)

theorem pass_perm : ((pass atoms names).1.map Step.atom ++ (pass atoms names).2.1).Perm
    (atoms.filter fun a => a.builtin?.isSome) := by
  induction atoms generalizing names with
  | nil => exact .refl _
  | cons a rest ih =>
    unfold pass
    split
    · rename_i relational
      rw [List.filter_cons_of_neg (by simp [relational])]
      exact ih
    · rename_i op builtin
      rw [List.filter_cons_of_pos (by simp [builtin])]
      split
      · exact .cons a ih
      · split
        · exact .cons a ih
        · exact List.perm_middle.trans (.cons a ih)

theorem mem_schedule {passes : Nat} {s : Step} (inside : s ∈ schedule passes atoms names) :
    s.atom ∈ atoms := by
  induction passes generalizing atoms names with
  | zero => cases atoms <;> cases inside
  | succ passes ih =>
    cases atoms with
    | nil => cases inside
    | cons a rest =>
      have covered {b : Atom} (listed : b ∈ (pass (a :: rest) names).1.map Step.atom ++
          (pass (a :: rest) names).2.1) : b ∈ a :: rest :=
        List.mem_of_mem_filter (pass_perm.subset listed)
      rcases List.mem_append.mp inside with here | later
      · exact covered (List.mem_append_left _ (List.mem_map_of_mem here))
      · exact covered (List.mem_append_right _ (ih later))

theorem pass_congr (same : ∀ x, names.contains x = names'.contains x) :
    (pass atoms names).1 = (pass atoms names').1 ∧
      (pass atoms names).2.1 = (pass atoms names').2.1 ∧
      ∀ x, (pass atoms names).2.2.contains x = (pass atoms names').2.2.contains x := by
  induction atoms generalizing names names' with
  | nil => exact ⟨rfl, rfl, same⟩
  | cons a rest ih =>
    have binds : a.binding? names = a.binding? names' := a.binding?_congr same
    have ready : (a.args.all fun t => t.vars.all fun v => names.contains v.name || v.skolem.isSome) =
        a.args.all fun t => t.vars.all fun v => names'.contains v.name || v.skolem.isSome := by
      simp only [same]
    rw [pass, pass, binds, ready]
    split
    · exact ih same
    · split
      · rename_i x _
        have grown (y : String) : (x :: names).contains y = (x :: names').contains y := by
          rw [List.contains_cons, List.contains_cons, same]
        obtain ⟨steps, left, named⟩ := ih grown
        exact ⟨congrArg (_ :: ·) steps, left, named⟩
      · obtain ⟨steps, left, named⟩ := ih same
        split
        · exact ⟨congrArg (_ :: ·) steps, left, named⟩
        · exact ⟨steps, congrArg (_ :: ·) left, named⟩

theorem schedule_congr (same : ∀ x, names.contains x = names'.contains x) (passes : Nat) :
    schedule passes atoms names = schedule passes atoms names' := by
  induction passes generalizing atoms names names' with
  | zero => cases atoms <;> rfl
  | succ passes ih =>
    cases atoms with
    | nil => rfl
    | cons a rest =>
      obtain ⟨steps, left, named⟩ := @pass_congr _ _ (a :: rest) same
      simp only [schedule, steps, left, ih named]

theorem free?_eq {t : Term} (free : Atom.free? names t = some x) :
    ∃ v, t = .variable v ∧ v.name = x ∧ names.contains x = false := by
  unfold Atom.free? at free
  split at free
  · split at free
    · cases free
    · rename_i v fresh
      cases free
      exact ⟨v, rfl, rfl, Bool.not_eq_true _ ▸ fresh⟩
  · cases free

-- What a built-in that binds a variable is: a function over bound arguments, or an equality with
-- one bound side.
theorem binding?_cases {op : Builtin} (builtin : a.builtin? = some op)
    (binds : a.binding? names = some x) : names.contains x = false ∧
      ((op.isFunction = true ∧ ∀ t ∈ a.args.tail, Atom.isBound names t = true) ∨
        (op.isFunction = false ∧ ∃ left right rest, a.args = left :: right :: rest ∧
          Atom.isBound names (if left.asVariable?.any (·.name = x) then right else left) = true)) := by
  unfold Atom.binding? at binds
  rw [builtin] at binds
  cases op with
  | least | greatest =>
    dsimp only at binds
    split at binds
    · rename_i output rest shape
      split at binds
      · rename_i ready
        obtain ⟨-, -, -, fresh⟩ := free?_eq binds
        rw [shape]
        exact ⟨fresh, .inl ⟨rfl, List.all_eq_true.mp ready⟩⟩
      · cases binds
    · cases binds
  | eq =>
    dsimp only at binds
    split at binds
    · rename_i left right rest shape
      split at binds
      · rename_i onLeft onRight
        split at binds
        · rename_i ready
          cases binds
          obtain ⟨v, rfl, same, fresh⟩ := free?_eq onLeft
          refine ⟨fresh, .inr ⟨rfl, _, right, rest, shape, ?_⟩⟩
          rw [if_pos (by simpa [Term.asVariable?] using same)]
          exact ready
        · cases binds
      · rename_i onLeft onRight
        split at binds
        · rename_i ready
          cases binds
          obtain ⟨v, rfl, same, fresh⟩ := free?_eq onRight
          refine ⟨fresh, .inr ⟨rfl, left, _, rest, shape, ?_⟩⟩
          rw [if_neg]
          · exact ready
          · cases left with
            | «variable» other =>
              intro equal
              have named : other.name = x := by simpa [Term.asVariable?] using equal
              simp only [Atom.free?, named, fresh, Bool.false_eq_true, if_false] at onLeft
              cases onLeft
            | constant type value => simp [Term.asVariable?]
            | skolem f args => simp [Term.asVariable?]
        · cases binds
      · cases binds
    · cases binds
  | ne => cases binds
  | lt => cases binds
  | le => cases binds
  | gt => cases binds
  | ge => cases binds

end Scheduling

def Meaning.Honest (m : Meaning) : Prop :=
  m.mark = ⟨.integer (if m.value.value = .null then 0 else 1), none⟩

theorem Meaning.honest_of_unmarked {value : Typed} : Meaning.Honest ⟨value, none⟩ := rfl

-- An environment holds what the assignment gives to the names.
structure Reads (env : Env) (σ : Assignment) (names : List String) : Prop where
  named : ∀ x, names.contains x = env.contains x
  read : ∀ x m, env.get? x = some m → m.value = σ x ∧ m.Honest

theorem named_insert {env : Env} {names : List String} (named : ∀ x, names.contains x = env.contains x)
    {x : String} {m : Meaning} (y : String) :
    (x :: names).contains y = (env.insert x m).contains y := by
  rw [Bool.eq_iff_iff, NameMap.contains_insert, List.contains_cons, Bool.or_eq_true, named y,
    beq_iff_eq]
  exact or_congr_left eq_comm

theorem settle_keeps {ctx : Lowering.Context} {env final : Env} {names : List String}
    {steps : List Step} (named : ∀ x, names.contains x = env.contains x)
    (ordered : Ordered names steps) (settle : Settle ctx final env steps) :
    ∀ x m, env.get? x = some m → final.get? x = some m := by
  induction ordered generalizing env with
  | nil =>
    cases settle
    exact fun _ _ found => found
  | @binds names a op x rest builtin binds later ih =>
    obtain ⟨m, -, settle⟩ := settle
    intro y other found
    refine ih (named_insert named) settle y other ?_
    have fresh : y ≠ x := by
      rintro rfl
      have unbound := (binding?_cases builtin binds).1
      rw [named, NameMap.contains, found] at unbound
      cases unbound
    rw [NameMap.get?_insert, if_neg fresh.symm]
    exact found
  | tests builtin ready later ih => exact ih named settle.2

namespace Reads

variable {ctx : Lowering.Context} {env final : Env} {σ : Assignment} {names : List String}
  {steps : List Step}

theorem insert (reads : Reads env σ names) {x : String} {m : Meaning} (same : m.value = σ x)
    (honest : m.Honest) : Reads (env.insert x m) σ (x :: names) where
  named := named_insert reads.named
  read y other found := by
    rw [NameMap.get?_insert] at found
    split at found
    · rename_i equal
      subst equal
      cases found
      exact ⟨same, honest⟩
    · exact reads.read y other found

theorem denote (reads : Reads env σ names) {t : Term} (plain : t.isPlain = true)
    (bound : ∀ v ∈ t.vars, names.contains v.name = true) :
    ∃ m, denote ctx env t = some m ∧ m.value = σ.value t ∧ m.Honest := by
  cases t with
  | «variable» v =>
    have known := bound v List.mem_cons_self
    rw [reads.named] at known
    obtain ⟨m, found⟩ := NameMap.get?_of_contains known
    exact ⟨m, denote_variable found, reads.read v.name m found⟩
  | constant type literal =>
    refine ⟨_, rfl, rfl, ?_⟩
    cases literal with
    | string s => rfl
    | integer n =>
      have known : (Meaning.ofLiteral type (.integer n)).value.value ≠ .null := Value.ofInteger_ne_null n
      rw [Meaning.Honest, if_neg known]
      rfl
    | null => cases plain
    | labeledNull label => cases plain
  | skolem function args => cases plain

theorem denoteAll (reads : Reads env σ names) {args : List Term}
    (plain : ∀ t ∈ args, t.isPlain = true)
    (bound : ∀ t ∈ args, ∀ v ∈ t.vars, names.contains v.name = true) :
    ∃ ms, args.mapM (RowSemantics.denote ctx env) = some ms ∧
      ms.map Meaning.value = args.map σ.value := by
  induction args with
  | nil => exact ⟨[], rfl, rfl⟩
  | cons t rest ih =>
    obtain ⟨plainHere, plain⟩ := List.forall_mem_cons.mp plain
    obtain ⟨boundHere, bound⟩ := List.forall_mem_cons.mp bound
    obtain ⟨m, meant, same, -⟩ := reads.denote plainHere boundHere
    obtain ⟨ms, all, others⟩ := ih plain bound
    refine ⟨m :: ms, ?_, by rw [List.map_cons, List.map_cons, same, others]⟩
    rw [List.mapM_cons, meant, all]
    rfl

theorem functionMeaning (reads : Reads env σ names) {op : Builtin} {args : List Term}
    (plain : ∀ t ∈ args, t.isPlain = true)
    (bound : ∀ t ∈ args, ∀ v ∈ t.vars, names.contains v.name = true) :
    functionMeaning ctx env op args = some ⟨σ.applied op args, none⟩ := by
  obtain ⟨ms, all, same⟩ := reads.denoteAll plain bound
  have values : ms.map (·.value.value) = args.map fun t => (σ.value t).value := by
    have values := congrArg (List.map Typed.value) same
    rwa [List.map_map, List.map_map] at values
  rw [RowSemantics.functionMeaning, all, Option.map_some, values]
  rfl

theorem computed (reads : Reads env σ names) {a : Atom} {op : Builtin} {x : String}
    (plain : ∀ t ∈ a.args, t.isPlain = true) (builtin : a.builtin? = some op)
    (binds : a.binding? names = some x) :
    ∃ m, computed ctx env ⟨a, op, some x⟩ x = some m ∧
      m.value = σ.computed ⟨a, op, some x⟩ x ∧ m.Honest := by
  unfold RowSemantics.computed Assignment.computed
  rcases (binding?_cases builtin binds).2 with ⟨function, ready⟩ | ⟨equation, left, right, rest, shape, ready⟩
  · simp only [function, if_true]
    refine ⟨_, reads.functionMeaning (fun t inside => plain t (List.mem_of_mem_tail inside))
      (fun t inside v listed => ?_), rfl, Meaning.honest_of_unmarked⟩
    exact List.all_eq_true.mp (ready t inside) v listed
  · simp only [equation, Bool.false_eq_true, if_false, shape]
    refine reads.denote ?_ fun v listed => List.all_eq_true.mp ready v listed
    rw [shape] at plain
    split
    · exact plain right (by simp)
    · exact plain left (by simp)

theorem tested_iff (reads : Reads env σ names) {a : Atom} {op : Builtin}
    (plain : ∀ t ∈ a.args, t.isPlain = true)
    (bound : ∀ t ∈ a.args, ∀ v ∈ t.vars, names.contains v.name = true) :
    Tested ctx env ⟨a, op, none⟩ ↔ σ.Tests ⟨a, op, none⟩ := by
  unfold Tested sides Assignment.Tests
  cases shape : a.args with
  | nil => simp
  | cons first rest =>
    rw [shape] at plain bound
    obtain ⟨plainFirst, plain⟩ := List.forall_mem_cons.mp plain
    obtain ⟨boundFirst, bound⟩ := List.forall_mem_cons.mp bound
    obtain ⟨left, onLeft, sameLeft, -⟩ := @Reads.denote ctx _ _ _ reads _ plainFirst boundFirst
    dsimp only
    rw [onLeft]
    cases function : op.isFunction with
    | true =>
      simp [@Reads.functionMeaning ctx _ _ _ reads op _ plain bound, sameLeft]
    | false =>
      cases rest with
      | nil => simp
      | cons second others =>
        obtain ⟨right, onRight, sameRight, -⟩ := @Reads.denote ctx _ _ _ reads _
          (plain second List.mem_cons_self) (bound second List.mem_cons_self)
        simp [onRight, sameLeft, sameRight]

theorem tests_bound {a : Atom} (plain : ∀ t ∈ a.args, t.isPlain = true)
    (ready : ∀ t ∈ a.args, ∀ v ∈ t.vars, (names.contains v.name || v.skolem.isSome) = true) :
    ∀ t ∈ a.args, ∀ v ∈ t.vars, names.contains v.name = true := by
  intro t inside v listed
  have own := ready t inside v listed
  cases t with
  | «variable» u =>
    cases List.mem_singleton.mp listed
    have unmarked : v.skolem.isNone = true := plain _ inside
    rw [Option.isNone_iff_eq_none] at unmarked
    simpa [unmarked] using own
  | constant type literal => cases listed
  | skolem function args => cases plain _ inside

theorem settle_of_settles (reads : Reads env σ names) (ordered : Ordered names steps)
    (plain : ∀ s ∈ steps, ∀ t ∈ s.atom.args, t.isPlain = true) (settles : ∀ s ∈ steps, σ.Settles s) :
    ∃ final, Settle ctx final env steps ∧ Reads final σ (after names steps) := by
  induction ordered generalizing env with
  | nil => exact ⟨env, rfl, reads⟩
  | binds builtin binds later ih =>
    obtain ⟨plainHere, plain⟩ := List.forall_mem_cons.mp plain
    obtain ⟨here, settles⟩ := List.forall_mem_cons.mp settles
    obtain ⟨m, meant, same, honest⟩ := @Reads.computed ctx _ _ _ reads _ _ _ plainHere builtin binds
    obtain ⟨final, settle, read⟩ := ih (reads.insert (same.trans here.symm) honest) plain settles
    exact ⟨final, ⟨m, meant, settle⟩, read⟩
  | tests builtin ready later ih =>
    obtain ⟨plainHere, plain⟩ := List.forall_mem_cons.mp plain
    obtain ⟨here, settles⟩ := List.forall_mem_cons.mp settles
    obtain ⟨final, settle, read⟩ := ih reads plain settles
    exact ⟨final, ⟨(reads.tested_iff plainHere (tests_bound plainHere ready)).mpr here, settle⟩, read⟩

theorem settles_of_settle (reads : Reads env σ names) (ordered : Ordered names steps)
    (plain : ∀ s ∈ steps, ∀ t ∈ s.atom.args, t.isPlain = true)
    (agrees : ∀ x m, final.get? x = some m → m.value = σ x) (settle : Settle ctx final env steps) :
    (∀ s ∈ steps, σ.Settles s) ∧ Reads final σ (after names steps) := by
  induction ordered generalizing env with
  | nil =>
    cases settle
    exact ⟨fun _ inside => absurd inside List.not_mem_nil, reads⟩
  | @binds names a op x rest builtin binds later ih =>
    obtain ⟨plainHere, plain⟩ := List.forall_mem_cons.mp plain
    obtain ⟨m, meant, settle⟩ := settle
    obtain ⟨other, meant', same, honest⟩ := @Reads.computed ctx _ _ _ reads _ _ _ plainHere builtin binds
    cases meant.symm.trans meant'
    have kept : final.get? x = some m :=
      settle_keeps (named_insert reads.named) later settle x m (by rw [NameMap.get?_insert, if_pos rfl])
    obtain ⟨settles, read⟩ := ih (reads.insert (agrees x m kept) honest) plain settle
    refine ⟨List.forall_mem_cons.mpr ⟨?_, settles⟩, read⟩
    exact (agrees x m kept).symm.trans same
  | tests builtin ready later ih =>
    obtain ⟨plainHere, plain⟩ := List.forall_mem_cons.mp plain
    obtain ⟨here, settle⟩ := settle
    obtain ⟨settles, read⟩ := ih reads plain settle
    refine ⟨List.forall_mem_cons.mpr ⟨?_, settles⟩, read⟩
    exact (reads.tested_iff plainHere (tests_bound plainHere ready)).mp here

end Reads

end RowSemantics

end PeerExchange
