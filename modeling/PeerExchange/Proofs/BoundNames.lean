import Mathlib.Data.Finset.Card
import Mathlib.Data.Finset.Dedup
import Mathlib.Tactic.ByContra
import PeerExchange.Proofs.Stratification
import PeerExchange.Rule

namespace PeerExchange

namespace Atom

variable {known : List String} {t : Term} {a : Atom} {name : String}

theorem isBound_iff : isBound known t = true ↔ ∀ v ∈ t.vars, v.name ∈ known := by
  simp [isBound]

theorem free?_eq_some :
    free? known t = some name ↔ ∃ v, t = .variable v ∧ v.name = name ∧ name ∉ known := by
  cases t with
  | «variable» v =>
    simp only [free?, List.contains_iff_mem, Term.variable.injEq]
    split
    · rename_i bound
      refine ⟨nofun, ?_⟩
      rintro ⟨_, rfl, rfl, unbound⟩
      exact absurd bound unbound
    · rename_i unbound
      constructor
      · intro same
        cases same
        exact ⟨v, rfl, rfl, unbound⟩
      · rintro ⟨_, rfl, rfl, -⟩
        rfl
  | constant type value => simp [free?]
  | skolem function args => simp [free?]

theorem free?_eq_none_of_bound (bound : ∀ v ∈ t.vars, v.name ∈ known) : free? known t = none := by
  cases found : free? known t with
  | none => rfl
  | some name =>
    obtain ⟨v, rfl, rfl, unbound⟩ := free?_eq_some.mp found
    exact absurd (bound v (List.mem_singleton_self v)) unbound

-- A built-in gives a variable its value from those of the inputs: the output of a function, or a
-- side of an equation.
inductive Determines : Atom → List Term → String → Prop
  | output {a : Atom} {op : Builtin} {v : Variable} {inputs : List Term}
    (called : a.builtin? = some op) (function : op.isFunction = true)
    (args : a.args = .variable v :: inputs) : Determines a inputs v.name
  | left {a : Atom} {v : Variable} {right : Term} {more : List Term}
    (equation : a.builtin? = some .eq) (args : a.args = .variable v :: right :: more) :
    Determines a [right] v.name
  | right {a : Atom} {v : Variable} {left : Term} {more : List Term}
    (equation : a.builtin? = some .eq) (args : a.args = left :: .variable v :: more) :
    Determines a [left] v.name

namespace Determines

variable {inputs : List Term}

theorem builtin (determines : a.Determines inputs name) : a.builtin?.isSome = true := by
  cases determines with
  | output called => rw [called]; rfl
  | left equation => rw [equation]; rfl
  | right equation => rw [equation]; rfl

theorem inputs_subset (determines : a.Determines inputs name) : inputs ⊆ a.args := by
  cases determines with
  | output called function args => simp [args]
  | left equation args => simp [args]
  | right equation args => simp [args]

theorem mem_variableNames (determines : a.Determines inputs name) : name ∈ a.variableNames := by
  cases determines with
  | output called function args => simp [variableNames, vars, args, Term.vars]
  | left equation args => simp [variableNames, vars, args, Term.vars]
  | right equation args => simp [variableNames, vars, args, Term.vars]

end Determines

theorem determines_of_output {op : Builtin} {output : Term} {rest : List Term}
    (called : a.builtin? = some op) (function : op.isFunction = true) (args : a.args = output :: rest)
    (binds : (if rest.all (isBound known) then free? known output else none) = some name) :
    name ∉ known ∧ ∃ inputs, a.Determines inputs name ∧ ∀ t ∈ inputs, ∀ v ∈ t.vars, v.name ∈ known := by
  split at binds
  · rename_i bound
    obtain ⟨v, rfl, rfl, unbound⟩ := free?_eq_some.mp binds
    exact ⟨unbound, rest, .output called function args,
      fun t inside => isBound_iff.mp (List.all_eq_true.mp bound t inside)⟩
  · cases binds

theorem determines_of_binding (binds : a.binding? known = some name) :
    name ∉ known ∧ ∃ inputs, a.Determines inputs name ∧ ∀ t ∈ inputs, ∀ v ∈ t.vars, v.name ∈ known := by
  unfold binding? at binds
  split at binds
  · rename_i called
    split at binds
    · rename_i args
      exact determines_of_output called rfl args binds
    · cases binds
  · rename_i called
    split at binds
    · rename_i args
      exact determines_of_output called rfl args binds
    · cases binds
  · rename_i equation
    split at binds
    · rename_i left right more args
      split at binds
      · rename_i found none
        split at binds
        · rename_i bound
          cases binds
          obtain ⟨v, rfl, rfl, unbound⟩ := free?_eq_some.mp found
          exact ⟨unbound, [right], .left equation args,
            List.forall_mem_singleton.mpr (isBound_iff.mp bound)⟩
        · cases binds
      · rename_i none found
        split at binds
        · rename_i bound
          cases binds
          obtain ⟨v, rfl, rfl, unbound⟩ := free?_eq_some.mp found
          exact ⟨unbound, [left], .right equation args,
            List.forall_mem_singleton.mpr (isBound_iff.mp bound)⟩
        · cases binds
      · cases binds
    · cases binds
  · cases binds

theorem binding?_of_determines {inputs : List Term} (determines : a.Determines inputs name)
    (unbound : name ∉ known) (bound : ∀ t ∈ inputs, ∀ v ∈ t.vars, v.name ∈ known) :
    a.binding? known = some name := by
  cases determines with
  | output called function args =>
    rename_i op v
    have all : inputs.all (isBound known) = true :=
      List.all_eq_true.mpr fun t inside => isBound_iff.mpr (bound t inside)
    have free : free? known (.variable v) = some v.name := free?_eq_some.mpr ⟨v, rfl, rfl, unbound⟩
    cases op with
    | least => simp only [binding?, called, args, all, if_true, free]
    | greatest => simp only [binding?, called, args, all, if_true, free]
    | eq | ne | lt | le | gt | ge => cases function
  | left equation args =>
    rename_i v right more
    have input := bound right (List.mem_singleton_self right)
    have free : free? known (.variable v) = some v.name := free?_eq_some.mpr ⟨v, rfl, rfl, unbound⟩
    simp only [binding?, equation, args, free, free?_eq_none_of_bound input,
      isBound_iff.mpr input, if_true]
  | right equation args =>
    rename_i v left more
    have input := bound left (List.mem_singleton_self left)
    have free : free? known (.variable v) = some v.name := free?_eq_some.mpr ⟨v, rfl, rfl, unbound⟩
    simp only [binding?, equation, args, free, free?_eq_none_of_bound input,
      isBound_iff.mpr input, if_true]

end Atom

-- Names that hold those of the joined atoms and all that the built-ins determine from them.
structure Closed (body : List Atom) (names : String → Prop) : Prop where
  joined : ∀ a ∈ body, a.isPositive = true → ∀ name ∈ a.variableNames, names name
  determined : ∀ a ∈ body, a.negated = false → ∀ inputs name, a.Determines inputs name →
    (∀ t ∈ inputs, ∀ v ∈ t.vars, names v.name) → names name

def Binds (body : List Atom) (name : String) : Prop := ∀ names, Closed body names → names name

variable {body body' : List Atom} {name : String}

theorem Closed.binds (closed : Closed body names) (binds : Binds body name) : names name :=
  binds names closed

theorem binds_closed (body : List Atom) : Closed body (Binds body) where
  joined a inside positive name mentioned _ closed := closed.joined a inside positive name mentioned
  determined a inside positive inputs name determines bound names closed :=
    closed.determined a inside positive inputs name determines fun t input v within =>
      bound t input v within names closed

theorem Binds.mono (within : ∀ a ∈ body, a.negated = false → a ∈ body') (binds : Binds body name) :
    Binds body' name :=
  fun _ closed => binds _
    ⟨fun a inside positive =>
        closed.joined a (within a inside (Atom.negated_of_isPositive positive)) positive,
      fun a inside plain => closed.determined a (within a inside plain) plain⟩

namespace Rule

variable {r : Rule}

theorem mem_joinedNames :
    name ∈ r.joinedNames ↔ ∃ a ∈ r.body, a.isPositive = true ∧ name ∈ a.variableNames := by
  simp [joinedNames, mem_distinctNames, and_assoc]

theorem bindPass_within {names : String → Prop} {atoms : List Atom} (closed : Closed r.body names)
    (listed : ∀ a ∈ atoms, a ∈ r.body ∧ a.negated = false) {bound : List String}
    (held : ∀ name ∈ bound, names name) : ∀ name ∈ bindPass atoms bound, names name := by
  unfold bindPass
  induction atoms generalizing bound with
  | nil => exact held
  | cons a rest ih =>
    obtain ⟨⟨inside, positive⟩, listed⟩ := List.forall_mem_cons.mp listed
    refine ih listed (List.forall_mem_append.mpr ⟨held, fun name new => ?_⟩)
    obtain ⟨-, inputs, determines, known⟩ := Atom.determines_of_binding (Option.mem_toList.mp new)
    exact closed.determined a inside positive inputs name determines
      fun t input v within => held _ (known t input v within)

theorem bindPasses_within {names : String → Prop} {atoms : List Atom} (closed : Closed r.body names)
    (listed : ∀ a ∈ atoms, a ∈ r.body ∧ a.negated = false) {passes : Nat} {bound : List String}
    (held : ∀ name ∈ bound, names name) : ∀ name ∈ bindPasses atoms passes bound, names name := by
  induction passes generalizing bound with
  | zero => exact held
  | succ passes ih =>
    unfold bindPasses
    dsimp only
    split
    · exact held
    · exact ih (bindPass_within closed listed held)

theorem binds_of_boundNames (found : name ∈ r.boundNames) : Binds r.body name := by
  intro names closed
  refine bindPasses_within closed (fun a listed => ?_) (fun name joined => ?_) name found
  · simpa using List.mem_filter.mp listed
  · obtain ⟨a, inside, positive, mentioned⟩ := mem_joinedNames.mp joined
    exact closed.joined a inside positive name mentioned

section Passes

variable {atoms : List Atom} {bound : List String} {passes : Nat}

theorem bindPass_grows (atoms : List Atom) (bound : List String) : ∃ new,
    bindPass atoms bound = bound ++ new ∧ ∀ name ∈ new,
      name ∉ bound ∧ ∃ a ∈ atoms, name ∈ a.variableNames := by
  unfold bindPass
  induction atoms generalizing bound with
  | nil => exact ⟨[], (List.append_nil _).symm, List.forall_mem_nil _⟩
  | cons a rest ih =>
    obtain ⟨new, grown, fresh⟩ := ih (bound ++ (a.binding? bound).toList)
    refine ⟨(a.binding? bound).toList ++ new, by rw [List.foldl_cons, grown, List.append_assoc],
      List.forall_mem_append.mpr ⟨fun name here => ?_, fun name later => ?_⟩⟩
    · obtain ⟨unbound, inputs, determines, -⟩ := Atom.determines_of_binding (Option.mem_toList.mp here)
      exact ⟨unbound, a, List.mem_cons_self, determines.mem_variableNames⟩
    · obtain ⟨unbound, b, inside, mentioned⟩ := fresh name later
      exact ⟨fun old => unbound (List.mem_append_left _ old), b, List.mem_cons_of_mem _ inside, mentioned⟩

theorem bindPass_stable (same : (bindPass atoms bound).length = bound.length) :
    ∀ a ∈ atoms, a.binding? bound = none := by
  unfold bindPass at same
  induction atoms with
  | nil => exact List.forall_mem_nil _
  | cons a rest ih =>
    obtain ⟨new, grown, -⟩ := bindPass_grows rest (bound ++ (a.binding? bound).toList)
    unfold bindPass at grown
    have none : a.binding? bound = none := by
      rw [List.foldl_cons, grown, List.length_append, List.length_append] at same
      refine Option.toList_eq_nil_iff.mp (List.eq_nil_of_length_eq_zero ?_)
      omega
    rw [List.foldl_cons, none, Option.toList_none, List.append_nil] at same
    exact List.forall_mem_cons.mpr ⟨none, ih same⟩

-- Passes over the atoms are made until one binds nothing new.
inductive Saturates (atoms : List Atom) : List String → List String → Prop
  | done {bound : List String} (same : (bindPass atoms bound).length = bound.length) :
      Saturates atoms bound bound
  | again {bound result : List String} (grown : (bindPass atoms bound).length ≠ bound.length)
      (later : Saturates atoms (bindPass atoms bound) result) : Saturates atoms bound result

theorem Saturates.stable {result : List String} (saturates : Saturates atoms bound result) :
    ∀ a ∈ atoms, a.binding? result = none := by
  induction saturates with
  | done same => exact bindPass_stable same
  | again _ _ ih => exact ih

theorem saturates_bindPasses (atoms : List Atom) (passes : Nat) (bound : List String)
    (enough : ((atoms.flatMap Atom.variableNames).toFinset \ bound.toFinset).card ≤ passes) :
    Saturates atoms bound (bindPasses atoms passes bound) := by
  induction passes generalizing bound with
  | zero =>
    obtain ⟨new, grown, fresh⟩ := bindPass_grows atoms bound
    have none : new = [] := List.eq_nil_iff_forall_not_mem.mpr fun name added => by
      obtain ⟨unbound, a, inside, mentioned⟩ := fresh name added
      have left : name ∈ (atoms.flatMap Atom.variableNames).toFinset \ bound.toFinset := by
        rw [Finset.mem_sdiff, List.mem_toFinset, List.mem_toFinset]
        exact ⟨List.mem_flatMap.mpr ⟨a, inside, mentioned⟩, unbound⟩
      rw [Finset.card_eq_zero.mp (Nat.le_zero.mp enough)] at left
      cases left
    exact .done (by rw [grown, none, List.append_nil])
  | succ passes ih =>
    unfold bindPasses
    dsimp only
    split
    · rename_i same
      exact .done same
    · rename_i moved
      refine .again moved ?_
      obtain ⟨new, grown, fresh⟩ := bindPass_grows atoms bound
      rw [grown] at moved ⊢
      refine ih _ (Nat.le_of_lt_succ (Nat.lt_of_lt_of_le (Finset.card_lt_card ?_) enough))
      obtain ⟨name, added⟩ := List.exists_mem_of_ne_nil new fun none => moved (by rw [none, List.append_nil])
      obtain ⟨unbound, a, inside, mentioned⟩ := fresh name added
      refine Finset.ssubset_iff_of_subset (Finset.sdiff_subset_sdiff (Finset.Subset.refl _) ?_) |>.mpr
        ⟨name, ?_, ?_⟩
      · exact fun kept member => List.mem_toFinset.mpr
          (List.mem_append_left _ (List.mem_toFinset.mp member))
      · rw [Finset.mem_sdiff, List.mem_toFinset, List.mem_toFinset]
        exact ⟨List.mem_flatMap.mpr ⟨a, inside, mentioned⟩, unbound⟩
      · rw [Finset.mem_sdiff, List.mem_toFinset, List.mem_toFinset]
        exact fun both => both.2 (List.mem_append_right _ added)

theorem subset_bindPasses (atoms : List Atom) (passes : Nat) (bound : List String) :
    bound ⊆ bindPasses atoms passes bound := by
  induction passes generalizing bound with
  | zero => exact List.Subset.refl _
  | succ passes ih =>
    unfold bindPasses
    dsimp only
    split
    · exact List.Subset.refl _
    · obtain ⟨new, grown, -⟩ := bindPass_grows atoms bound
      rw [grown]
      exact fun name old => ih _ (List.mem_append_left _ old)

end Passes

theorem saturates_boundNames (r : Rule) :
    Saturates (r.body.filter (!·.negated)) r.joinedNames r.boundNames :=
  saturates_bindPasses _ _ _
    (Nat.le_trans (Finset.card_le_card Finset.sdiff_subset) (List.toFinset_card_le _))

theorem mem_boundNames : name ∈ r.boundNames ↔ Binds r.body name := by
  refine ⟨binds_of_boundNames, fun binds => Closed.binds ⟨?_, ?_⟩ binds⟩
  · intro a inside positive name mentioned
    exact subset_bindPasses _ _ _ (mem_joinedNames.mpr ⟨a, inside, positive, mentioned⟩)
  · intro a inside plain inputs name determines bound
    by_contra unbound
    have listed : a ∈ r.body.filter (!·.negated) := List.mem_filter.mpr ⟨inside, by simp [plain]⟩
    have stable := r.saturates_boundNames.stable a listed
    exact nomatch stable.symm.trans (Atom.binding?_of_determines determines unbound bound)

end Rule

end PeerExchange
