import PeerExchange.Proofs.HeldRows
import PeerExchange.Proofs.ProvenanceMeaning
import PeerExchange.Proofs.RuleAtoms
import PeerExchange.Proofs.SubsumedAtoms

namespace PeerExchange

variable {D : Type} {I : Interpretation D} {θ η : Valuation D} {db : Tables D} {k : Int}

namespace Rule

def neededNames (r : Rule) : List String := r.neededVariables.map Variable.name

-- A valuation on which the body of a rule holds. Names that are needed and not bound have the value of
-- the Skolem term defined for them, and a negated atom is kept out whatever the names stand for that
-- the body leaves open.
structure Satisfies (I : Interpretation D) (db : Tables D) (k : Int) (r : Rule) (θ : Valuation D) :
    Prop where
  invents : ∀ i ∈ r.inventions, i.variableName ∈ r.neededNames → i.variableName ∉ r.boundNames →
    θ i.variableName = i.term.denote I θ
  joined : ∀ (position : Nat) (a : Atom), r.body[position]? = some a → a.negated = false →
    a.optional = false → a.Holds I db θ (r.guardStamp k position)
  absent : ∀ a ∈ r.body, a.negated = true → ∀ η : Valuation D,
    (∀ name ∈ r.boundNames, η name = θ name) → ¬ a.Holds I db η none

-- The tuples that a rule derives into its heads.
def answers (I : Interpretation D) (db : Tables D) (k : Int) (r : Rule) : Set (List (List D)) :=
  {tuples | ∃ θ, r.Satisfies I db k θ ∧ tuples = r.head.map (Atom.tuple I θ)}

-- A rule as mappings have it: it joins all that it reads, and no atom is read by iterations.
structure IsJoin (r : Rule) : Prop where
  required : ∀ a ∈ r.body, a.optional = false
  unguarded : r.guard = none

variable {r : Rule} {isProvenance : String → Bool} {body dropped : List Atom} {a b : Atom}
  {name : String} {i j : Nat}

theorem IsJoin.narrow (join : r.IsJoin) (within : body ⊆ r.body) :
    ({ r with body := body } : Rule).IsJoin where
  required a inside := join.required a (within inside)
  unguarded := join.unguarded

theorem IsJoin.joined (join : r.IsJoin) (satisfied : r.Satisfies I db k θ) (inside : a ∈ r.body)
    (plain : a.negated = false) : a.Holds I db θ none := by
  obtain ⟨position, found⟩ := List.mem_iff_getElem?.mp inside
  have held := satisfied.joined position a found plain (join.required a inside)
  rwa [guardStamp, join.unguarded] at held

theorem IsJoin.satisfies (join : r.IsJoin)
    (invents : ∀ i ∈ r.inventions, i.variableName ∈ r.neededNames → i.variableName ∉ r.boundNames →
      θ i.variableName = i.term.denote I θ)
    (joined : ∀ a ∈ r.body, a.negated = false → a.Holds I db θ none)
    (absent : ∀ a ∈ r.body, a.negated = true → ∀ η : Valuation D,
      (∀ name ∈ r.boundNames, η name = θ name) → ¬ a.Holds I db η none) :
    r.Satisfies I db k θ where
  invents := invents
  joined position a found plain _ := by
    rw [guardStamp, join.unguarded]
    exact joined a (List.mem_of_getElem? found) plain
  absent := absent

theorem IsJoin.satisfies_iff_fires {M : Facts D} (join : r.IsJoin) (made : r.inventions = [])
    (plain : ∀ a ∈ r.body, a.negated = false) : r.Satisfies I (.ofFacts M) k θ ↔ r.Fires I M θ := by
  have accepted (a : Atom) (inside : a ∈ r.body) :
      a.Accepted I M θ ↔ a.Holds I (.ofFacts M) θ none := by
    rw [Atom.Accepted, plain a inside, if_neg Bool.false_ne_true]
  constructor
  · intro satisfied
    exact ⟨by simp [Defines, made], fun a inside =>
      (accepted a inside).mpr (join.joined satisfied inside (plain a inside))⟩
  · intro fires
    refine join.satisfies (by simp [made]) (fun a inside _ => ?_) fun a inside negated => ?_
    · exact (accepted a inside).mp (fires.accepted a inside)
    · cases negated.symm.trans (plain a inside)

section Repeats

theorem same_iff : a.same b = true ↔ a.predicate = b.predicate ∧ a.kind = b.kind ∧
    a.args.map Term.plain = b.args.map Term.plain ∧ a.negated = b.negated ∧ a.optional = b.optional := by
  simp [Atom.same, Term.sameList, and_assoc]

theorem same_comm : a.same b = b.same a := by
  rw [Bool.eq_iff_iff, same_iff, same_iff]
  simp only [eq_comm]

theorem agrees_of_same (same : a.same b = true) : a.Agrees b := by
  obtain ⟨predicate, kind, args, -⟩ := same_iff.mp same
  rw [← List.forall₂_eq_eq_eq, List.forall₂_map_left_iff, List.forall₂_map_right_iff] at args
  exact ⟨predicate, kind, args.imp fun _ _ => Term.agrees_of_plain⟩

theorem holds_of_tuple (predicate : a.predicate = b.predicate) (kind : a.kind = b.kind)
    (tuple : a.tuple I θ = b.tuple I η) {stamp : Option Int} :
    a.Holds I db θ stamp ↔ b.Holds I db η stamp := by
  unfold Atom.Holds
  rw [predicate, kind, tuple]

theorem holds_of_same (same : a.same b = true) {stamp : Option Int} :
    a.Holds I db θ stamp ↔ b.Holds I db θ stamp := by
  obtain ⟨predicate, kind, args, -⟩ := same_iff.mp same
  have plain (c : Atom) : c.tuple I θ = (c.args.map Term.plain).map (Term.denote I θ) := by
    rw [List.map_map]
    exact List.map_congr_left fun t _ => (Term.denote_plain t).symm
  exact holds_of_tuple predicate kind (by rw [plain a, plain b, args])

theorem names_of_agrees {ts us : List Term} (agree : List.Forall₂ Term.Agrees ts us) {u : Term}
    (inside : u ∈ us) {v : Variable} (within : v ∈ u.vars) :
    ∃ t ∈ ts, ∃ w ∈ t.vars, w.name = v.name := by
  obtain ⟨t, member, agrees⟩ := Compiled.forall₂_source agree inside
  have named : v.name ∈ t.vars.map Variable.name := by
    rw [agrees.names]
    exact List.mem_map_of_mem within
  obtain ⟨w, met, same⟩ := List.mem_map.mp named
  exact ⟨t, member, w, met, same⟩

-- What a built-in determines, one that agrees with it determines from inputs of the same names.
theorem determines_of_agrees {inputs : List Term} (agrees : a.Agrees b)
    (determines : a.Determines inputs name) : ∃ inputs', b.Determines inputs' name ∧
      List.Forall₂ Term.Agrees inputs inputs' := by
  have builtin (op : Builtin) (called : a.builtin? = some op) : b.builtin? = some op := by
    rw [Atom.builtin?, ← agrees.predicate]
    exact called
  have args := agrees.args
  cases determines with
  | output called function shape =>
    rw [shape] at args
    obtain ⟨t, rest, first, others, shape⟩ := List.forall₂_cons_left_iff.mp args
    cases first with
    | «variable» same => exact ⟨rest, same ▸ .output (builtin _ called) function shape, others⟩
  | left equation shape =>
    rw [shape] at args
    obtain ⟨t, rest, first, others, shape⟩ := List.forall₂_cons_left_iff.mp args
    obtain ⟨right, more, second, -, rfl⟩ := List.forall₂_cons_left_iff.mp others
    cases first with
    | «variable» same =>
      exact ⟨[right], same ▸ .left (builtin _ equation) shape, .cons second .nil⟩
  | right equation shape =>
    rw [shape] at args
    obtain ⟨left, rest, first, others, shape⟩ := List.forall₂_cons_left_iff.mp args
    obtain ⟨t, more, second, -, rfl⟩ := List.forall₂_cons_left_iff.mp others
    cases second with
    | «variable» same =>
      exact ⟨[left], same ▸ .right (builtin _ equation) shape, .cons first .nil⟩

theorem binds_of_covered (covered : ∀ a ∈ r.body, ∃ kept ∈ body, kept.same a = true)
    (binds : Binds r.body name) : Binds body name := by
  intro names closed
  refine Closed.binds ⟨?_, ?_⟩ binds
  · intro a inside positive name mentioned
    obtain ⟨kept, member, same⟩ := covered a inside
    obtain ⟨predicate, -, -, negated, -⟩ := same_iff.mp same
    refine closed.joined kept member ?_ name ((agrees_of_same same).variableNames_eq ▸ mentioned)
    rw [Atom.isPositive, negated, relation_of_same same]
    exact positive
  · intro a inside plain inputs name determines known
    obtain ⟨kept, member, same⟩ := covered a inside
    obtain ⟨-, -, -, negated, -⟩ := same_iff.mp same
    obtain ⟨inputs', transferred, agree⟩ :=
      determines_of_agrees (agrees_of_same (same_comm.trans same)) determines
    refine closed.determined kept member (negated.trans plain) inputs' name transferred ?_
    intro u input v within
    obtain ⟨t, arg, w, met, named⟩ := names_of_agrees agree input within
    exact named ▸ known t arg w met

theorem mem_neededNames : name ∈ r.neededNames ↔ (∃ a ∈ r.head, name ∈ a.variableNames) ∨
    (∃ a ∈ r.body, a.builtin?.isSome = true ∧ name ∈ a.variableNames) ∨
      ∃ i ∈ r.inventions, ∃ v ∈ i.term.vars, v.name = name := by
  rw [neededNames, neededVariables, List.map_append, List.mem_append, List.flatMap_append,
    List.map_append, List.mem_append, or_assoc, List.mem_map, List.mem_map, List.mem_map, mem_inputNames]
  have named (atoms : List Atom) : (∃ v ∈ atoms.flatMap Atom.vars, v.name = name) ↔
      ∃ a ∈ atoms, name ∈ a.variableNames := by
    rw [← List.mem_map, List.map_flatMap, List.mem_flatMap]
    rfl
  rw [named, named]
  simp only [List.mem_filter, and_assoc]

theorem answers_dropRepeats (join : r.IsJoin) :
    ({ r with body := (dropRepeats r.body).1 } : Rule).answers I db k = r.answers I db k := by
  obtain ⟨within, covered⟩ := dropRepeats_keeps r.body
  have bound (name : String) : name ∈ ({ r with body := (dropRepeats r.body).1 } : Rule).boundNames ↔
      name ∈ r.boundNames := by
    rw [mem_boundNames, mem_boundNames]
    exact ⟨Binds.mono fun a inside _ => within inside, binds_of_covered covered⟩
  have needed (name : String) : name ∈ ({ r with body := (dropRepeats r.body).1 } : Rule).neededNames ↔
      name ∈ r.neededNames := by
    rw [mem_neededNames, mem_neededNames]
    refine or_congr_right (or_congr_left ⟨?_, ?_⟩)
    · rintro ⟨a, inside, called⟩
      exact ⟨a, within inside, called⟩
    · rintro ⟨a, inside, called, mentioned⟩
      obtain ⟨kept, member, same⟩ := covered a inside
      refine ⟨kept, member, ?_, (agrees_of_same same).variableNames_eq ▸ mentioned⟩
      rw [Atom.builtin?, (same_iff.mp same).1]
      exact called
  have narrow := join.narrow within
  unfold answers
  ext tuples
  refine exists_congr fun θ => and_congr_left fun _ => ⟨fun satisfied => ?_, fun satisfied => ?_⟩
  · refine join.satisfies (fun i member need free => ?_) (fun a inside plain => ?_)
      fun a inside negated η agree => ?_
    · exact satisfied.invents i member ((needed _).mpr need) fun found => free ((bound _).mp found)
    · obtain ⟨kept, member, same⟩ := covered a inside
      exact (holds_of_same same).mp
        (narrow.joined satisfied member ((same_iff.mp same).2.2.2.1.trans plain))
    · obtain ⟨kept, member, same⟩ := covered a inside
      rw [← holds_of_same same]
      exact satisfied.absent kept member ((same_iff.mp same).2.2.2.1.trans negated) η
        fun name found => agree name ((bound name).mp found)
  · refine narrow.satisfies (fun i member need free => ?_) (fun a inside plain => ?_)
      fun a inside negated η agree => ?_
    · exact satisfied.invents i member ((needed _).mp need) fun found => free ((bound _).mpr found)
    · exact join.joined satisfied (within inside) plain
    · exact satisfied.absent a (within inside) negated η fun name found =>
        agree name ((bound name).mpr found)

end Repeats

section Subsumed

variable {σ : Substitution}

theorem Subsumes.outside_of_needed (subsumes : r.Subsumes i j a b σ) (needed : name ∈ r.neededNames) :
    r.occursOutside j name = true := by
  rw [occursOutside_iff]
  rcases mem_neededNames.mp needed with head | ⟨c, inside, called, mentioned⟩ | invented
  · exact .inl head
  · rcases subsumes.kept_or inside with rest | rfl
    · exact .inr (.inl ⟨c, rest, mentioned⟩)
    · rw [Atom.builtin?_of_isPositive subsumes.positiveRight] at called
      cases called
  · exact .inr (.inr invented)

theorem Subsumes.neededNames_eraseIdx (subsumes : r.Subsumes i j a b σ) :
    name ∈ ({ r with body := r.body.eraseIdx j } : Rule).neededNames ↔ name ∈ r.neededNames := by
  rw [mem_neededNames, mem_neededNames]
  refine or_congr_right (or_congr_left ⟨?_, ?_⟩)
  · rintro ⟨c, inside, called⟩
    exact ⟨c, List.mem_of_mem_eraseIdx inside, called⟩
  · rintro ⟨c, inside, called, mentioned⟩
    rcases subsumes.kept_or inside with rest | rfl
    · exact ⟨c, rest, called, mentioned⟩
    · rw [Atom.builtin?_of_isPositive subsumes.positiveRight] at called
      cases called

theorem Subsumes.boundNames_eraseIdx (subsumes : r.Subsumes i j a b σ) (differ : i ≠ j)
    (outside : r.occursOutside j name = true) :
    name ∈ ({ r with body := r.body.eraseIdx j } : Rule).boundNames ↔ name ∈ r.boundNames := by
  rw [mem_boundNames, mem_boundNames]
  exact ⟨Binds.mono fun c inside _ => List.mem_of_mem_eraseIdx inside,
    subsumes.binds_eraseIdx differ outside⟩

theorem tuple_outside (inside : a ∈ r.head ∨ a ∈ r.body.eraseIdx j)
    (agree : ∀ name, r.occursOutside j name = true → θ name = η name) :
    a.tuple I θ = a.tuple I η :=
  Atom.tuple_congr fun name mentioned => agree name (occursOutside_iff.mpr
    (inside.imp (fun head => ⟨a, head, mentioned⟩) fun rest => .inl ⟨a, rest, mentioned⟩))

theorem term_outside {invention : Invention} (member : invention ∈ r.inventions)
    (agree : ∀ name, r.occursOutside j name = true → θ name = η name) :
    invention.term.denote I θ = invention.term.denote I η :=
  Term.denote_congr fun v within => agree v.name
    (occursOutside_iff.mpr (.inr (.inr ⟨invention, member, v, within, rfl⟩)))

theorem absent_outside {names names' : List String} (inside : a ∈ r.body.eraseIdx j)
    (agree : ∀ name, r.occursOutside j name = true → θ name = η name)
    (within : ∀ name, r.occursOutside j name = true → name ∈ names → name ∈ names')
    (absent : ∀ κ : Valuation D, (∀ name ∈ names, κ name = θ name) → ¬ a.Holds I db κ none) :
    ∀ κ : Valuation D, (∀ name ∈ names', κ name = η name) → ¬ a.Holds I db κ none := by
  intro κ same held
  refine absent (fun name => if r.occursOutside j name then κ name else θ name) ?_ ?_
  · intro name member
    split
    · rename_i outside
      rw [same name (within name outside member), agree name outside]
    · rfl
  · refine (holds_of_tuple rfl rfl (tuple_outside (.inr inside) fun name outside => ?_)).mpr held
    rw [if_pos outside]

theorem Subsumes.satisfies_of_eraseIdx (literal : I.ReadsLiterals) (join : r.IsJoin)
    (subsumes : r.Subsumes i j a b σ) (differ : i ≠ j)
    (satisfied : ({ r with body := r.body.eraseIdx j } : Rule).Satisfies I db k θ) :
    r.Satisfies I db k (σ.value I θ) := by
  have narrow : ({ r with body := r.body.eraseIdx j } : Rule).IsJoin :=
    join.narrow fun c => List.mem_of_mem_eraseIdx
  have agrees := (Atom.homomorphism?_sound subsumes.folds).2
  have value (name : String) (outside : r.occursOutside j name = true) : σ.value I θ name = θ name :=
    subsumes.value_eq outside
  refine join.satisfies ?_ ?_ ?_
  · intro invention member need free
    have outside := subsumes.outside_of_needed need
    rw [value _ outside, term_outside member value]
    exact satisfied.invents invention member (subsumes.neededNames_eraseIdx.mpr need)
      fun found => free ((subsumes.boundNames_eraseIdx differ outside).mp found)
  · intro c inside plain
    rcases subsumes.kept_or inside with rest | rfl
    · rw [holds_of_tuple rfl rfl (tuple_outside (.inr rest) value)]
      exact narrow.joined satisfied rest plain
    · -- The subsumed atom has the tuple of the one that it folds onto.
      have tuple : c.tuple I (σ.value I θ) = a.tuple I θ := by
        rw [← Atom.tuple_substitute, agrees.tuple_eq literal]
      have predicate : c.predicate = a.predicate := agrees.predicate
      have kind : c.kind = a.kind := agrees.kind
      rw [holds_of_tuple predicate kind tuple]
      exact narrow.joined satisfied (subsumes.mem_eraseIdx differ)
        (Atom.negated_of_isPositive subsumes.positive)
  · intro c inside negated
    rcases subsumes.kept_or inside with rest | rfl
    · exact absent_outside rest (fun name outside => (value name outside).symm)
        (fun name outside => (subsumes.boundNames_eraseIdx differ outside).mp)
        (satisfied.absent c rest negated)
    · cases (Atom.negated_of_isPositive subsumes.positiveRight).symm.trans negated

theorem Subsumes.satisfies_eraseIdx (join : r.IsJoin) (subsumes : r.Subsumes i j a b σ) (differ : i ≠ j)
    (satisfied : r.Satisfies I db k θ) :
    ({ r with body := r.body.eraseIdx j } : Rule).Satisfies I db k θ := by
  have within : r.body.eraseIdx j ⊆ r.body := fun c => List.mem_of_mem_eraseIdx
  refine (join.narrow within).satisfies ?_ ?_ ?_
  · intro invention member need free
    have need := subsumes.neededNames_eraseIdx.mp need
    exact satisfied.invents invention member need fun found =>
      free ((subsumes.boundNames_eraseIdx differ (subsumes.outside_of_needed need)).mpr found)
  · exact fun c inside plain => join.joined satisfied (within inside) plain
  · exact fun c inside negated => absent_outside inside (fun _ _ => rfl)
      (fun name outside => (subsumes.boundNames_eraseIdx differ outside).mpr)
      (satisfied.absent c (within inside) negated)

theorem Subsumes.answers_eraseIdx (literal : I.ReadsLiterals)
    (join : r.IsJoin) (subsumes : r.Subsumes i j a b σ) (differ : i ≠ j) :
    ({ r with body := r.body.eraseIdx j } : Rule).answers I db k = r.answers I db k := by
  ext tuples
  constructor
  · rintro ⟨θ, satisfied, rfl⟩
    have heads (head : Atom) (inside : head ∈ r.head) : head.tuple I θ = head.tuple I (σ.value I θ) :=
      tuple_outside (.inl inside) fun name outside => (subsumes.value_eq outside).symm
    exact ⟨σ.value I θ, subsumes.satisfies_of_eraseIdx literal join differ satisfied,
      List.map_congr_left heads⟩
  · rintro ⟨θ, satisfied, rfl⟩
    exact ⟨θ, subsumes.satisfies_eraseIdx join differ satisfied, rfl⟩

end Subsumed

section Criterion

def Distinct (body : List Atom) : Prop := body.Pairwise fun a b => a.same b = false

theorem Distinct.same_eq (distinct : Distinct body) (first : body[i]? = some a)
    (second : body[j]? = some b) (differ : i ≠ j) : a.same b = false := by
  obtain ⟨left, rfl⟩ := List.getElem?_eq_some_iff.mp first
  obtain ⟨right, rfl⟩ := List.getElem?_eq_some_iff.mp second
  have apart := List.pairwise_iff_getElem.mp distinct
  rcases Nat.lt_or_gt_of_ne differ with before | after
  · exact apart i j left right before
  · exact same_comm.trans (apart j i right left after)

theorem dropRepeats_perm (body : List Atom) :
    ((dropRepeats body).1 ++ (dropRepeats body).2).Perm body := by
  induction body using List.reverseRecOn with
  | nil => exact .refl _
  | append_singleton body a ih =>
    rw [dropRepeats_concat]
    split
    · rw [← List.append_assoc]
      exact ih.append_right _
    · calc (dropRepeats body).1 ++ [a] ++ (dropRepeats body).2
        _ = (dropRepeats body).1 ++ ([a] ++ (dropRepeats body).2) := List.append_assoc ..
        List.Perm _ ((dropRepeats body).1 ++ ((dropRepeats body).2 ++ [a])) :=
          List.perm_append_comm.append_left _
        _ = (dropRepeats body).1 ++ (dropRepeats body).2 ++ [a] := (List.append_assoc ..).symm
        List.Perm _ (body ++ [a]) := ih.append_right _

theorem dropRepeats_distinct (body : List Atom) : Distinct (dropRepeats body).1 := by
  induction body using List.reverseRecOn with
  | nil => exact .nil
  | append_singleton body a ih =>
    rw [dropRepeats_concat]
    split
    · exact ih
    · rename_i fresh
      rw [List.any_eq_true, not_exists] at fresh
      refine List.pairwise_append.mpr ⟨ih, List.pairwise_singleton _ _, fun b inside c single => ?_⟩
      rw [List.mem_singleton.mp single]
      exact Bool.eq_false_of_not_eq_true fun same => fresh b ⟨inside, same⟩

theorem dropRepeats_of_distinct (distinct : Distinct body) : dropRepeats body = (body, []) := by
  induction body using List.reverseRecOn with
  | nil => rfl
  | append_singleton body a ih =>
    obtain ⟨before, -, apart⟩ := List.pairwise_append.mp distinct
    have fresh : body.any (·.same a) = false := by
      rw [List.any_eq_false]
      intro b inside
      rw [apart b inside a (List.mem_singleton_self a)]
      exact Bool.false_ne_true
    rw [dropRepeats_concat, ih before, fresh]
    rfl

theorem mem_positionPairs {n : Nat} : (i, j) ∈ positionPairs n ↔ i < n ∧ j < n := by
  simp [positionPairs]

theorem firstSubsumed_none (none : r.firstSubsumed? isProvenance = none) (differ : i ≠ j) :
    r.subsumes isProvenance i j = false := by
  by_contra subsumed
  rw [Bool.not_eq_false] at subsumed
  obtain ⟨a, b, σ, subsumes⟩ := subsumes_parts subsumed
  have pair := mem_positionPairs.mpr ⟨(List.getElem?_eq_some_iff.mp subsumes.left).1,
    (List.getElem?_eq_some_iff.mp subsumes.right).1⟩
  have rejected := List.find?_eq_none.mp (Option.map_eq_none_iff.mp none) _ pair
  exact rejected (Bool.and_eq_true_iff.mpr ⟨decide_eq_true differ, subsumed⟩)

-- What is left of a rule, with the atoms set aside from its body.
structure Reduces (r : Rule) (m : Rule × List Atom) : Prop where
  unchanged : ({ m.1 with body := r.body } : Rule) = r
  permuted : (m.1.body ++ m.2).Perm r.body
  distinct : Distinct m.1.body

theorem reduces_dropRepeats (r : Rule) :
    r.Reduces ({ r with body := (dropRepeats r.body).1 }, (dropRepeats r.body).2) where
  unchanged := rfl
  permuted := dropRepeats_perm r.body
  distinct := dropRepeats_distinct r.body

theorem Reduces.eraseIdx {s : Rule} (reduces : r.Reduces (s, dropped)) (found : s.body[j]? = some b) :
    r.Reduces ({ s with body := s.body.eraseIdx j }, dropped ++ [b]) where
  unchanged := reduces.unchanged
  permuted := by
    obtain ⟨bound, rfl⟩ := List.getElem?_eq_some_iff.mp found
    refine .trans ?_ reduces.permuted
    calc s.body.eraseIdx j ++ (dropped ++ [s.body[j]])
      List.Perm _ (s.body[j] :: (s.body.eraseIdx j ++ dropped)) := by
        rw [← List.append_assoc]
        exact List.perm_append_singleton _ _
      List.Perm _ (s.body ++ dropped) := (List.getElem_cons_eraseIdx_perm bound).append_right dropped
  distinct := reduces.distinct.sublist (List.eraseIdx_sublist ..)

theorem Reduces.dropSubsumed {s : Rule} (reduces : r.Reduces (s, dropped)) (rounds : Nat) :
    r.Reduces (dropSubsumed isProvenance rounds s dropped) := by
  induction rounds generalizing s dropped with
  | zero => exact reduces
  | succ rounds ih =>
    unfold Rule.dropSubsumed
    split
    · exact reduces
    · rename_i j found
      obtain ⟨i, -, a, b, σ, subsumes⟩ := firstSubsumed_some found
      rw [subsumes.right]
      exact ih (reduces.eraseIdx subsumes.right)

theorem answers_dropSubsumed (literal : I.ReadsLiterals)
    (join : r.IsJoin) (rounds : Nat) :
    (dropSubsumed isProvenance rounds r dropped).1.answers I db k = r.answers I db k := by
  induction rounds generalizing r dropped with
  | zero => rfl
  | succ rounds ih =>
    unfold dropSubsumed
    split
    · rfl
    · rename_i j found
      obtain ⟨i, differ, a, b, σ, subsumes⟩ := firstSubsumed_some found
      rw [ih (join.narrow fun c => List.mem_of_mem_eraseIdx),
        subsumes.answers_eraseIdx literal join differ]

theorem dropSubsumed_done {rounds : Nat} (enough : r.body.length ≤ rounds) :
    (dropSubsumed isProvenance rounds r dropped).1.firstSubsumed? isProvenance = none := by
  induction rounds generalizing r dropped with
  | zero =>
    rw [dropSubsumed, firstSubsumed?, Nat.le_zero.mp enough]
    rfl
  | succ rounds ih =>
    unfold dropSubsumed
    split
    · assumption
    · rename_i j found
      obtain ⟨i, -, a, b, σ, subsumes⟩ := firstSubsumed_some found
      have bound := (List.getElem?_eq_some_iff.mp subsumes.right).1
      refine ih ?_
      rw [List.length_eraseIdx_of_lt bound]
      omega

theorem minimize_reduces (r : Rule) (isProvenance : String → Bool) :
    r.Reduces (r.minimize isProvenance) := (reduces_dropRepeats r).dropSubsumed _

theorem minimize_done (r : Rule) (isProvenance : String → Bool) :
    (r.minimize isProvenance).1.firstSubsumed? isProvenance = none := dropSubsumed_done (Nat.le_refl _)

theorem minimize_of_done (distinct : Distinct r.body) (done : r.firstSubsumed? isProvenance = none) :
    r.minimize isProvenance = (r, []) := by
  rw [minimize, dropRepeats_of_distinct distinct]
  show dropSubsumed isProvenance r.body.length r [] = (r, [])
  cases r.body.length with
  | zero => rfl
  | succ rounds => rw [dropSubsumed, done]

theorem answers_minimize (literal : I.ReadsLiterals)
    (join : r.IsJoin) : (r.minimize isProvenance).1.answers I db k = r.answers I db k := by
  refine (answers_dropSubsumed literal (join.narrow (dropRepeats_keeps r.body).1) _).trans ?_
  exact answers_dropRepeats join

-- Minimization keeps what a rule derives, moves atoms aside and no more, and has nothing left to do.
theorem minimize_exact (literal : I.ReadsLiterals)
    (join : r.IsJoin) (isProvenance : String → Bool) :
    (∀ (db : Tables D) (k : Int),
      (r.minimize isProvenance).1.answers I db k = r.answers I db k) ∧
    ({ (r.minimize isProvenance).1 with body := r.body } : Rule) = r ∧
    ((r.minimize isProvenance).1.body ++ (r.minimize isProvenance).2).Perm r.body ∧
    (∀ (i j : Nat) (a b : Atom), (r.minimize isProvenance).1.body[i]? = some a →
      (r.minimize isProvenance).1.body[j]? = some b → i ≠ j →
        a.same b = false ∧ (r.minimize isProvenance).1.subsumes isProvenance i j = false) ∧
    (r.minimize isProvenance).1.minimize isProvenance = ((r.minimize isProvenance).1, []) := by
  have reduces := minimize_reduces r isProvenance
  have done := minimize_done r isProvenance
  refine ⟨fun db k => answers_minimize literal join, reduces.unchanged, reduces.permuted, ?_,
    minimize_of_done reduces.distinct done⟩
  intro i j a b first second differ
  exact ⟨reduces.distinct.same_eq first second differ, firstSubsumed_none done differ⟩

-- An atom that repeats, one that another subsumes, one that keeps out what its own name stands for,
-- and an invented value.
def repeating : Rule :=
  { Rule.ofHead "t" (.ofRelation "T" [.var "x", .variable ⟨"n", true, some 0⟩])
      [.ofRelation "R" [.var "x"], .ofRelation "R" [.var "x"],
        .ofRelation "P" [.var "x", .lit (.integer 1)], .ofRelation "P" [.var "x", .var "w"],
        (Atom.ofRelation "Q" [.var "x", .var "z"]).negate] with
    inventions := [⟨"n", "t_n", [.var "x"]⟩] }

theorem minimize_exact_repeating :
    Synthesis.erasedTerms.ReadsLiterals ∧ repeating.IsJoin ∧
    (repeating.minimize (· == "P")).2 =
      [.ofRelation "R" [.var "x"], .ofRelation "P" [.var "x", .var "w"]] ∧
    (∀ (db : Tables Term) (k : Int),
      (repeating.minimize (· == "P")).1.answers Synthesis.erasedTerms db k =
        repeating.answers Synthesis.erasedTerms db k) ∧
    ((repeating.minimize (· == "P")).1.body ++ (repeating.minimize (· == "P")).2).Perm
      repeating.body := by
  have literal : Synthesis.erasedTerms.ReadsLiterals := fun _ _ _ => rfl
  have join : repeating.IsJoin := ⟨by decide, rfl⟩
  obtain ⟨answers, -, permuted, -⟩ := minimize_exact literal join (· == "P")
  exact ⟨literal, join, by decide +kernel, answers, permuted⟩

end Criterion

end Rule

namespace RowSemantics

open Sql (Database Row Typed Value)

section Nulls

variable {I : Interpretation Value.Weight} {θ : Valuation Value.Weight} {ctx : Lowering.Context}
  {db : Database} {parameter : Int} {a : Atom} {relation : Relation} {row : Row} {rows : List Row}
  {σ : Assignment} {typeOf : String → ColumnType} {names : List String}

def storedFacts (c : Catalog) (db : Database) : Facts Value.Weight := fun name =>
  {t | ∃ r row, c.relations.get? name = some r ∧ row ∈ db.rows (r.tableName .base) ∧
    t = r.columns.map fun column => (cell db (r.tableName .base) row column.name).value.weight}

theorem tuple_iff (found : Lowering.relationOf ctx a = .ok relation) :
    a.tuple I θ = (relation.columns.map fun column =>
        (cell db (relation.tableName a.kind) row column.name).value.weight) ↔
      ∀ p ∈ cells ctx.catalog db a row, p.2.denote I θ = p.1.value.weight := by
  obtain ⟨known, arity⟩ := Lowering.relationOf_ok found
  have terms : (a.args.zip relation.columns).map Prod.fst = a.args :=
    List.map_fst_zip (Nat.le_of_eq arity)
  have columns : (a.args.zip relation.columns).map Prod.snd = relation.columns :=
    List.map_snd_zip (Nat.le_of_eq arity.symm)
  have tuple : a.tuple I θ = (a.args.zip relation.columns).map fun place => place.1.denote I θ :=
    (congrArg (List.map (Term.denote I θ)) terms.symm).trans List.map_map
  have contents (f : Column → Value.Weight) :
      relation.columns.map f = (a.args.zip relation.columns).map fun place => f place.2 :=
    (congrArg (List.map f) columns.symm).trans List.map_map
  have shown : cells ctx.catalog db a row = (a.args.zip relation.columns).map fun place =>
      (cell db (relation.tableName a.kind) row place.2.name, place.1) := by
    rw [cells, places, known, List.map_map]
    rfl
  rw [shown, List.forall_mem_map, tuple, contents]
  exact List.map_inj_left

def Weighs (σ : Assignment) (θ : Valuation Value.Weight) (names : List String) : Prop :=
  ∀ x ∈ names, (σ x).value.weight = θ x

variable (literal : ∀ own value, I.constant own value = (Meaning.ofLiteral own value).value.value.weight)
include literal

theorem weight_value (weighs : Weighs σ θ names) {t : Term} (plain : t.isPlain = true)
    (named : ∀ x, name? t = some x → x ∈ names) : (σ.value t).value.weight = t.denote I θ := by
  cases t with
  | «variable» v => exact weighs v.name (named v.name (if_pos plain))
  | constant own value => exact (literal own value).symm
  | skolem function args => cases plain

theorem same_iff_denote (weighs : Weighs σ θ names) {p : Typed × Term} (plain : p.2.isPlain = true)
    (named : ∀ x, name? p.2 = some x → x ∈ names) :
    (σ.value p.2).value.same p.1.value = true ↔ p.2.denote I θ = p.1.value.weight := by
  rw [Value.same_iff, weight_value literal weighs plain named]

omit literal in
theorem forall_joinedCells {body : List Atom} {P : Typed × Term → Prop} :
    (∀ c ∈ joinedCells ctx db body rows, P c) ↔
      ∀ p ∈ (positives 0 body).zip rows, ∀ c ∈ cells ctx.catalog db p.1.2 p.2, P c := by
  rw [joinedCells, List.forall_mem_map, joinedPlaces, ← List.map_uncurry_zip_eq_zipWith]
  simp only [List.forall_mem_flatten, List.forall_mem_map, cells]
  rfl

omit literal in
theorem positives_joined {body : List Atom} (joins : ∀ a ∈ body, a.isPositive = true) (position : Nat) :
    (positives position body).map Prod.snd = body := by
  induction body generalizing position with
  | nil => rfl
  | cons a rest ih =>
    obtain ⟨here, later⟩ := List.forall_mem_cons.mp joins
    rw [positives, if_pos here, List.map_cons, ih later]

section Rules

variable {r : Rule} (regular : Regular ctx db typeOf r.body)
  (joins : ∀ a ∈ r.body, a.isPositive = true ∧ a.kind = .base)
include regular joins

omit literal in
theorem plain_cells {p : Nat × Atom} (listed : p ∈ positives 0 r.body) (row : Row) :
    ∀ c ∈ cells ctx.catalog db p.2 row, c.2.isPlain = true ∧
      ∀ x, name? c.2 = some x → x ∈ joinedNames r.body := by
  have placed : p.2 ∈ r.body := (Lowering.positives_mem listed).1
  obtain ⟨relation, found⟩ := regular.arities p.2 placed (joins p.2 placed).1
  refine List.forall_mem_map.mpr fun place inside => ⟨?_, fun x own => ?_⟩
  · exact places_plain (regular.plain p.2 placed) place inside
  · have arg : place.2 ∈ p.2.args := by
      rw [← @Lowering.places_terms _ db _ _ row found]
      exact List.mem_map_of_mem inside
    exact List.mem_flatMap.mpr ⟨p, listed, List.mem_filterMap.mpr ⟨place.2, arg, own⟩⟩

omit literal in
theorem accepted_iff_row {p : Nat × Atom} (listed : p ∈ positives 0 r.body) :
    p.2.Accepted I (storedFacts ctx.catalog db) θ ↔ ∃ row ∈ db.rows (tableOf ctx.catalog p.2),
      ∀ c ∈ cells ctx.catalog db p.2 row, c.2.denote I θ = c.1.value.weight := by
  have placed : p.2 ∈ r.body := (Lowering.positives_mem listed).1
  obtain ⟨joined, base⟩ := joins p.2 placed
  obtain ⟨relation, found⟩ := regular.arities p.2 placed joined
  obtain ⟨known, -⟩ := Lowering.relationOf_ok found
  obtain ⟨name, reads⟩ := Option.isSome_iff_exists.mp (Bool.and_eq_true_iff.mp joined).2
  have table : tableOf ctx.catalog p.2 = relation.tableName .base := by
    rw [tableOf, known, base]
    rfl
  rw [Atom.accepted_relation (fun _ => ⟨Atom.negated_of_isPositive joined, base⟩) reads, table]
  rw [Atom.relationName_of_relation reads] at known
  constructor
  · rintro ⟨_, row, has, inside, same⟩
    cases known.symm.trans has
    exact ⟨row, inside, (tuple_iff found).mp (base ▸ same)⟩
  · rintro ⟨row, inside, same⟩
    exact ⟨relation, row, known, inside, base ▸ (tuple_iff found).mpr same⟩

omit literal regular in
theorem steps_joined : steps r.body = [] := by
  have none : builtins r.body = [] := List.filter_eq_nil_iff.mpr fun a inside => by
    simp [Atom.builtin?_of_isPositive (joins a inside).1]
  rw [steps, none]
  rfl

theorem fires_of_satisfied (plainly : r.inventions = [])
    (holds : Satisfies ctx db parameter none r.body rows σ) (weighs : Weighs σ θ (joinedNames r.body)) :
    r.Fires I (storedFacts ctx.catalog db) θ ∧
      ∀ x, 2 ≤ (joinedNames r.body).count x → θ x ≠ Value.null.weight := by
  refine ⟨⟨by simp [Rule.Defines, plainly], fun a inside => ?_⟩, fun x twice null => ?_⟩
  · have each : List.Forall₂ (fun p row => row ∈ db.rows (tableOf ctx.catalog p.2) ∧
        ∀ c ∈ cells ctx.catalog db p.2 row, c.2.denote I θ = c.1.value.weight)
        (positives 0 r.body) rows := by
      refine List.forall₂_iff_zip.mpr ⟨holds.chosen.length_eq, fun {p row} zipped => ⟨?_, fun c member => ?_⟩⟩
      · exact ((List.forall₂_iff_zip.mp holds.chosen).2 zipped).1
      · obtain ⟨plain, named⟩ := plain_cells regular joins (List.of_mem_zip zipped).1 row c member
        exact (same_iff_denote literal weighs plain named).mp
          (forall_joinedCells.mp holds.joined _ zipped c member)
    rw [← positives_joined (fun a inside => (joins a inside).1) 0] at inside
    obtain ⟨p, listed, rfl⟩ := List.mem_map.mp inside
    obtain ⟨row, -, stored⟩ := Compiled.forall₂_result each listed
    exact (accepted_iff_row regular joins listed).mpr ⟨row, stored⟩
  · have inside : x ∈ joinedNames r.body := List.count_pos_iff.mp (by omega)
    rw [← joinedPlaces_names regular holds.chosen] at twice
    refine holds.repeated x ?_ (Value.weight_eq_null.mp ((weighs x inside).trans null))
    rw [joinedCells, List.filterMap_map]
    exact twice

theorem satisfied_of_fires (fires : r.Fires I (storedFacts ctx.catalog db) θ)
    (nonnull : ∀ x, 2 ≤ (joinedNames r.body).count x → θ x ≠ Value.null.weight) :
    ∃ rows σ, Satisfies ctx db parameter none r.body rows σ ∧ Weighs σ θ (joinedNames r.body) := by
  have rowOf (p : Nat × Atom) : ∃ row, p ∈ positives 0 r.body →
      row ∈ db.rows (tableOf ctx.catalog p.2) ∧
        ∀ c ∈ cells ctx.catalog db p.2 row, c.2.denote I θ = c.1.value.weight := by
    by_cases listed : p ∈ positives 0 r.body
    · obtain ⟨row, stored⟩ := (accepted_iff_row regular joins listed).mp
        (fires.accepted p.2 (Lowering.positives_mem listed).1)
      exact ⟨row, fun _ => stored⟩
    · exact ⟨[], fun inside => absurd inside listed⟩
  choose row stored using rowOf
  let rows := (positives 0 r.body).map row
  have chosen : List.Forall₂ (Chosen ctx db parameter none) (positives 0 r.body) rows :=
    List.forall₂_map_right_iff.mpr (List.forall₂_same.mpr fun p listed => ⟨(stored p listed).1, nofun⟩)
  have held : ∀ c ∈ joinedCells ctx db r.body rows, c.2.isPlain = true ∧
      (∀ x, name? c.2 = some x → x ∈ joinedNames r.body) ∧ c.2.denote I θ = c.1.value.weight := by
    have own : List.Forall₂ (fun p own => p ∈ positives 0 r.body ∧ own = row p) (positives 0 r.body) rows :=
      List.forall₂_map_right_iff.mpr (List.forall₂_same.mpr fun p listed => ⟨listed, rfl⟩)
    refine forall_joinedCells.mpr fun p zipped c member => ?_
    obtain ⟨listed, same⟩ := (List.forall₂_iff_zip.mp own).2 zipped
    obtain ⟨plain, named⟩ := plain_cells regular joins listed _ c member
    exact ⟨plain, named, (stored p.1 listed).2 c (same ▸ member)⟩
  have names : ((joinedCells ctx db r.body rows).filterMap fun c => name? c.2) = joinedNames r.body := by
    rw [joinedCells, List.filterMap_map]
    exact joinedPlaces_names regular chosen
  let σ : Assignment := fun x => (first? x (joinedCells ctx db r.body rows)).getD ⟨.null, none⟩
  have weighs : Weighs σ θ (joinedNames r.body) := by
    intro x inside
    obtain ⟨m, first⟩ := Option.isSome_iff_exists.mp (first?_isSome.mpr (names.symm ▸ inside))
    obtain ⟨c, found, rfl⟩ := Option.map_eq_some_iff.mp first
    have called : name? c.2 = some x := of_decide_eq_true (List.find?_some found :)
    obtain ⟨v, shape, rfl, -⟩ := name?_eq called
    obtain ⟨-, -, weight⟩ := held c (List.mem_of_find?_eq_some found)
    rw [shape] at weight
    simp only [σ, first, Option.getD_some]
    exact weight.symm
  refine ⟨rows, σ, ⟨chosen, fun x m first => ?_, fun c member => ?_, fun x twice null => ?_, ?_, ?_⟩, weighs⟩
  · simp only [σ, first, Option.getD_some]
  · obtain ⟨plain, named, weight⟩ := held c member
    exact (same_iff_denote literal weighs plain named).mpr weight
  · rw [names] at twice
    have inside : x ∈ joinedNames r.body := List.count_pos_iff.mp (by omega)
    exact nonnull x twice ((weighs x inside).symm.trans (congrArg Value.weight null))
  · rw [steps_joined joins]
    exact List.forall_mem_nil _
  · intro a inside negated
    cases negated.symm.trans (Atom.negated_of_isPositive (joins a inside).1)

theorem satisfied_iff_fires (plainly : r.inventions = []) :
    (∃ rows σ, Satisfies ctx db parameter none r.body rows σ ∧ Weighs σ θ (joinedNames r.body)) ↔
      r.Fires I (storedFacts ctx.catalog db) θ ∧
        ∀ x, 2 ≤ (joinedNames r.body).count x → θ x ≠ Value.null.weight := by
  constructor
  · rintro ⟨rows, σ, holds, weighs⟩
    exact fires_of_satisfied literal regular joins plainly holds weighs
  · rintro ⟨fires, nonnull⟩
    exact satisfied_of_fires literal regular joins fires nonnull

theorem satisfied_iff_fires_of_nonnull (plainly : r.inventions = [])
    (nonnull : ∀ a ∈ r.body, ∀ row ∈ db.rows (tableOf ctx.catalog a), ∀ c ∈ cells ctx.catalog db a row,
      ∀ x, name? c.2 = some x → 2 ≤ (joinedNames r.body).count x → c.1.value ≠ .null) :
    (∃ rows σ, Satisfies ctx db parameter none r.body rows σ ∧ Weighs σ θ (joinedNames r.body)) ↔
      r.Fires I (storedFacts ctx.catalog db) θ := by
  rw [satisfied_iff_fires literal regular joins plainly]
  refine and_iff_left_of_imp fun fires x twice null => ?_
  have inside : x ∈ joinedNames r.body := List.count_pos_iff.mp (by omega)
  obtain ⟨p, listed, named⟩ := List.mem_flatMap.mp inside
  obtain ⟨t, arg, called⟩ := List.mem_filterMap.mp named
  have placed : p.2 ∈ r.body := (Lowering.positives_mem listed).1
  obtain ⟨row, stored, holds⟩ :=
    (accepted_iff_row regular joins listed).mp (fires.accepted p.2 placed)
  obtain ⟨relation, found⟩ := regular.arities p.2 placed (joins p.2 placed).1
  rw [← @Lowering.places_terms _ db _ _ row found] at arg
  obtain ⟨place, member, rfl⟩ := List.mem_map.mp arg
  have here : (place.1.value, place.2) ∈ cells ctx.catalog db p.2 row := List.mem_map_of_mem member
  obtain ⟨v, shape, rfl, -⟩ := name?_eq called
  have weight := holds _ here
  rw [show (place.1.value, place.2).2 = .variable v from shape] at weight
  exact nonnull p.2 placed row stored _ here v.name called twice
    (Value.weight_eq_null.mp (weight.symm.trans null))

end Rules

end Nulls

end RowSemantics

end PeerExchange
