import PeerExchange.Proofs.InventedHeads

namespace PeerExchange

variable {D : Type} {I : Interpretation D} {M : Facts D} {θ η : Valuation D}

-- Invented values are larger than what they are built from.
def Interpretation.IsGrounded (I : Interpretation D) : Prop :=
  ∃ size : D → Nat, ∀ function values, ∀ value ∈ values, size value < size (I.invented function values)

namespace Term

theorem size_le {size : D → Nat}
    (grows : ∀ function values, ∀ value ∈ values, size value < size (I.invented function values))
    {t : Term} {v : Variable} (inside : v ∈ t.vars) : size (θ v.name) ≤ size (t.denote I θ) := by
  induction t using structural with
  | onVariable w =>
    obtain rfl := List.mem_singleton.mp inside
    exact Nat.le_refl _
  | onConstant type value => cases inside
  | onSkolem function args ih =>
    rw [vars, variablesOf_eq_flatMap, List.mem_flatMap] at inside
    obtain ⟨a, arg, met⟩ := inside
    rw [denote, denoteAll_eq_map]
    exact Nat.le_of_lt (Nat.lt_of_le_of_lt (ih a arg met)
      (grows function _ _ (List.mem_map_of_mem arg)))

theorem size_lt {size : D → Nat}
    (grows : ∀ function values, ∀ value ∈ values, size value < size (I.invented function values))
    {function : String} {args : List Term} {v : Variable} (inside : v ∈ (skolem function args).vars) :
    size (θ v.name) < size ((skolem function args).denote I θ) := by
  rw [vars, variablesOf_eq_flatMap, List.mem_flatMap] at inside
  obtain ⟨a, arg, met⟩ := inside
  rw [denote, denoteAll_eq_map]
  exact Nat.lt_of_le_of_lt (size_le grows met) (grows function _ _ (List.mem_map_of_mem arg))

end Term

open Unfolding in
theorem termValues_isGrounded : termValues.IsGrounded := by
  refine ⟨fun t => sizeOf t, fun function values value inside => ?_⟩
  change sizeOf value < sizeOf (Term.skolem function values)
  rw [Term.skolem.sizeOf_spec]
  exact Nat.lt_add_left _ (List.sizeOf_lt_of_mem inside)

namespace Rule

variable {r d u : Rule} {definitions : List Rule} {position : Nat} {target head : Atom}
  {fresh before after : FreshNames} {f : String → String} {name : String}

theorem offers_rename (skolemized : d.IsSkolemized) (headed : d.head = [head])
    (length : head.args.length = target.args.length) (apart : ApartOn f d.allNames before after)
    (later : before.next ≤ after.next) :
    (d.rename f).Offers (head.mapArgs (Term.rename f)) target before after where
  skolemized := skolemized.rename apart
  headed := by simp [Rule.rename, headed]
  length := (List.length_map ..).trans length
  later := later
  unused n inside := by
    obtain ⟨old, listed, rfl⟩ := name_of_rename inside
    exact apart.unused old listed
  used n inside := by
    obtain ⟨old, listed, rfl⟩ := name_of_rename inside
    exact apart.used old listed

theorem opposite_rename (skolemized : d.IsSkolemized) (headed : d.head = [head])
    (apart : ApartOn f d.allNames before after) :
    (d.rename f).opposite (head.mapArgs (Term.rename f)) target =
      ((head.substitute d.inventionTerms).args.map (Term.rename f)).zip target.args := by
  rw [opposite, inlined_rename skolemized headed apart]
  rfl

-- No head that defines the relation of the atom has a variable of the atom opposite a Skolem term and,
-- elsewhere, opposite a variable or inside a Skolem term.
def Untangled (target : Atom) (d : Rule) : Prop :=
  ∀ head ∈ d.head, head.relation? = target.relation? → HeadFit.Untangled (d.opposite head target)

instance (target : Atom) (d : Rule) : Decidable (d.Untangled target) :=
  inferInstanceAs (Decidable (∀ head ∈ d.head, _ → _))

section Grounded

variable {size : D → Nat} {i : Invention} (skolemized : d.IsSkolemized) (headed : d.head = [head])
  (grows : ∀ function values, ∀ value ∈ values, size value < size (I.invented function values))
  (listed : i ∈ d.inventions)

include skolemized headed grows listed

theorem size_variable_lt {u : Variable}
    (inside : .variable u ∈ (head.substitute d.inventionTerms).args) :
    size (η u.name) < size (i.term.denote I η) := by
  obtain ⟨w, input, same⟩ := variable_inlined skolemized headed inside listed
  exact same ▸ Term.size_lt grows input

-- The values that a Skolem term has in it are those of the inputs, which are smaller than all that is
-- invented.
theorem size_part_lt (free : I.IsTermFree) {function function' : String} {args args' : List Term}
    (inside : .skolem function args ∈ (head.substitute d.inventionTerms).args)
    (equal : (Term.skolem function args).denote I η = (Term.skolem function' args').denote I θ)
    {v : Variable} (met : v ∈ (Term.skolem function' args').vars) :
    size (θ v.name) < size (i.term.denote I η) := by
  rcases inlined_cases skolemized headed inside with ⟨-, flat⟩ | ⟨j, other, same⟩
  · exact absurd trivial flat
  · obtain ⟨rfl, rfl⟩ := Term.skolem.inj same
    rw [Term.denote, Term.denote, Term.denoteAll_eq_map, Term.denoteAll_eq_map] at equal
    rw [Term.vars, Term.variablesOf_eq_flatMap, List.mem_flatMap] at met
    obtain ⟨a, arg, within⟩ := met
    have input : a.denote I θ ∈ i.args.map (Term.denote I η) := by
      rw [skolemized.shared i listed j other, (free.injective _ _ _ _ equal).2]
      exact List.mem_map_of_mem arg
    refine Nat.lt_of_le_of_lt (Term.size_le grows within) ?_
    rw [Invention.term, Term.denote, Term.denoteAll_eq_map]
    exact grows _ _ _ input

end Grounded

theorem tuple_ne_of_tangled (free : I.IsTermFree) (grounded : I.IsGrounded)
    (skolemized : d.IsSkolemized) (headed : d.head = [head])
    (tangled : ¬ HeadFit.Untangled (d.opposite head target)) (derived : d.Fires I M η) :
    head.tuple I η ≠ target.tuple I θ := by
  intro equal
  obtain ⟨size, grows⟩ := grounded
  rw [← value_of_defines skolemized derived.defines, ← Atom.tuple_substitute] at equal
  have same := Atom.forall₂_of_tuple_eq equal
  unfold HeadFit.Untangled at tangled
  simp only [not_forall] at tangled
  obtain ⟨⟨h, t⟩, member, ⟨v, met, settled⟩, clash⟩ := tangled
  obtain ⟨⟨_, _⟩, placed, skolem, w, rfl, named⟩ := HeadFit.mem_settled.mp settled
  rcases inlined_cases skolemized headed (List.of_mem_zip placed).1 with ⟨-, flat⟩ | ⟨i, listed, rfl⟩
  · exact flat skolem
  -- The variable has an invented value, and stands again in an argument opposite a smaller one.
  have whole : size (i.term.denote I η) = size (θ v.name) := by
    rw [List.forall₂_zip same placed, ← named]
    rfl
  have here : h.denote I η = t.denote I θ := List.forall₂_zip same member
  have left : h ∈ (head.substitute d.inventionTerms).args := (List.of_mem_zip member).1
  cases h with
  | «variable» x =>
    have smaller : size (η x.name) < size (i.term.denote I η) :=
      size_variable_lt skolemized headed grows listed left
    have part : size (θ v.name) ≤ size (η x.name) :=
      (congrArg size here).symm ▸ Term.size_le grows met
    rw [whole] at smaller
    exact Nat.lt_irrefl _ (Nat.lt_of_le_of_lt part smaller)
  | constant type value =>
    cases t with
    | constant type' value' => cases met
    | «variable» u => exact clash ⟨trivial, nofun⟩
    | skolem function args =>
      cases typed_inlined skolemized headed _ left
      exact free.invented _ _ value here.symm
  | skolem function args =>
    cases t with
    | constant type' value' => cases met
    | «variable» u => exact clash ⟨trivial, nofun⟩
    | skolem function' args' =>
      have smaller := size_part_lt skolemized headed grows listed free left here met
      exact Nat.lt_irrefl _ (whole ▸ smaller)

theorem untangled_of_tuple_eq (free : I.IsTermFree) (grounded : I.IsGrounded)
    (skolemized : d.IsSkolemized) (headed : d.head = [head]) (derived : d.Fires I M η)
    (equal : head.tuple I η = target.tuple I θ) : d.Untangled target := by
  intro a member relation
  obtain rfl : a = head := by simpa [headed] using member
  by_contra tangled
  exact tuple_ne_of_tangled free grounded skolemized headed tangled derived equal

section Unfolded

variable (free : I.IsTermFree) (reads : r.Reads position target fresh)
  (named : target.relation? = some name) (defined : ∀ d ∈ definitions, d.IsSkolemized)
  (fits : ∀ d ∈ definitions, ∀ head ∈ d.head, head.relation? = target.relation? →
    head.args.length = target.args.length)

include fits in
theorem isCoveredBy_of_fits : definitions.all (isCoveredBy target) = true := by
  refine List.all_eq_true.mpr fun d listed => List.all_eq_true.mpr fun head inside => ?_
  obtain ⟨member, same⟩ := List.mem_filter.mp inside
  have length : (head.substitute d.inventionTerms).args.length = target.args.length :=
    (List.length_map ..).trans (fits d listed head member (of_decide_eq_true same))
  rw [List.drop_eq_nil_of_le (Nat.le_of_eq length)]
  rfl

include free reads named defined fits

theorem consequences_unfolded_subset (untangled : ∀ d ∈ definitions, d.Untangled target)
    (held : ∀ d ∈ definitions, consequences I [d] M name ⊆ M name) {other : String} :
    consequences I (r.unfoldDefinitions position target definitions fresh).1 M other ⊆
      consequences I [r] M other := by
  intro tuple derived
  obtain ⟨u, made, derived⟩ := mem_consequences.mp derived
  obtain ⟨θ, fires, member⟩ := mem_consequences_derived.mp derived
  obtain ⟨pieces, flat, each⟩ := unfoldDefinitions_parts r position target definitions fresh
  rw [flat] at made
  obtain ⟨piece, inside, made⟩ := List.mem_flatten.mp made
  obtain ⟨d, listed, through⟩ := Compiled.forall₂_source each inside
  obtain ⟨head, headed, -⟩ := (defined d listed).head
  obtain ⟨f, before, after, apart, above, between, -, rfl⟩ := throughDefinition_single headed through
  have head_mem : head ∈ d.head := headed ▸ List.mem_singleton_self head
  split at made
  · rename_i same
    obtain ⟨clear, m, folded, rfl⟩ := unfoldThrough_eq_some.mp (Option.mem_toList.mp made)
    have offers := offers_rename (defined d listed) headed (fits d listed head head_mem same) apart between
    have renamed : HeadFit.Untangled ((d.rename f).opposite (head.mapArgs (Term.rename f)) target) := by
      rw [opposite_rename (defined d listed) headed apart]
      exact (untangled d listed head head_mem same).rename
    rw [derived_substitute] at member
    refine mem_consequences_derived.mpr ⟨_, offers.derives (reads.mono above) clear folded renamed free
      named (fun η fires => ?_) fires, member⟩
    rw [Atom.tuple_rename]
    exact held d listed ⟨d, List.mem_singleton_self d, η ∘ f, fires_rename.mp fires, head, head_mem,
      same.trans named, rfl⟩
  · cases made

theorem subset_consequences_unfolded (held : ∀ θ, target.tuple I θ ∈ M name → ∃ d ∈ definitions,
      ∃ head, d.head = [head] ∧ head.relation? = some name ∧
        ∃ η, d.Fires I M η ∧ head.tuple I η = target.tuple I θ) {other : String} :
    consequences I [r] M other ⊆
      consequences I (r.unfoldDefinitions position target definitions fresh).1 M other := by
  intro tuple derived
  obtain ⟨θ, fires, member⟩ := mem_consequences_derived.mp derived
  have body : target ∈ r.body := List.mem_of_getElem? reads.found
  obtain ⟨d, listed, head, headed, same, η, derived, equal⟩ :=
    held θ ((Atom.accepted_relation reads.base named).mp (fires.accepted target body))
  have head_mem : head ∈ d.head := headed ▸ List.mem_singleton_self head
  obtain ⟨pieces, flat, each⟩ := unfoldDefinitions_parts r position target definitions fresh
  obtain ⟨piece, inside, through⟩ := Compiled.forall₂_result each listed
  obtain ⟨f, before, after, apart, above, between, -, rfl⟩ := throughDefinition_single headed through
  have relation := same.trans named.symm
  rw [if_pos relation] at inside
  have offers := offers_rename (defined d listed) headed (fits d listed head head_mem relation) apart between
  have tables := reads.base.table_eq ((defined d listed).base_head headed) named same
  -- The rule keeps its values, and the definition's new variables get those of the old ones.
  have old := (reads.mono above).names
  have tuples : (head.mapArgs (Term.rename f)).tuple I (carried f d.allNames η θ) =
      target.tuple I (carried f d.allNames η θ) := by
    calc (head.mapArgs (Term.rename f)).tuple I (carried f d.allNames η θ)
      _ = head.tuple I η := tuple_carried_new apart fun n shown => name_of_head head_mem shown
      _ = target.tuple I θ := equal
      _ = target.tuple I (carried f d.allNames η θ) :=
        (tuple_carried_old apart fun n shown => old n (name_of_body body shown)).symm
  obtain ⟨u, made, θ', firesU, sameHeads⟩ := offers.covers (reads.mono above) free tables.1 tables.2
    (fires_carried_old apart old fires) (fires_carried_new apart derived) tuples
  have heads : r.derived I (carried f d.allNames η θ) = r.derived I θ :=
    derived_congr fun n shown => carried_old apart (old n shown)
  refine mem_consequences.mpr ⟨u, ?_, mem_consequences_derived.mpr ⟨θ', firesU, ?_⟩⟩
  · rw [flat]
    exact List.mem_flatten.mpr ⟨_, inside, Option.mem_toList.mpr made⟩
  · rw [sameHeads, heads]
    exact member

end Unfolded

-- Unfolding loses nothing that a rule derives by way of definitions that invent values, and derives just
-- that through those that are not tangled with the atom.
theorem inventive_unfolding_exact (free : I.IsTermFree) (grounded : I.IsGrounded)
    (reads : r.Reads position target fresh) (named : target.relation? = some name)
    (defined : ∀ d ∈ definitions, d.IsSkolemized)
    (fits : ∀ d ∈ definitions, ∀ head ∈ d.head, head.relation? = target.relation? →
      head.args.length = target.args.length) :
    ∃ made kept fresh' fresh'', r.unfoldAt position target definitions fresh = .ok (made, fresh') ∧
      r.unfoldAt position target (definitions.filter fun d => d.Untangled target) fresh =
        .ok (kept, fresh'') ∧
      ∀ M : Facts D, M name = consequences I definitions M name → ∀ other,
        consequences I [r] M other ⊆ consequences I made M other ∧
        consequences I kept M other = consequences I [r] M other := by
  have definedKept : ∀ d ∈ definitions.filter fun d => d.Untangled target, d.IsSkolemized :=
    fun d listed => defined d (List.mem_of_mem_filter listed)
  have fitsKept : ∀ d ∈ definitions.filter fun d => d.Untangled target, ∀ head ∈ d.head,
      head.relation? = target.relation? → head.args.length = target.args.length :=
    fun d listed => fits d (List.mem_of_mem_filter listed)
  refine ⟨_, _, _, _, if_pos (isCoveredBy_of_fits fits), if_pos (isCoveredBy_of_fits fitsKept), ?_⟩
  intro M evaluated other
  have held (θ : Valuation D) (inside : target.tuple I θ ∈ M name) : ∃ d ∈ definitions, ∃ head,
      d.head = [head] ∧ head.relation? = some name ∧
        ∃ η, d.Fires I M η ∧ head.tuple I η = target.tuple I θ := by
    rw [evaluated] at inside
    obtain ⟨d, listed, η, fires, head, member, same, equal⟩ := inside
    obtain ⟨a, headed, -⟩ := (defined d listed).head
    obtain rfl : head = a := by simpa [headed] using member
    exact ⟨d, listed, head, headed, same, η, fires, equal⟩
  have heldKept (θ : Valuation D) (inside : target.tuple I θ ∈ M name) :
      ∃ d ∈ definitions.filter fun d => d.Untangled target, ∃ head, d.head = [head] ∧
        head.relation? = some name ∧ ∃ η, d.Fires I M η ∧ head.tuple I η = target.tuple I θ := by
    obtain ⟨d, listed, head, headed, same, η, fires, equal⟩ := held θ inside
    have untangled := untangled_of_tuple_eq free grounded (defined d listed) headed fires equal
    exact ⟨d, List.mem_filter.mpr ⟨listed, decide_eq_true untangled⟩, head, headed, same, η, fires, equal⟩
  have given (d : Rule) (listed : d ∈ definitions.filter fun d => d.Untangled target) :
      consequences I [d] M name ⊆ M name := by
    rw [evaluated]
    exact fun tuple derived => mem_consequences.mpr ⟨d, List.mem_of_mem_filter listed, derived⟩
  refine ⟨subset_consequences_unfolded free reads named defined fits held, Set.Subset.antisymm ?_ ?_⟩
  · exact consequences_unfolded_subset free reads named definedKept fitsKept
      (fun d listed => of_decide_eq_true (List.mem_filter.mp listed).2) given
  · exact subset_consequences_unfolded free reads named definedKept fitsKept heldKept

section Twice

def twiceAtom : Atom := .ofRelation "V" [.var "x", .var "y", .var "y"]

def twiceReader : Rule := .ofHead "t" (.ofRelation "T" [.var "x", .var "y"]) [twiceAtom]

-- One value invented for two columns, and one for a column next to two that are read.
def twiceDefinitions : List Rule :=
  [(Rule.ofHead "d" (.ofRelation "V" [.var "a", .var "n", .var "n"]) [.ofRelation "R" [.var "a"]]).skolemize,
    (Rule.ofHead "e" (.ofRelation "V" [.var "a", .var "b", .var "n"])
      [.ofRelation "R" [.var "a"], .ofRelation "R" [.var "b"]]).skolemize]

theorem isSkolemized_twiceDefinitions : ∀ d ∈ twiceDefinitions, d.IsSkolemized := by
  refine List.forall_mem_cons.mpr ⟨?_, List.forall_mem_singleton.mpr ?_⟩
  · refine isSkolemized_skolemize rfl rfl (by decide) ?_ (by decide)
    simp [Atom.ofRelation, Term.var, Term.IsSkolem]
  · refine isSkolemized_skolemize rfl rfl (by decide) ?_ (by decide)
    simp [Atom.ofRelation, Term.var, Term.IsSkolem]

open Unfolding in
-- The second definition never has the same value twice, and is left out.
theorem inventive_unfolding_exact_twice : termValues.IsTermFree ∧ termValues.IsGrounded ∧
    twiceReader.Reads 0 twiceAtom {} ∧ twiceAtom.relation? = some "V" ∧
    (∀ d ∈ twiceDefinitions, d.IsSkolemized) ∧
    (∀ d ∈ twiceDefinitions, ∀ head ∈ d.head, head.relation? = twiceAtom.relation? →
      head.args.length = twiceAtom.args.length) ∧
    twiceDefinitions.filter (fun d => d.Untangled twiceAtom) = twiceDefinitions.take 1 ∧
    ∃ made kept fresh' fresh'', twiceReader.unfoldAt 0 twiceAtom twiceDefinitions {} = .ok (made, fresh') ∧
      twiceReader.unfoldAt 0 twiceAtom (twiceDefinitions.take 1) {} = .ok (kept, fresh'') ∧
      ∀ M : Facts Term, M "V" = consequences termValues twiceDefinitions M "V" → ∀ other,
        consequences termValues [twiceReader] M other ⊆ consequences termValues made M other ∧
        consequences termValues kept M other = consequences termValues [twiceReader] M other := by
  have reads : twiceReader.Reads 0 twiceAtom {} := {
    found := rfl
    base := by decide
    typed := by simp [twiceAtom, Atom.ofRelation, Term.var]
    names := fun n inside => FreshNames.used_of_plain
      ((by decide : ∀ n ∈ twiceReader.allNames, '$' ∉ n.toList) n inside)
    kept := by decide }
  have untangled : twiceDefinitions.filter (fun d => d.Untangled twiceAtom) = twiceDefinitions.take 1 := by
    decide
  have fits : ∀ d ∈ twiceDefinitions, ∀ head ∈ d.head, head.relation? = twiceAtom.relation? →
      head.args.length = twiceAtom.args.length := by decide
  refine ⟨termValues_isTermFree, termValues_isGrounded, reads, rfl, isSkolemized_twiceDefinitions, fits,
    untangled, ?_⟩
  rw [← untangled]
  exact inventive_unfolding_exact termValues_isTermFree termValues_isGrounded reads rfl
    isSkolemized_twiceDefinitions fits

end Twice

section Repeated

def repeatedAtom : Atom := .ofRelation "V" [.var "x", .var "x"]

def repeatedReader : Rule := .ofHead "t" (.ofRelation "T" [.var "x"]) [repeatedAtom]

def pairing : Rule :=
  (Rule.ofHead "d" (.ofRelation "V" [.var "a", .var "n"]) [.ofRelation "R" [.var "a"]]).skolemize

def tangledRule : Rule :=
  { Rule.ofHead "t_d" (.ofRelation "T" [.skolem "d_n" [.var "x"]])
      [.ofRelation "R" [.skolem "d_n" [.var "x"]]] with parent := some "t" }

def inventedPair (value : Term) : List Term := [value, .skolem "d_n" [value]]

open Unfolding in
theorem mem_consequences_pairing {M : Facts Term} {tuple : List Term} :
    tuple ∈ consequences termValues [pairing] M "V" ↔ ∃ value, [value] ∈ M "R" ∧ tuple = inventedPair value := by
  rw [mem_consequences_derived]
  constructor
  · rintro ⟨θ, ⟨defines, accepted⟩, derived⟩
    obtain ⟨-, rfl⟩ := Prod.mk.inj (List.mem_singleton.mp derived)
    refine ⟨θ "a", (Atom.accepted_relation (by decide) rfl).mp (accepted _ (List.mem_singleton_self _)), ?_⟩
    exact congrArg (fun value => [θ "a", value]) (defines _ (List.mem_singleton_self _))
  · rintro ⟨value, held, rfl⟩
    refine ⟨fun name => if name = "a" then value else .skolem "d_n" [value], ⟨?_, ?_⟩,
      List.mem_singleton_self _⟩
    · exact List.forall_mem_singleton.mpr rfl
    · exact List.forall_mem_singleton.mpr ((Atom.accepted_relation (by decide) rfl).mpr held)

open Unfolding in
-- No value is paired with itself, but the rule derives what was invented before.
theorem tangled_unfolding_unsound : termValues.IsTermFree ∧ repeatedReader.Reads 0 repeatedAtom {} ∧
    pairing.IsSkolemized ∧ ∃ made fresh, repeatedReader.unfoldAt 0 repeatedAtom [pairing] {} =
      .ok (made, fresh) ∧ ∃ M : Facts Term, M "V" = consequences termValues [pairing] M "V" ∧
        consequences termValues made M "T" ≠ consequences termValues [repeatedReader] M "T" := by
  have skolemized : pairing.IsSkolemized := by
    refine isSkolemized_skolemize rfl rfl (by decide) ?_ (by decide)
    simp [Atom.ofRelation, Term.var, Term.IsSkolem]
  have reads : repeatedReader.Reads 0 repeatedAtom {} := {
    found := rfl
    base := by decide
    typed := by simp [repeatedAtom, Atom.ofRelation, Term.var]
    names := fun n inside => FreshNames.used_of_plain
      ((by decide : ∀ n ∈ repeatedReader.allNames, '$' ∉ n.toList) n inside)
    kept := List.forall_mem_nil _ }
  have made : repeatedReader.unfoldAt 0 repeatedAtom [pairing] {} = .ok ([tangledRule], ⟨3⟩) := rfl
  -- The one value that is read was invented before.
  let invented : Term := .skolem "d_n" [.lit (.integer 7)]
  let M : Facts Term := fun name => if name = "R" then {[invented]} else {inventedPair invented}
  have evaluated : M "V" = consequences termValues [pairing] M "V" := by
    ext tuple
    rw [mem_consequences_pairing]
    constructor
    · rintro rfl
      exact ⟨invented, rfl, rfl⟩
    · rintro ⟨value, held, rfl⟩
      obtain rfl := (List.cons.inj held).1
      rfl
  have derives : [invented] ∈ consequences termValues [tangledRule] M "T" := by
    refine mem_consequences_derived.mpr ⟨fun _ => .lit (.integer 7), ⟨List.forall_mem_nil _, ?_⟩,
      List.mem_singleton_self _⟩
    have held : [invented] ∈ M "R" := rfl
    exact List.forall_mem_singleton.mpr ((Atom.accepted_relation (by decide) rfl).mpr held)
  refine ⟨termValues_isTermFree, reads, skolemized, _, _, made, M, evaluated, fun same => ?_⟩
  rw [same] at derives
  obtain ⟨θ, fires, -⟩ := mem_consequences_derived.mp derives
  have held := (Atom.accepted_relation reads.base rfl).mp (fires.accepted _ (List.mem_singleton_self _))
  rw [evaluated] at held
  obtain ⟨d, listed, η, derived, head, member, -, equal⟩ := held
  obtain rfl := List.mem_singleton.mp listed
  obtain rfl := List.mem_singleton.mp member
  exact tuple_ne_of_tangled termValues_isTermFree termValues_isGrounded skolemized rfl (by decide) derived
    equal

end Repeated

end Rule

end PeerExchange
