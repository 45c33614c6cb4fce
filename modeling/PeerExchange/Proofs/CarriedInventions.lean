import PeerExchange.Proofs.BindingFixpoint
import PeerExchange.Proofs.MinimizedRules
import PeerExchange.Proofs.SafePrograms
import PeerExchange.Proofs.TypedRules

namespace PeerExchange

open Maintenance

namespace Rule

variable {q r m inverse : Rule}

-- A mark is the position of the invention of its variable, and inventions are over variables that the
-- body binds.
structure InventsConsistently (r : Rule) : Prop where
  marks : ∀ a ∈ r.head ++ r.body, ∀ v ∈ a.vars, ∀ k, v.skolem = some k →
    ∃ bound : k < r.inventions.length, r.inventions[k].variableName = v.name
  inputs : ∀ i ∈ r.inventions, ∀ t ∈ i.args, ∃ name ∈ r.boundNames, t = .var name

-- The rules that compilation makes from a mapping: its own and those of its inverse, led through
-- provenance relations, composed and minimized, with the changes that they pass on.
inductive StemsFrom (m : Rule) : Rule → Prop
  | forward {catalog : Catalog} {config : Config} {r : Rule}
      (listed : r ∈ Mapping.toRules catalog config m) : StemsFrom m r
  | backward {catalog : Catalog} {config : Config} {inverse r : Rule}
      (turned : m.inverse? = some inverse) (listed : r ∈ Mapping.toRules catalog config inverse) :
      StemsFrom m r
  | recorded {p : ProvenanceRelation} {catalog : Catalog} {trust : TrustPolicy} {i : Nat} {r : Rule}
      (stems : StemsFrom m r) : StemsFrom m (p.sourceRule catalog trust i r)
  | unfolded {position : Nat} {target : Atom} {definitions : List Rule} {fresh : FreshNames} {q r : Rule}
      (stems : StemsFrom m r)
      (reads : ∀ d ∈ definitions, ∃ (p : ProvenanceRelation) (catalog : Catalog) (target : String),
        p.targetRule catalog target = .ok d)
      (made : q ∈ (r.unfoldDefinitions position target definitions fresh).1) : StemsFrom m q
  | minimized {isProvenance : String → Bool} {r : Rule} (stems : StemsFrom m r) :
      StemsFrom m (r.minimize isProvenance).1
  | marked {stratified : Bool} {r : Rule} (stems : StemsFrom m r) :
      StemsFrom m { r with stratified := stratified }
  | changed {d : Direction} {head a : Atom} {scc : List String} {recursive : Bool} {position : Nat}
      {r : Rule} (stems : StemsFrom m r) :
      StemsFrom m (changeRule d r head scc recursive position a).1
  | rederived {r : Rule} (stems : StemsFrom m r) : StemsFrom m (rederiveRule r)

section Mappings

variable {catalog : Catalog} {config : Config}

theorem isScanned_inverse (made : m.inverse? = some inverse) : inverse.IsScanned := by
  have unmarked (a : Atom) : ∀ t ∈ (plainAtom a).args, t.IsUnmarked :=
    List.forall_mem_map.mpr fun _ _ => ⟨rfl, rfl⟩
  unfold inverse? at made
  split at made
  · split at made
    · cases made
      exact ⟨List.forall_mem_singleton.mpr rfl, List.cons_ne_nil _ _,
        List.forall_mem_cons.mpr ⟨unmarked _, List.forall_mem_singleton.mpr (unmarked _)⟩, rfl⟩
    · cases made
  · cases made

theorem bodyNames_of_inverse {name : String} (made : m.inverse? = some inverse)
    (undefined : name ∈ inverse.undefinedNames) : name ∈ m.bodyNames := by
  obtain ⟨v, inside, rfl⟩ := List.mem_map.mp undefined
  have shown := Variable.mem_of_mem_distinct (List.mem_of_mem_filter inside)
  unfold inverse? at made
  split at made
  · rename_i head source _ body
    split at made
    · rename_i plain
      cases made
      have args := List.all_eq_true.mp (Bool.and_eq_true_iff.mp plain).2
      obtain ⟨_, only, within⟩ := List.mem_flatMap.mp shown
      obtain rfl := List.mem_singleton.mp only
      have named : v.name ∈ (plainAtom source).variableNames := List.mem_map_of_mem within
      rw [bodyNames, body]
      refine List.mem_flatMap.mpr ⟨source, List.mem_singleton_self _, ?_⟩
      exact name_of_plainAtom (fun t arg => args t (List.mem_append_right _ arg)) named
    · cases made
  · cases made

theorem skolemize_marks (unmarked : ∀ a ∈ m.head, ∀ t ∈ a.args, t.IsUnmarked) :
    ∀ a ∈ m.skolemize.head, ∀ v ∈ a.vars, ∀ k, v.skolem = some k →
      ∃ bound : k < m.skolemize.inventions.length, m.skolemize.inventions[k].variableName = v.name := by
  refine skolemize_keeps (P := fun q => ∀ a ∈ q.head, ∀ v ∈ a.vars, ∀ k, v.skolem = some k →
    ∃ bound : k < q.inventions.length, q.inventions[k].variableName = v.name) ?_ ?_
  · intro a inside v within k given
    obtain ⟨t, arg, within⟩ := List.mem_flatMap.mp within
    rw [(unmarked a inside t arg).skolem_none v within] at given
    cases given
  · intro q name held _
    refine List.forall_mem_map.mpr fun a inside v within k given => ?_
    obtain ⟨_, placed, within⟩ := List.mem_flatMap.mp within
    obtain ⟨t, arg, rfl⟩ := List.mem_map.mp placed
    have grown : (q.invent m.inventionInputs name).inventions =
        q.inventions ++ [⟨name, q.id ++ "_" ++ name, m.inventionInputs⟩] := rfl
    simp only [grown, List.length_append, List.length_singleton]
    rcases mem_vars_markInvented within with old | rfl
    · obtain ⟨bound, same⟩ := held a inside v (List.mem_flatMap.mpr ⟨t, arg, old⟩) k given
      exact ⟨Nat.lt_succ_of_lt bound, (List.getElem_append_left bound).symm ▸ same⟩
    · obtain rfl := Option.some.inj given
      exact ⟨Nat.lt_succ_self _, by simp⟩

theorem toRules_inventions : ∀ r ∈ Mapping.toRules catalog config m,
    r.inventions = m.skolemize.inventions :=
  Mapping.toRules_keep rfl fun _ _ _ _ => rfl

theorem IsScanned.mem_inventions {i : Invention} (scanned : m.IsScanned) :
    i ∈ m.skolemize.inventions ↔
      ∃ name ∈ m.undefinedNames, (⟨name, m.id ++ "_" ++ name, m.inventionInputs⟩ : Invention) = i := by
  rw [inventions_skolemize, scanned.inventions, List.nil_append, List.mem_map]

theorem IsScanned.inventsConsistently (scanned : m.IsScanned)
    (listed : r ∈ Mapping.toRules catalog config m) (safe : r.checkSafety = .ok ()) :
    r.InventsConsistently := by
  have inventions := toRules_inventions r listed
  have parts : (∀ a ∈ r.head, a ∈ m.skolemize.head) ∧ r.body = m.body := by
    have body : m.skolemize.body = m.body :=
      skolemize_keeps (P := fun q => q.body = m.body) rfl fun _ _ held _ => held
    exact Mapping.toRules_keep (P := fun r => (∀ a ∈ r.head, a ∈ m.skolemize.head) ∧ r.body = m.body)
      ⟨fun _ inside => inside, body⟩
      (fun _ _ _ member => ⟨List.forall_mem_singleton.mpr member, body⟩) r listed
  refine ⟨List.forall_mem_append.mpr ⟨fun a inside => ?_, fun a inside v within k given => ?_⟩,
    fun i member t arg => ?_⟩
  · rw [inventions]
    exact skolemize_marks (fun a head => scanned.unmarked a (List.mem_append_left _ head)) a
      (parts.1 a inside)
  · obtain ⟨t, arg, within⟩ := List.mem_flatMap.mp within
    have body : a ∈ m.body := parts.2 ▸ inside
    rw [(scanned.unmarked a (List.mem_append_right _ body) t arg).skolem_none v within] at given
    cases given
  · have made := member
    rw [inventions] at made
    obtain ⟨name, -, rfl⟩ := scanned.mem_inventions.mp made
    obtain ⟨input, -, rfl⟩ := bodyNames_of_input arg
    refine ⟨input, mem_boundNames.mpr ?_, rfl⟩
    refine checkSafety_ok safe ⟨input, false, none⟩ (List.mem_append_right _ ?_) rfl
    exact List.mem_flatMap.mpr ⟨_, List.mem_flatMap.mpr ⟨_, member, arg⟩, List.mem_singleton_self _⟩

end Mappings

namespace StemsFrom

theorem inventions_eq (stems : m.StemsFrom r) : r.inventions = m.skolemize.inventions ∨
    ∃ inverse, m.inverse? = some inverse ∧ r.inventions = inverse.skolemize.inventions := by
  induction stems with
  | forward listed => exact .inl (toRules_inventions _ listed)
  | backward turned listed => exact .inr ⟨_, turned, toRules_inventions _ listed⟩
  | recorded _ ih => exact ih
  | @unfolded _ _ definitions _ _ _ _ reads made ih =>
    have defined : ∀ d ∈ definitions, d.IsDefinition := fun d listed =>
      have ⟨_, _, _, made⟩ := reads d listed
      ProvenanceRelation.isDefinition_targetRule made
    obtain ⟨d, -, head, f, before, after, matching, -, -, -, -, -, -, -, -, rfl⟩ :=
      unfolded_parts defined made
    exact ih
  | @minimized isProvenance r _ ih =>
    have kept := congrArg Rule.inventions (minimize_reduces r isProvenance).unchanged
    exact kept.symm ▸ ih
  | marked _ ih => exact ih
  | changed _ ih => exact ih
  | rederived _ ih => exact ih

theorem invention_unique (scanned : m.IsScanned) (stems : m.StemsFrom r) (other : m.StemsFrom q)
    {i j : Invention} (first : i ∈ r.inventions) (second : j ∈ q.inventions)
    (same : i.variableName = j.variableName) : i = j := by
  have alike {m : Rule} (scanned : m.IsScanned) (first : i ∈ m.skolemize.inventions)
      (second : j ∈ m.skolemize.inventions) : i = j := by
    obtain ⟨name, -, rfl⟩ := scanned.mem_inventions.mp first
    obtain ⟨name', -, rfl⟩ := scanned.mem_inventions.mp second
    obtain rfl : name = name' := same
    rfl
  have apart {inverse : Rule} {i j : Invention} (turned : m.inverse? = some inverse)
      (first : i ∈ m.skolemize.inventions) (second : j ∈ inverse.skolemize.inventions) :
      i.variableName ≠ j.variableName := by
    obtain ⟨name, undefined, rfl⟩ := scanned.mem_inventions.mp first
    obtain ⟨name', undefined', rfl⟩ := (isScanned_inverse turned).mem_inventions.mp second
    rintro (rfl : name = name')
    exact outside_of_undefined undefined (bodyNames_of_inverse turned undefined')
  rcases stems.inventions_eq with own | ⟨inverse, turned, own⟩ <;>
    rcases other.inventions_eq with own' | ⟨inverse', turned', own'⟩ <;>
    rw [own] at first <;> rw [own'] at second
  · exact alike scanned first second
  · exact absurd same (apart turned' first second)
  · exact absurd same.symm (apart turned second first)
  · obtain rfl := Option.some.inj (turned.symm.trans turned')
    exact alike (isScanned_inverse turned) first second

end StemsFrom

-- The inventions of a rule are consistent, and those of a mapping that it stems from.
def Carries (mappings : List Rule) (r : Rule) : Prop :=
  r.InventsConsistently ∧ (r.inventions = [] ∨ ∃ m ∈ mappings, m.StemsFrom r)

section Passes

theorem mem_vars_term {i : Invention} {name : String} (arg : Term.var name ∈ i.args) :
    ⟨name, false, none⟩ ∈ i.term.vars := by
  rw [Invention.term, Term.vars, Term.variablesOf_eq_flatMap]
  exact List.mem_flatMap.mpr ⟨_, arg, List.mem_singleton_self _⟩

theorem binds_minimize {isProvenance : String → Bool} {name : String}
    (input : ∃ i ∈ r.inventions, ∃ v ∈ i.term.vars, v.name = name) (bound : Binds r.body name) :
    Binds (r.minimize isProvenance).1.body name := by
  have dropping (rounds : Nat) : ∀ (q : Rule) (dropped : List Atom), q.inventions = r.inventions →
      Binds q.body name → Binds (dropSubsumed isProvenance rounds q dropped).1.body name := by
    induction rounds with
    | zero => exact fun _ _ _ bound => bound
    | succ rounds ih =>
      intro q dropped same bound
      unfold dropSubsumed
      split
      · exact bound
      · rename_i j found
        obtain ⟨i, differ, a, b, σ, subsumes⟩ := firstSubsumed_some found
        refine ih _ _ same (subsumes.binds_eraseIdx differ ?_ bound)
        exact occursOutside_iff.mpr (.inr (.inr (same ▸ input)))
  exact dropping _ _ _ rfl (binds_of_covered (dropRepeats_keeps r.body).2 bound)

theorem inventsConsistently_of_unmarked (unmarked : ∀ a ∈ r.head ++ r.body, ∀ t ∈ a.args, t.IsUnmarked)
    (none : r.inventions = []) : r.InventsConsistently where
  marks a inside v within k given := by
    obtain ⟨t, arg, within⟩ := List.mem_flatMap.mp within
    rw [(unmarked a inside t arg).skolem_none v within] at given
    cases given
  inputs := by
    rw [none]
    exact List.forall_mem_nil _

theorem carries_of_unmarked {mappings : List Rule}
    (unmarked : ∀ a ∈ r.head ++ r.body, ∀ t ∈ a.args, t.IsUnmarked) (none : r.inventions = []) :
    r.Carries mappings :=
  ⟨inventsConsistently_of_unmarked unmarked none, .inl none⟩

namespace InventsConsistently

variable (consistent : r.InventsConsistently)

include consistent

-- A pass that leaves the inventions keeps them consistent when it moves no mark from elsewhere and
-- still binds the inputs.
theorem congr (same : q.inventions = r.inventions)
    (marks : ∀ a ∈ q.head ++ q.body, ∀ v ∈ a.vars,
      v.skolem = none ∨ ∃ b ∈ r.head ++ r.body, v ∈ b.vars)
    (binds : ∀ name, (∃ i ∈ r.inventions, Term.var name ∈ i.args) →
      Binds r.body name → Binds q.body name) : q.InventsConsistently where
  marks a inside v within k given := by
    rw [same]
    rcases marks a inside v within with unmarked | ⟨b, member, met⟩
    · exact nomatch unmarked.symm.trans given
    · exact consistent.marks b member v met k given
  inputs i member t arg := by
    rw [same] at member
    obtain ⟨name, bound, rfl⟩ := consistent.inputs i member t arg
    exact ⟨name, mem_boundNames.mpr (binds name ⟨i, member, arg⟩ (mem_boundNames.mp bound)), rfl⟩

theorem withStratified (stratified : Bool) :
    ({ r with stratified := stratified } : Rule).InventsConsistently :=
  ⟨consistent.marks, consistent.inputs⟩

theorem minimize {isProvenance : String → Bool} :
    (r.minimize isProvenance).1.InventsConsistently := by
  have head : (r.minimize isProvenance).1.head = r.head := minimize_keeps.1
  have within : (r.minimize isProvenance).1.body ⊆ r.body := minimize_keeps.2.1
  have inventions := congrArg Rule.inventions (minimize_reduces r isProvenance).unchanged
  refine consistent.congr inventions (fun a inside v met => .inr ⟨a, ?_, met⟩) fun name input bound => ?_
  · rw [head] at inside
    exact (List.mem_append.mp inside).elim (List.mem_append_left _) fun body =>
      List.mem_append_right _ (within body)
  · obtain ⟨i, member, arg⟩ := input
    exact binds_minimize ⟨i, member, _, mem_vars_term arg, rfl⟩ bound

variable {head : Atom} (heads : r.head = [head])

include heads

theorem changeRule {d : Direction} {scc : List String} {recursive : Bool} {position : Nat} {a : Atom}
    (found : r.body[position]? = some a) (positive : a.isPositive = true) :
    (changeRule d r head scc recursive position a).1.InventsConsistently := by
  have own : head ∈ r.head ++ r.body := List.mem_append_left _ (heads ▸ List.mem_singleton_self _)
  refine consistent.congr rfl (fun b inside v within => .inr ?_) fun name _ bound =>
    (binds_set found positive bound).mono fun b inside _ => List.mem_append_left _ inside
  rcases List.mem_append.mp inside with changed | inside
  · rw [List.mem_singleton.mp changed] at within
    exact ⟨head, own, within⟩
  · rcases List.mem_append.mp inside with body | excluded
    · rcases List.mem_or_eq_of_mem_set body with old | rfl
      · exact ⟨b, List.mem_append_right _ old, within⟩
      · exact ⟨a, List.mem_append_right _ (List.mem_of_getElem? found), within⟩
    · obtain ⟨-, -, args, -⟩ := mem_exclusion excluded
      rw [Atom.vars, args] at within
      exact ⟨head, own, within⟩

theorem rederiveRule : (rederiveRule r).InventsConsistently := by
  have first : r.head?.getD (.ofRelation "" []) = head := by rw [Rule.head?, heads]; rfl
  have own : head ∈ r.head ++ r.body := List.mem_append_left _ (heads ▸ List.mem_singleton_self _)
  refine consistent.congr rfl (fun b inside v within => .inr ?_) fun name _ =>
    Binds.mono fun b inside _ => List.mem_append_left _ inside
  rcases List.mem_append.mp inside with changed | inside
  · rw [List.mem_singleton.mp changed, first] at within
    exact ⟨head, own, within⟩
  · rcases List.mem_append.mp inside with body | remaining
    · exact ⟨b, List.mem_append_right _ body, within⟩
    · obtain ⟨a, joined, rfl⟩ := List.mem_map.mp remaining
      exact ⟨a, List.mem_append_right _ (List.mem_of_mem_filter joined), within⟩

end InventsConsistently

end Passes

section Composition

variable {catalog known made : Catalog} {trust : TrustPolicy} {p : ProvenanceRelation}
  {members definitions : List Rule} {rows : List (List Provenance.Entry)} {i position : Nat}
  {target : Atom} {fresh : FreshNames}

theorem inventsConsistently_sourceRule (recorded : p.Recorded known members rows)
    (bound : i < members.length) (consistent : members[i].InventsConsistently) :
    (p.sourceRule made trust i members[i]).InventsConsistently := by
  refine consistent.congr rfl (fun a inside v within => .inr ?_) fun _ _ bound => bound
  rcases List.mem_append.mp inside with head | body
  · rw [ProvenanceRelation.head_sourceRule] at head
    rw [List.mem_singleton.mp head] at within
    obtain ⟨t, arg, within⟩ := List.mem_flatMap.mp within
    rcases recorded.arg_of_sourceArgs bound arg (List.ne_nil_of_mem within) with
      ⟨b, head, arg⟩ | ⟨b, body, -, arg⟩
    · exact ⟨b, List.mem_append_left _ head, List.mem_flatMap.mpr ⟨t, arg, within⟩⟩
    · exact ⟨b, List.mem_append_right _ body, List.mem_flatMap.mpr ⟨t, arg, within⟩⟩
  · exact ⟨a, List.mem_append_right _ body, within⟩

theorem InventsConsistently.unfolded (consistent : r.InventsConsistently) (safe : r.IsSafe catalog)
    (found : Unfolding.virtualAtom? catalog r = some (position, target))
    (projections : ∀ d ∈ definitions, d.IsProjection catalog)
    (made : q ∈ (r.unfoldDefinitions position target definitions fresh).1) : q.InventsConsistently := by
  obtain ⟨placed, -⟩ := Unfolding.virtualAtom?_found found
  obtain ⟨d, listed, head, f, before, after, m, -, -, -, -, -, -, headed, folded, rfl⟩ :=
    unfolded_parts (fun d listed => (projections d listed).definition) made
  have projection := (projections d listed).rename (f := f)
  refine consistent.congr rfl (fun a inside v within => ?_) fun name _ =>
    binds_through safe placed projection headed folded
  rcases List.mem_append.mp inside with head | body
  · exact .inr ⟨a, List.mem_append_left _ head, within⟩
  · obtain ⟨t, arg, within⟩ := List.mem_flatMap.mp within
    exact .inl (((safe.through placed projection headed folded).read a body |>.unmarked t arg).skolem_none
      v within)

theorem IsProjection.inventsConsistently (projection : q.IsProjection catalog) :
    q.InventsConsistently :=
  inventsConsistently_of_unmarked (List.forall_mem_append.mpr ⟨projection.unmarked, fun a body =>
    (projection.read a body).1.unmarked⟩) projection.definition.plain

end Composition

end Rule

-- The rules that the exchange program is made from are rules of the mappings and their inverses.
theorem Mapping.rules_carry {declared : Catalog} {config : Config} {trust : TrustPolicy}
    {rules : List Rule} (own : declared.IsDeclared)
    (given : Mapping.rules declared config trust = .ok rules) :
    ∀ r ∈ rules, r.InventsConsistently ∧ ∃ m ∈ declared.mappings, m.StemsFrom r := by
  obtain ⟨⟨⟩, -, given⟩ := Compiled.bind_ok.mp given
  obtain ⟨⟨⟩, -, given⟩ := Compiled.bind_ok.mp given
  obtain ⟨⟨⟩, checked, given⟩ := Compiled.bind_ok.mp given
  cases given
  intro r inside
  have safe := checkRuleSafety_ok (Compiled.forM_ok checked r inside)
  obtain ⟨m, member, listed⟩ := List.mem_flatMap.mp inside
  rcases mem_withInverses.mp member with direct | ⟨-, source, direct, turned⟩
  · have member := (mem_trusted.mp direct).1
    exact ⟨(own.mappings m member).inventsConsistently listed safe, m, member, .forward listed⟩
  · exact ⟨(Rule.isScanned_inverse turned).inventsConsistently listed safe, source,
      (mem_trusted.mp direct).1, .backward turned listed⟩

-- The rules that fill provenance relations stem from mappings, and every rule of the exchange program
-- carries the inventions of the mapping that it is made from.
theorem Build.Composed.carries {declared : Catalog} {trust : TrustPolicy} {mappings rules : List Rule}
    {b b' : Build} {y : Exchange} (composed : Composed declared trust rules b y b')
    (safe : ∀ r ∈ rules, r.IsSafe declared)
    (made : ∀ r ∈ rules, r.InventsConsistently ∧ ∃ m ∈ mappings, m.StemsFrom r) :
    (∀ r ∈ b'.exchange.sourceToProvenance, ∃ m ∈ mappings, m.StemsFrom r) ∧
      ∀ r ∈ b'.exchange.rules, r.Carries mappings := by
  obtain ⟨grouped, stages, staged⟩ := composed.staged
  let Kept (r : Rule) : Prop := r.IsSafe b.catalog ∧ r.InventsConsistently ∧
    ∃ m ∈ mappings, m.StemsFrom r
  have recorded : ∀ r ∈ b.exchange.sourceToProvenance, Kept r := by
    intro r inside
    refine ⟨(safe_of_staged staged safe inside).1, ?_⟩
    obtain ⟨s, member, known, i, bound, ruled, rfl⟩ := source_of_staged staged inside
    obtain ⟨seen, rows, -, recorded⟩ := (staged.led.sound s member).recorded
    obtain ⟨consistent, m, listed, stems⟩ := made _ ruled
    exact ⟨Rule.inventsConsistently_sourceRule recorded bound consistent, m, listed, stems.recorded⟩
  have unfolded : ∀ r ∈ y.sourceToProvenance, Kept r := by
    obtain same | ⟨definitions, pending, n, fresh', defined, pended, ran⟩ :=
      Exchange.composeVirtual_rounds composed.composed fun r => real_of_staged staged
    · exact same ▸ recorded
    · have projections : ∀ d ∈ definitions, d.IsProjection b.catalog := fun d listed =>
        (projection_of_staged staged (defined d listed)).1
      refine Unfolding.rounds_keep ?_ (fun r inside => recorded r ((pended r).mp inside)) ran
      rintro r position target fresh q ⟨safe, consistent, m, listed, stems⟩ found unfolds
      refine ⟨(safe.unfoldDefinitions found projections unfolds).2,
        consistent.unfolded safe found projections unfolds, m, listed, stems.unfolded ?_ unfolds⟩
      intro d inside
      obtain ⟨s, -, known, -, target, -, made⟩ := target_of_staged staged (defined d inside)
      exact ⟨s.relation, known, target, made⟩
  refine ⟨fun r inside => ?_, fun r inside => ?_⟩
  · rw [composed.localized.sources] at inside
    obtain ⟨q, source, rfl⟩ := Exchange.mem_minimize_sources.mp inside
    obtain ⟨-, -, m, listed, stems⟩ := unfolded q source
    exact ⟨m, listed, stems.minimized⟩
  obtain ⟨relation, rfl, -⟩ | ⟨q, source | target, rfl⟩ := composed.mem_rules inside
  · refine Rule.carries_of_unmarked (List.forall_mem_cons.mpr ⟨?_, List.forall_mem_singleton.mpr ?_⟩)
      rfl <;> exact List.forall_mem_map.mpr fun _ _ => ⟨rfl, rfl⟩
  · obtain ⟨-, consistent, m, listed, stems⟩ := unfolded q source
    exact ⟨consistent.minimize, .inr ⟨m, listed, stems.minimized⟩⟩
  · have projection := (projection_of_staged staged target).1
    have kept := congrArg Rule.inventions (Rule.minimize_reduces q b.catalog.isProvenance).unchanged
    exact ⟨projection.inventsConsistently.minimize, .inl (kept.trans projection.definition.plain)⟩

namespace Maintenance

variable {catalog marked : Catalog} {mappings : List Rule} {x : Exchange} {program : Maintenance}

theorem unmarked_tableRule {relation : Relation} {name suffix : String} {action : Action}
    {into source : TableKind} {a : Atom}
    (inside : a ∈ (tableRule relation name suffix action into source).head ++
      (tableRule relation name suffix action into source).body) : ∀ t ∈ a.args, t.IsUnmarked := by
  obtain rfl | only := List.mem_cons.mp inside
  · exact List.forall_mem_map.mpr fun _ _ => ⟨rfl, rfl⟩
  · rw [List.mem_singleton.mp only]
    exact List.forall_mem_map.mpr fun _ _ => ⟨rfl, rfl⟩

-- Changes and rederivations invent what their rules do, and moves between tables invent nothing.
theorem carries_program (built : build x catalog = (marked, .ok program))
    (carries : ∀ r ∈ x.rules, r.Carries mappings) (single : ∀ r ∈ x.rules, ∃ head, r.head = [head]) :
    ∀ r ∈ program.allRules, r.Carries mappings := by
  intro rule member
  obtain ⟨s, -, origin⟩ := origin_of_build built member
  have own {r : Rule} (listed : r ∈ ownRules (markedRules x.rules (recursiveNames x)) s) :
      r.Carries mappings ∧ ∃ head, r.head = [head] := by
    obtain ⟨r, inside, rfl⟩ := List.mem_map.mp (mem_ownRules.mp listed).1
    obtain ⟨consistent, stems⟩ := carries r inside
    exact ⟨⟨consistent.withStratified _, stems.imp_right fun ⟨m, listed, stems⟩ =>
      ⟨m, listed, stems.marked⟩⟩, single r inside⟩
  cases origin with
  | change step listed changed =>
    obtain ⟨⟨consistent, stems⟩, head, heads⟩ := own listed
    obtain ⟨position, a, found, positive, same⟩ := (mem_changesOf heads).mp changed
    obtain rfl := congrArg Prod.fst same
    exact ⟨consistent.changeRule heads found positive, stems.imp_right fun ⟨m, listed, stems⟩ =>
      ⟨m, listed, stems.changed⟩⟩
  | rederived listed =>
    obtain ⟨⟨consistent, stems⟩, head, heads⟩ := own listed
    exact ⟨consistent.rederiveRule heads, stems.imp_right fun ⟨m, listed, stems⟩ =>
      ⟨m, listed, stems.rederived⟩⟩
  | table stored => exact Rule.carries_of_unmarked (fun _ => unmarked_tableRule) rfl
  | @merged name relation inside stored =>
    let merge := tableRule relation name "_merge" .derive .base .insertion
    have unmarked : ∀ a ∈ merge.head ++ merge.body, ∀ t ∈ a.args, t.IsUnmarked := fun _ =>
      unmarked_tableRule
    unfold mergeRule
    split <;> exact Rule.carries_of_unmarked unmarked rfl

end Maintenance

namespace Compilation

variable {text : String} {program : Program} {config : Config} {trust : TrustPolicy}
  {c compiled : Compilation}

-- In every rule of the exchange program and of the maintenance program, marks name inventions and
-- inventions are over bound variables; and what stems from one mapping has one Skolem term for each
-- existential variable.
theorem inventions_carried (parsed : Program.parse text = .ok program)
    (created : ofCatalog program.catalog config = .ok c) (made : c.exchangeUnder trust = .ok compiled) :
    ∃ x, compiled.exchange = some x ∧
      (∀ r ∈ x.sourceToProvenance, ∃ mapping ∈ program.catalog.mappings, mapping.StemsFrom r) ∧
      (∀ r ∈ x.rules, r.Carries program.catalog.mappings) ∧
      (∀ ready m, compiled.maintained = (ready, .ok ()) → ready.maintenance = some m →
        ready.exchange = some x ∧ ∀ r ∈ m.allRules, r.Carries program.catalog.mappings) ∧
      ∀ mapping ∈ program.catalog.mappings, ∀ q r : Rule, mapping.StemsFrom q → mapping.StemsFrom r →
        ∀ i ∈ q.inventions, ∀ j ∈ r.inventions, i.variableName = j.variableName → i.term = j.term := by
  obtain ⟨b', built, catalog, exchange, -, valid⟩ := exchangeUnder_ok made
  have own := ofCatalog_declared parsed created
  rw [← (ofCatalog_keeps created).1]
  obtain ⟨rules, b, y, given, synthesized, composed⟩ := Build.composed_ofCatalog own built
  have safe := Mapping.rules_safe own valid given
  obtain ⟨stem, carries⟩ := composed.carries safe (Mapping.rules_carry own given)
  refine ⟨b'.exchange, exchange, stem, carries, fun ready m maintained found => ?_, fun mapping member q r
    stems other i first j second same => ?_⟩
  · have program_ := maintained_ok exchange maintained found
    rw [catalog] at program_
    have kept : ready.exchange = some b'.exchange := by
      obtain ⟨-, -, -, rfl⟩ := maintained_made exchange maintained
      rfl
    refine ⟨kept, Maintenance.carries_program program_ carries fun r inside => ?_⟩
    obtain ⟨-, head, heads, -⟩ := composed.safe safe r inside
    exact ⟨head, heads⟩
  · rw [stems.invention_unique (own.mappings mapping member) other first second same]

-- Both heads of a mapping get one value, in the rules that record them and in their changes.
theorem inventions_carried_heads : ∃ program c compiled x ready m,
    Program.parse (layerText "mapping m: T(n), V(n) :- R(x). mapping k: T(z) :- V(x).") = .ok program ∧
    ofCatalog program.catalog {} = .ok c ∧ c.exchangeUnder {} = .ok compiled ∧
    compiled.exchange = some x ∧ compiled.maintained = (ready, .ok ()) ∧ ready.maintenance = some m ∧
    (x.sourceToProvenance.map fun r => (r.id, r.inventions)) =
      [("m_0", [⟨"n", "m_n", [.var "x"]⟩]), ("m_1", [⟨"n", "m_n", [.var "x"]⟩]),
        ("k_P_m_1_V", [⟨"z", "k_z", [.var "x"]⟩])] ∧
    (m.allRules.filter (·.inventions ≠ [])).map Rule.id = ["m_1_del0", "m_1_red", "m_0_del0",
      "m_0_red", "k_P_m_1_V_del0", "k_P_m_1_V_red", "m_1_ins0", "m_0_ins0", "k_P_m_1_V_ins0"] ∧
    (∀ r ∈ x.rules ++ m.allRules, r.Carries program.catalog.mappings) := by
  let catalog := layerCatalog [.ofHeads "m" [.ofRelation "T" [.var "n"], .ofRelation "V" [.var "n"]]
    [.ofRelation "R" [.var "x"]], .ofHeads "k" [.ofRelation "T" [.var "z"]] [.ofRelation "V" [.var "x"]]]
  have compiles : ((maintain? {} catalog).map fun (ready, m) =>
      (ready.exchange.map fun x => x.sourceToProvenance.map fun r => (r.id, r.inventions),
        (m.allRules.filter (·.inventions ≠ [])).map Rule.id)) =
      some (some [("m_0", [⟨"n", "m_n", [.var "x"]⟩]), ("m_1", [⟨"n", "m_n", [.var "x"]⟩]),
        ("k_P_m_1_V", [⟨"z", "k_z", [.var "x"]⟩])], ["m_1_del0", "m_1_red", "m_0_del0", "m_0_red",
          "k_P_m_1_V_del0", "k_P_m_1_V_red", "m_1_ins0", "m_0_ins0", "k_P_m_1_V_ins0"]) := by decide +kernel
  obtain ⟨⟨ready, m⟩, found, shown⟩ := Option.map_eq_some_iff.mp compiles
  obtain ⟨c, compiled, created, made, maintained, found⟩ := maintain?_parts found
  have parses : Program.parsesTo
      (layerText "mapping m: T(n), V(n) :- R(x). mapping k: T(z) :- V(x).") catalog = true := by
    decide +kernel
  obtain ⟨program, parsed, same⟩ := Program.parsesTo_parts parses
  rw [← same] at created
  obtain ⟨x, exchange, -, rules, changes, -⟩ := inventions_carried parsed created made
  obtain ⟨kept, all⟩ := changes ready m maintained found
  obtain ⟨sources, ids⟩ := Prod.mk.inj shown
  rw [kept] at sources
  exact ⟨program, c, compiled, x, ready, m, parsed, created, made, exchange, maintained, found,
    Option.some.inj sources, ids, List.forall_mem_append.mpr ⟨rules, all⟩⟩

end Compilation

end PeerExchange
