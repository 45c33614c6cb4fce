import PeerExchange.Proofs.ProgramClosure
import PeerExchange.Proofs.SafeRules

namespace PeerExchange

namespace Rule

variable {r : Rule} {catalog : Catalog} {config : Config} {m : Rule}

-- Marks stand for inventions of the rule, from unmarked inputs.
structure InventsPlainly (r : Rule) : Prop where
  marks : ∀ a ∈ r.head, ∀ v ∈ a.vars, ∀ k, v.skolem = some k → k < r.inventions.length
  inputs : ∀ i ∈ r.inventions, ∀ t ∈ i.args, t.IsUnmarked

theorem inventsPlainly_of_unmarked (unmarked : ∀ a ∈ r.head, ∀ t ∈ a.args, t.IsUnmarked)
    (none : r.inventions = []) : r.InventsPlainly where
  marks a inside v within k given := by
    obtain ⟨t, arg, within⟩ := List.mem_flatMap.mp within
    rw [(unmarked a inside t arg).skolem_none v within] at given
    cases given
  inputs := by
    rw [none]
    exact List.forall_mem_nil _

theorem mem_vars_markInvented {name : String} {position : Nat} {t : Term} {v : Variable}
    (inside : v ∈ (markInvented name position t).vars) :
    v ∈ t.vars ∨ v = ⟨name, true, some position⟩ := by
  unfold markInvented at inside
  split at inside
  · split at inside
    · rename_i same
      rw [List.mem_singleton.mp inside, same]
      exact .inr rfl
    · exact .inl inside
  · exact .inl inside

theorem InventsPlainly.invent {inputs : List Term} {name : String} (invents : r.InventsPlainly)
    (unmarked : ∀ t ∈ inputs, t.IsUnmarked) : (r.invent inputs name).InventsPlainly where
  marks := by
    refine List.forall_mem_map.mpr fun a inside v within k given => ?_
    obtain ⟨_, placed, within⟩ := List.mem_flatMap.mp within
    obtain ⟨t, arg, rfl⟩ := List.mem_map.mp placed
    change k < (r.inventions ++ [_]).length
    rw [List.length_append]
    rcases mem_vars_markInvented within with old | rfl
    · exact Nat.lt_add_right _ (invents.marks a inside v (List.mem_flatMap.mpr ⟨t, arg, old⟩) k given)
    · obtain rfl := Option.some.inj given
      exact Nat.lt_succ_self _
  inputs := List.forall_mem_append.mpr ⟨invents.inputs, List.forall_mem_singleton.mpr unmarked⟩

theorem InventsPlainly.skolemize (invents : r.InventsPlainly) :
    r.skolemize.InventsPlainly ∧ r.skolemize.body = r.body := by
  have inputs : ∀ t ∈ r.inventionInputs, t.IsUnmarked := List.forall_mem_map.mpr fun _ _ => ⟨rfl, rfl⟩
  exact skolemize_keeps (P := fun q => q.InventsPlainly ∧ q.body = r.body) ⟨invents, rfl⟩
    fun q _ held _ => ⟨held.1.invent inputs, held.2⟩

theorem InventsPlainly.toRules (invents : m.InventsPlainly) :
    ∀ r ∈ Mapping.toRules catalog config m, r.InventsPlainly ∧ r.body = m.body := by
  obtain ⟨skolemized, body⟩ := invents.skolemize
  exact Mapping.toRules_keep ⟨skolemized, body⟩ fun _ _ head member =>
    ⟨⟨List.forall_mem_singleton.mpr (skolemized.marks head member), skolemized.inputs⟩, body⟩

theorem checkSafety_ok (checked : r.checkSafety = .ok ()) :
    ∀ v ∈ r.neededVariables, v.skolem = none → Binds r.body v.name := by
  unfold checkSafety at checked
  dsimp only at checked
  split at checked
  · cases checked
  · rename_i none
    intro v inside unmarked
    have bound := List.find?_eq_none.mp none v inside
    exact binds_of_boundNames (by simpa [unmarked] using bound)

theorem InventsPlainly.isSafe (invents : r.InventsPlainly) (some : r.body ≠ [])
    (read : ∀ a ∈ r.body, a.IsRead catalog) (checked : r.checkSafety = .ok ()) : r.IsSafe catalog where
  body := some
  read := read
  resolved a head v inside := by
    have needed : v ∈ r.neededVariables := List.mem_append_left _
      (List.mem_flatMap.mpr ⟨a, List.mem_append_left _ head, inside⟩)
    cases given : v.skolem with
    | none => exact .inl (checkSafety_ok checked v needed given)
    | some k =>
      have bound := invents.marks a head v inside k given
      refine .inr ⟨r.inventions[k].term, ?_, fun u within => ?_⟩
      · rw [given, Option.bind_some, invention?, List.getElem?_eq_getElem bound, Option.map_some]
      · rw [Invention.term, Term.vars, Term.variablesOf_eq_flatMap] at within
        obtain ⟨t, arg, met⟩ := List.mem_flatMap.mp within
        have member := List.getElem_mem bound
        refine checkSafety_ok checked u (List.mem_append_right _ ?_)
          ((invents.inputs _ member t arg).skolem_none u met)
        exact List.mem_flatMap.mpr ⟨t, List.mem_flatMap.mpr ⟨_, member, arg⟩, met⟩
  computed a inside called name named := by
    obtain ⟨t, arg, v, within, rfl⟩ := Atom.mem_variableNames.mp named
    refine checkSafety_ok checked v (List.mem_append_left _ (List.mem_flatMap.mpr ⟨a, ?_, ?_⟩))
      (((read a inside).unmarked t arg).skolem_none v within)
    · exact List.mem_append_right _ (List.mem_filter.mpr ⟨inside, called⟩)
    · exact List.mem_flatMap.mpr ⟨t, arg, within⟩

end Rule

namespace Mapping

variable {declared : Catalog} {config : Config} {trust : TrustPolicy} {m r : Rule} {rules : List Rule}

theorem checkRuleSafety_ok (checked : checkRuleSafety r = .ok ()) : r.checkSafety = .ok () := by
  unfold checkRuleSafety at checked
  split at checked
  · assumption
  · cases checked

theorem isKnown_of_fits {a : Atom} (fits : a.Fits declared) : a.IsKnown declared := by
  obtain ⟨name, r, named, found, arity, -⟩ := fits
  exact ⟨r, by rwa [Atom.relationName_of_relation named], arity⟩

variable (own : declared.IsDeclared) (valid : declared.validate = .ok ())

include own valid

theorem read_mapping (member : m ∈ declared.mappings) (supported : checkSupported m = .ok ()) :
    ∀ a ∈ m.body, a.IsRead declared := by
  obtain ⟨uses, checked⟩ := Catalog.validateRule_types (Catalog.validateRule_of_validate valid member)
  obtain ⟨plain, required⟩ := checkSupported_ok supported
  intro a inside
  have checked := checked a (List.mem_append_right _ inside)
  refine ⟨plain a inside, required a (List.mem_append_left _ inside),
    (own.mappings m member).unmarked a (List.mem_append_right _ inside), fun called => ?_, checked.arity⟩
  exact isKnown_of_fits (fits_of_checked own checked (Atom.relation?_of_builtin called))

theorem read_inverse {inverse : Rule} (member : m ∈ declared.mappings)
    (made : m.inverse? = some inverse) :
    inverse.InventsPlainly ∧ inverse.body ≠ [] ∧ ∀ a ∈ inverse.body, a.IsRead declared := by
  have fits := (fits_mapping own valid member).1
  unfold Rule.inverse? at made
  split at made
  · rename_i head source heads body
    split at made
    · cases made
      have unmarked (a : Atom) : ∀ t ∈ (Rule.plainAtom a).args, t.IsUnmarked :=
        List.forall_mem_map.mpr fun _ _ => ⟨rfl, rfl⟩
      obtain ⟨r, found, arity⟩ := isKnown_of_fits (fits head (by simp [heads]))
      refine ⟨Rule.inventsPlainly_of_unmarked (List.forall_mem_singleton.mpr (unmarked source)) rfl,
        List.cons_ne_nil _ _, List.forall_mem_singleton.mpr ⟨rfl, rfl, unmarked head, fun _ => ?_, nofun⟩⟩
      exact ⟨r, found, (List.length_map _).trans arity⟩
    · cases made
  · cases made

theorem rule_safe (member : m ∈ withInverses config (trusted declared trust))
    (supported : checkSupported m = .ok ()) (inside : r ∈ toRules declared config m)
    (checked : checkRuleSafety r = .ok ()) : r.IsSafe declared := by
  have parts : m.InventsPlainly ∧ m.body ≠ [] ∧ ∀ a ∈ m.body, a.IsRead declared := by
    rcases mem_withInverses.mp member with direct | ⟨-, source, direct, made⟩
    · have listed := (mem_trusted.mp direct).1
      have scanned := own.mappings m listed
      refine ⟨Rule.inventsPlainly_of_unmarked (fun a head => ?_) scanned.inventions, scanned.body,
        read_mapping own valid listed supported⟩
      exact scanned.unmarked a (List.mem_append_left _ head)
    · exact read_inverse own valid (mem_trusted.mp direct).1 made
  obtain ⟨invents, some, read⟩ := parts
  obtain ⟨invents, body⟩ := invents.toRules r inside
  exact invents.isSafe (body ▸ some) (body ▸ read) (checkRuleSafety_ok checked)

theorem rules_safe (given : Mapping.rules declared config trust = .ok rules) :
    ∀ r ∈ rules, r.IsSafe declared := by
  obtain ⟨⟨⟩, supported, given⟩ := Compiled.bind_ok.mp given
  obtain ⟨⟨⟩, -, given⟩ := Compiled.bind_ok.mp given
  obtain ⟨⟨⟩, checked, given⟩ := Compiled.bind_ok.mp given
  cases given
  intro r inside
  obtain ⟨m, member, listed⟩ := List.mem_flatMap.mp inside
  exact rule_safe own valid member (Compiled.forM_ok supported m member) listed
    (Compiled.forM_ok checked r inside)

end Mapping

end PeerExchange
