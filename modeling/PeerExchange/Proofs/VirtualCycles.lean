import Mathlib.Data.List.Chain
import PeerExchange.Proofs.VirtualLevels

namespace PeerExchange

namespace Unfolding

-- Each name is a step from the one before it, and the first from the last.
def Closes (step : String → String → Prop) (names : List String) : Prop :=
  ∃ first rest, names = first :: rest ∧ List.IsChain step (first :: (rest ++ [first]))

theorem Closes.transGen {step : String → String → Prop} {names : List String}
    (closes : Closes step names) : ∃ name, Relation.TransGen step name name := by
  obtain ⟨first, rest, -, chain⟩ := closes
  have pairs := List.isChain_iff_pairwise.mp (chain.imp fun _ _ => Relation.TransGen.single)
  exact ⟨first, (List.pairwise_cons.mp pairs).1 first (List.mem_append_right _ (List.mem_singleton_self first))⟩

section Search

variable {deps : Dependencies} {depth : Nat} {path done cycle : List String} {node : String}

def Below (deps : Dependencies) (name other : String) : Prop := other ∈ next deps name

theorem closes_dropWhile {step : String → String → Prop} (walked : List.IsChain step (path ++ [node]))
    (met : node ∈ path) : Closes step (path.dropWhile (· ≠ node)) := by
  induction path with
  | nil => cases met
  | cons first rest ih =>
    by_cases same : first = node
    · subst same
      rw [List.dropWhile_cons_of_neg (by simp)]
      exact ⟨first, rest, rfl, walked⟩
    · rw [List.dropWhile_cons_of_pos (by simpa using same)]
      exact ih walked.tail ((List.mem_cons.mp met).resolve_left (Ne.symm same))

theorem foldlM_clear_error {nodes : List String}
    (ran : nodes.foldlM (clear deps depth path) done = .error cycle) :
    ∃ n ∈ nodes, ∃ found, clear deps depth path found n = .error cycle := by
  induction nodes generalizing done with
  | nil => cases ran
  | cons first rest ih =>
    rw [List.foldlM_cons] at ran
    cases step : clear deps depth path done first with
    | error here =>
      rw [step] at ran
      cases ran
      exact ⟨first, List.mem_cons_self, done, step⟩
    | ok middle =>
      rw [step] at ran
      obtain ⟨n, later, found⟩ := ih ran
      exact ⟨n, List.mem_cons_of_mem _ later, found⟩

theorem clear_closes (ran : clear deps depth path done node = .error cycle)
    (walked : List.IsChain (Below deps) (path ++ [node])) (distinct : path.Nodup) :
    Closes (Below deps) cycle ∧ cycle.Nodup := by
  induction depth generalizing path done node with
  | zero => cases ran
  | succ depth ih =>
    unfold clear at ran
    split at ran
    · rename_i met
      cases ran
      exact ⟨closes_dropWhile walked (by simpa using met),
        distinct.sublist (List.dropWhile_sublist _)⟩
    · rename_i off
      have off : node ∉ path := by simpa using off
      split at ran
      · cases ran
      change (next deps node).foldlM (clear deps depth (path ++ [node])) (node :: done) = .error cycle
        at ran
      obtain ⟨n, read, found, ran⟩ := foldlM_clear_error ran
      refine ih ran ?_ (List.nodup_append.mpr ⟨distinct, List.nodup_singleton node, ?_⟩)
      · rw [List.append_assoc, List.singleton_append, List.isChain_append_cons_cons]
        exact ⟨walked, read, .singleton n⟩
      · rintro n member _ here rfl
        exact off (List.mem_singleton.mp here ▸ member)

theorem checkCycles_closes (ran : checkCycles deps = .error cycle) :
    Closes (Below deps) cycle ∧ cycle.Nodup := by
  obtain ⟨n, -, found, ran⟩ := foldlM_clear_error ran
  exact clear_closes ran (.singleton n) .nil

end Search

variable {catalog : Catalog} {rules : List Rule} {name other : String}

-- A rule that defines the first relation reads the second, and both are virtual.
def Step (catalog : Catalog) (rules : List Rule) (name other : String) : Prop :=
  catalog.isVirtual name = true ∧ catalog.isVirtual other = true ∧
    ∃ r ∈ rules, r.headRelation = name ∧ ∃ a ∈ r.body, a.relation? = some other

theorem step_eq : Step catalog rules = Reads catalog.isVirtual (definitionsOf catalog rules) := by
  funext name other
  simp only [Step, Reads, definitionsOf, List.mem_filter, eq_iff_iff]
  constructor
  · rintro ⟨defined, read, r, listed, rfl, a, inside, named⟩
    exact ⟨r, ⟨listed, defined⟩, rfl, a, inside, named, read⟩
  · rintro ⟨r, ⟨listed, defined⟩, rfl, a, inside, named, read⟩
    exact ⟨defined, read, r, listed, rfl, a, inside, named⟩

theorem cycle_of_check (headed : rules.forM Rule.checkHead = .ok ()) {cause : CompileError}
    (ran : check catalog rules = .error cause) : ∃ cycle, cause = .recursive cycle ∧
      checkCycles (dependencies catalog.isVirtual (definitionsOf catalog rules)) = .error cycle := by
  cases searched : checkCycles (dependencies catalog.isVirtual (definitionsOf catalog rules)) with
  | ok found =>
    have accepted : check catalog rules = .ok () := by
      unfold check
      rw [headed, searched]
      rfl
    cases accepted.symm.trans ran
  | error cycle =>
    have refused : check catalog rules = .error (.recursive cycle) := by
      unfold check
      rw [headed, searched]
      rfl
    cases refused.symm.trans ran
    exact ⟨cycle, rfl, rfl⟩

theorem check_cycles_exact (single : ∀ r ∈ rules, r.head.length = 1) :
    (check catalog rules = .ok () ↔
      ¬ ∃ name, catalog.isVirtual name = true ∧ Relation.TransGen (Step catalog rules) name name) ∧
    ∀ cause, check catalog rules = .error cause → ∃ cycle, cause = .recursive cycle ∧
      Closes (Step catalog rules) cycle ∧ cycle.Nodup ∧
      cause.message = "cannot compose away recursive virtual relations: " ++
        " -> ".intercalate cycle := by
  have headed : rules.forM Rule.checkHead = .ok () := Compiled.forM_runs fun r listed => by
    have some : r.head ≠ [] := fun none => by simpa [none] using single r listed
    simp [Rule.checkHead, some]
  have failed : ∀ cause, check catalog rules = .error cause → ∃ cycle, cause = .recursive cycle ∧
      Closes (Step catalog rules) cycle ∧ cycle.Nodup := by
    intro cause ran
    obtain ⟨cycle, rfl, searched⟩ := cycle_of_check headed ran
    obtain ⟨closes, distinct⟩ := checkCycles_closes searched
    have reads : Below (dependencies catalog.isVirtual (definitionsOf catalog rules)) =
        Step catalog rules := by
      rw [step_eq]
      exact funext₂ fun _ _ => propext mem_next_dependencies
    exact ⟨cycle, rfl, reads ▸ closes, distinct⟩
  refine ⟨⟨fun accepted => ?_, fun acyclic => ?_⟩, fun cause ran => ?_⟩
  · rintro ⟨name, -, round⟩
    rw [step_eq] at round
    exact (layered_of_check accepted).not_transGen round
  · cases ran : check catalog rules with
    | ok => rfl
    | error cause =>
      obtain ⟨cycle, -, closes, -⟩ := failed cause ran
      obtain ⟨name, round⟩ := closes.transGen
      obtain ⟨_, ⟨virtual, -⟩, -⟩ := Relation.TransGen.head'_iff.mp round
      exact absurd ⟨name, virtual, round⟩ acyclic
  · obtain ⟨cycle, rfl, closes, distinct⟩ := failed cause ran
    exact ⟨cycle, rfl, closes, distinct, rfl⟩

-- Two virtual relations that are defined through each other, below a third one.
def circularCatalog : Catalog :=
  { relations := .ofList (["R", "T", "U", "V", "W"].map fun name =>
      (name, { name, columns := [⟨"a", .integer, false⟩], materialized := name < "U" })) }

def circularRules : List Rule :=
  [("u", "U", ["R", "V"]), ("v", "V", ["W", "R"]), ("w", "W", ["R", "V"]), ("t", "T", ["U"])].map
    fun (id, head, body) => .ofHead id (.ofRelation head [.var "x"])
      (body.map fun name => .ofRelation name [.var "x"])

theorem check_cycles_exact_circular : (∀ r ∈ circularRules, r.head.length = 1) ∧
    check circularCatalog circularRules = .error (.recursive ["V", "W"]) ∧
    Closes (Step circularCatalog circularRules) ["V", "W"] ∧
    ∃ name, circularCatalog.isVirtual name = true ∧
      Relation.TransGen (Step circularCatalog circularRules) name name := by
  have single : ∀ r ∈ circularRules, r.head.length = 1 := by decide
  have ran : check circularCatalog circularRules = .error (.recursive ["V", "W"]) := by rfl
  obtain ⟨accepts, fails⟩ := @check_cycles_exact circularCatalog circularRules single
  obtain ⟨cycle, same, closes, -⟩ := fails _ ran
  cases same
  refine ⟨single, ran, closes, not_not.mp fun acyclic => ?_⟩
  exact nomatch ran.symm.trans (accepts.mpr acyclic)

end Unfolding

end PeerExchange
