import Mathlib
import PeerExchange.Compilation
import PeerExchange.Proofs.Compiled
import PeerExchange.Proofs.InventedValues

namespace PeerExchange

variable {catalog : Catalog} {config : Config} {trust : TrustPolicy} {m r : Rule}

-- The owner of every head trusts the owner of every atom that is read.
def TrustPolicy.Admits (trust : TrustPolicy) (catalog : Catalog) (heads body : List Atom) : Prop :=
  ∀ head ∈ heads, ∀ peer, catalog.peerOf? head = some peer →
    ∀ a ∈ body, ∀ source, catalog.peerOf? a = some source → 0 < trust.priority peer source

namespace Mapping

theorem isDistrusted_iff :
    isDistrusted catalog trust m = false ↔ trust.Admits catalog m.head?.toList m.body := by
  unfold isDistrusted TrustPolicy.Admits
  cases first : m.head? with
  | none => simp
  | some head =>
    cases owner : catalog.peerOf? head with
    | none => simp [owner]
    | some peer =>
      simp only [Option.bind_some, owner, Option.toList_some, List.forall_mem_singleton,
        Option.some.injEq, forall_eq', List.any_eq_false, List.mem_filterMap, TrustPolicy.distrusts,
        decide_eq_true_eq, Int.not_le]
      exact ⟨fun none a member source owns => none source ⟨a, member, owns⟩,
        fun admits source ⟨a, member, owns⟩ => admits a member source owns⟩

theorem mem_trusted : m ∈ trusted catalog trust ↔
    m ∈ catalog.mappings ∧ trust.Admits catalog m.head?.toList m.body := by
  rw [trusted, List.mem_filter, ← isDistrusted_iff, Bool.not_eq_true']

theorem mem_withInverses {mappings : List Rule} : m ∈ withInverses config mappings ↔
    m ∈ mappings ∨ (config.bidirectional = true ∧ ∃ source ∈ mappings, source.inverse? = some m) := by
  unfold withInverses
  cases config.bidirectional <;> simp

end Mapping

section Skolemization

theorem admits_invent {inputs : List Term} {name : String} :
    trust.Admits catalog (r.invent inputs name).head (r.invent inputs name).body ↔
      trust.Admits catalog r.head r.body := by
  unfold TrustPolicy.Admits
  change (∀ head ∈ r.head.map _, _) ↔ _
  rw [List.forall_mem_map]
  rfl

theorem admits_skolemize :
    trust.Admits catalog r.skolemize.head r.skolemize.body ↔ trust.Admits catalog r.head r.body :=
  Rule.skolemize_keeps (P := fun q => trust.Admits catalog q.head q.body ↔ _) Iff.rfl
    fun _ _ same _ => admits_invent.trans same

theorem admits_split :
    (∀ part ∈ r.split, trust.Admits catalog part.head part.body) ↔ trust.Admits catalog r.head r.body := by
  unfold Rule.split
  split
  · simp
  · simp only [List.mem_mapIdx]
    constructor
    · intro each head member
      obtain ⟨i, inside, rfl⟩ := List.getElem_of_mem member
      exact each _ ⟨i, inside, rfl⟩ _ (List.mem_singleton.mpr rfl)
    · rintro whole part ⟨i, inside, rfl⟩ head member
      cases List.mem_singleton.mp member
      exact whole _ (List.getElem_mem inside)

theorem admits_toRules :
    (∀ part ∈ Mapping.toRules catalog config m, trust.Admits catalog part.head part.body) ↔
      trust.Admits catalog m.head m.body := by
  unfold Mapping.toRules
  split
  · rw [admits_split, admits_skolemize]
  · rw [List.forall_mem_singleton, admits_skolemize]

end Skolemization

section Recording

variable {b b' : Build} {p p' : ProvenanceRelation} {members rules : List Rule}
  {groups : List Synthesis.Group}

theorem ProvenanceRelation.rules_addEntries {entries : List Provenance.Entry} {result : Compiled Unit}
    (ran : ProvenanceRelation.addEntries r entries p = (p', result)) : p'.rules = p.rules := by
  induction entries generalizing p with
  | nil =>
    cases ran
    rfl
  | cons e rest ih =>
    have widened : (p.withColumn e).rules = p.rules := by
      unfold ProvenanceRelation.withColumn
      split <;> rfl
    unfold ProvenanceRelation.addEntries at ran
    simp only at ran
    split at ran
    · exact (ih ran).trans widened
    · cases ran
      exact widened

theorem ProvenanceRelation.rules_addRules (ran : ProvenanceRelation.addRules catalog members p = .ok p') :
    p'.rules = p.rules ++ members.map Rule.id := by
  induction members generalizing p with
  | nil =>
    cases ran
    simp
  | cons rule rest ih =>
    unfold ProvenanceRelation.addRules at ran
    split at ran
    · rename_i next added
      unfold ProvenanceRelation.addRule at added
      split at added
      · cases congrArg Prod.snd added
      · split at added
        · cases congrArg Prod.snd added
        · rename_i filled entries
          cases added
          rw [ih ran]
          simp [ProvenanceRelation.rules_addEntries entries]
    · cases ran

theorem Build.exchange_addRelation (relation : Relation) (b : Build) :
    (b.addRelation relation).1.exchange = b.exchange := by
  unfold Build.addRelation
  split <;> rfl

def recorded (x : Exchange) : List String := x.provenance.flatMap ProvenanceRelation.rules

theorem recorded_addGroup {g : Synthesis.Group} (fresh : g.relation.rules = [])
    (ran : Synthesis.addGroup trust g b = (b', .ok ())) :
    recorded b'.exchange = recorded b.exchange ++ g.members.map Rule.id := by
  unfold Synthesis.addGroup at ran
  split at ran
  · cases congrArg Prod.snd ran
  · rename_i p added
    split at ran
    · cases congrArg Prod.snd ran
    · rename_i middle registered
      simp only at ran
      split at ran
      · cases congrArg Prod.snd ran
      · cases ran
        have same := Build.exchange_addRelation p.relation b
        rw [registered] at same
        change middle.exchange = b.exchange at same
        simp [recorded, same, ProvenanceRelation.rules_addRules added, fresh]

theorem recorded_addGroups (fresh : ∀ g ∈ groups, g.relation.rules = [])
    (ran : Build.inOrder (groups.map (Synthesis.addGroup trust)) b = (b', .ok ())) :
    recorded b'.exchange =
      recorded b.exchange ++ (groups.flatMap Synthesis.Group.members).map Rule.id := by
  induction groups generalizing b with
  | nil =>
    cases ran
    simp
  | cons g rest ih =>
    rw [List.map_cons, Build.inOrder] at ran
    split at ran
    · rename_i middle first
      rw [ih (fun g member => fresh g (List.mem_cons_of_mem _ member)) ran,
        recorded_addGroup (fresh g List.mem_cons_self) first]
      simp
    · rename_i failed
      exact absurd ran (failed b')

theorem mem_joinGroup {rule : Rule} :
    r ∈ (Synthesis.joinGroup catalog rule groups).flatMap Synthesis.Group.members ↔
      r = rule ∨ r ∈ groups.flatMap Synthesis.Group.members := by
  induction groups with
  | nil => simp [Synthesis.joinGroup]
  | cons g rest ih =>
    unfold Synthesis.joinGroup
    split
    · simp only [List.flatMap_cons, List.mem_append, List.mem_singleton]
      grind
    · simp only [List.flatMap_cons, List.mem_append, ih]
      grind

theorem fresh_joinGroup {rule : Rule} (fresh : ∀ g ∈ groups, g.relation.rules = []) :
    ∀ g ∈ Synthesis.joinGroup catalog rule groups, g.relation.rules = [] := by
  induction groups with
  | nil =>
    intro g member
    cases List.mem_singleton.mp member
    rfl
  | cons g rest ih =>
    obtain ⟨here, later⟩ := List.forall_mem_cons.mp fresh
    unfold Synthesis.joinGroup
    split
    · exact List.forall_mem_cons.mpr ⟨here, later⟩
    · exact List.forall_mem_cons.mpr ⟨here, ih later⟩

theorem joinGroups_parts (fresh : ∀ g ∈ groups, g.relation.rules = []) :
    (∀ g ∈ rules.foldl (fun groups rule => Synthesis.joinGroup catalog rule groups) groups,
      g.relation.rules = []) ∧
    ∀ r, r ∈ (rules.foldl (fun groups rule => Synthesis.joinGroup catalog rule groups) groups).flatMap
      Synthesis.Group.members ↔ r ∈ rules ∨ r ∈ groups.flatMap Synthesis.Group.members := by
  induction rules generalizing groups with
  | nil => exact ⟨fresh, fun r => by simp⟩
  | cons rule rest ih =>
    obtain ⟨fresh, inside⟩ := @ih (Synthesis.joinGroup catalog rule groups) (fresh_joinGroup fresh)
    refine ⟨fresh, fun r => ?_⟩
    rw [List.foldl_cons, inside, mem_joinGroup, List.mem_cons]
    constructor
    · rintro (later | here | old)
      · exact .inl (.inr later)
      · exact .inl (.inl here)
      · exact .inr old
    · rintro ((here | later) | old)
      · exact .inr (.inl here)
      · exact .inl later
      · exact .inr (.inr old)

theorem groups_parts (made : Synthesis.groups catalog config.provenance rules = .ok groups) :
    (∀ g ∈ groups, g.relation.rules = []) ∧
      ∀ r, r ∈ groups.flatMap Synthesis.Group.members ↔ r ∈ rules := by
  have own : (∀ g ∈ rules.map (Synthesis.ownGroup catalog), g.relation.rules = []) ∧
      ∀ r, r ∈ (rules.map (Synthesis.ownGroup catalog)).flatMap Synthesis.Group.members ↔ r ∈ rules := by
    refine ⟨fun g member => ?_, fun r => ?_⟩
    · obtain ⟨rule, -, rfl⟩ := List.mem_map.mp member
      rfl
    · simp [Synthesis.ownGroup, List.flatMap_map]
  unfold Synthesis.groups at made
  split at made
  · obtain ⟨-, -, made⟩ := Compiled.bind_ok.mp made
    cases made
    exact own
  · obtain ⟨-, -, made⟩ := Compiled.bind_ok.mp made
    cases made
    exact own
  · obtain ⟨-, -, made⟩ := Compiled.bind_ok.mp made
    cases made
    obtain ⟨fresh, inside⟩ := @joinGroups_parts catalog rules [] nofun
    exact ⟨fresh, fun r => by rw [inside]; simp⟩

theorem Build.provenance_inOrder {steps : List Build.Step} {result : Compiled Unit}
    (keeps : ∀ step ∈ steps, ∀ b, (step b).1.exchange.provenance = b.exchange.provenance)
    (ran : Build.inOrder steps b = (b', result)) :
    b'.exchange.provenance = b.exchange.provenance := by
  induction steps generalizing b with
  | nil =>
    cases ran
    rfl
  | cons step rest ih =>
    obtain ⟨here, later⟩ := List.forall_mem_cons.mp keeps
    unfold Build.inOrder at ran
    split at ran
    · rename_i middle first
      rw [ih later ran, ← here b, first]
    · rw [← here b, ran]

theorem Synthesis.provenance_addView (shown : List ProvenanceRelation) (target : String) (b : Build) :
    (Synthesis.addView shown target b).1.exchange.provenance = b.exchange.provenance := by
  unfold Synthesis.addView
  split
  · rfl
  · rename_i r _
    simp only
    split
    · have same := Build.exchange_addRelation
        (OuterJoinView.build r (shown.filter (·.targets.contains target))).2 b
      split
      all_goals
        rename_i added
        rw [added] at same
        exact (congrArg Exchange.provenance same : _)
    · rfl

theorem Synthesis.provenance_addLocal (relation : Relation) (b : Build) :
    (Synthesis.addLocal relation b).1.exchange.provenance = b.exchange.provenance := by
  unfold Synthesis.addLocal
  exact (congrArg Exchange.provenance (Build.exchange_addRelation _ _)).trans rfl

theorem recorded_synthesize
    (ran : Synthesis.synthesize config trust rules { catalog := catalog } = (b', .ok ())) (id : String) :
    id ∈ recorded b'.exchange ↔ ∃ r ∈ rules, r.id = id := by
  unfold Synthesis.synthesize at ran
  split at ran
  · cases congrArg Prod.snd ran
  · rename_i groups made
    obtain ⟨fresh, inside⟩ := groups_parts made
    split at ran
    · rename_i grouped added
      have parts := recorded_addGroups fresh added
      have viewed : b'.exchange.provenance = grouped.exchange.provenance := by
        split at ran
        · refine Build.provenance_inOrder ?_ ran
          intro step member b
          obtain ⟨target, -, rfl⟩ := List.mem_map.mp member
          exact Synthesis.provenance_addView _ target b
        · cases ran
          rfl
      have same : recorded b'.exchange = recorded grouped.exchange := by rw [recorded, viewed, recorded]
      rw [same, parts]
      simp only [recorded, List.flatMap_nil, List.nil_append, List.mem_map, inside]
    · rename_i failed
      exact absurd ran (failed b')

theorem Build.run_ok {step : Build.Step} (ran : Build.run step b = .ok b') : step b = (b', .ok ()) := by
  unfold Build.run at ran
  split at ran
  · rename_i same
    cases ran
    exact same
  · cases ran

theorem Exchange.provenance_composeVirtual (x : Exchange) (fresh : FreshNames) :
    (x.composeVirtual catalog fresh).1.provenance = x.provenance := by
  unfold Exchange.composeVirtual
  simp only
  split
  · rfl
  · split <;> rfl

theorem recorded_ofCatalog (made : Build.ofCatalog catalog config trust = .ok b) :
    ∃ rules, Mapping.rules catalog config trust = .ok rules ∧
      ∀ id, id ∈ recorded b.exchange ↔ ∃ r ∈ rules, r.id = id := by
  obtain ⟨rules, given, made⟩ := Compiled.bind_ok.mp made
  obtain ⟨synthesized, ran, made⟩ := Compiled.bind_ok.mp made
  refine ⟨rules, given, fun id => ?_⟩
  rw [← recorded_synthesize (Build.run_ok ran) id]
  simp only at made
  obtain ⟨-, -, made⟩ := Compiled.bind_ok.mp made
  have kept : b.exchange.provenance = synthesized.exchange.provenance := by
    refine (Build.provenance_inOrder ?_ (Build.run_ok made)).trans ?_
    · intro step member b
      obtain ⟨relation, -, rfl⟩ := List.mem_map.mp member
      exact Synthesis.provenance_addLocal relation b
    · exact Exchange.provenance_composeVirtual _ _
  rw [recorded, kept, recorded]

end Recording

-- Trust is enforced on every rule exactly when each mapping whose first head trusts what it reads
-- has only such heads, and so has its inverse where inverses are wanted.
theorem trust_enforced_iff {c compiled : Compilation} {trust : TrustPolicy}
    (made : c.exchangeUnder trust = .ok compiled) :
    ∃ x rules, compiled.exchange = some x ∧ Mapping.rules c.declared c.config trust = .ok rules ∧
      (∀ id, (∃ p ∈ x.provenance, id ∈ p.rules) ↔ ∃ r ∈ rules, r.id = id) ∧
      ((∀ r ∈ rules, trust.Admits c.declared r.head r.body) ↔
        ∀ m ∈ c.declared.mappings, trust.Admits c.declared m.head?.toList m.body →
          trust.Admits c.declared m.head m.body ∧
          (c.config.bidirectional = true → ∀ inverse, m.inverse? = some inverse →
            trust.Admits c.declared inverse.head inverse.body)) := by
  obtain ⟨-, -, made⟩ := Compiled.bind_ok.mp made
  obtain ⟨-, -, made⟩ := Compiled.bind_ok.mp made
  obtain ⟨b, built, made⟩ := Compiled.bind_ok.mp made
  cases made
  obtain ⟨rules, given, recorded_⟩ := recorded_ofCatalog built
  refine ⟨b.exchange, rules, rfl, given, fun id => ?_, ?_⟩
  · rw [← recorded_ id, recorded, List.mem_flatMap]
  · obtain ⟨-, -, given⟩ := Compiled.bind_ok.mp given
    obtain ⟨-, -, given⟩ := Compiled.bind_ok.mp given
    obtain ⟨-, -, given⟩ := Compiled.bind_ok.mp given
    cases given
    have parts : (∀ r ∈ (Mapping.withInverses c.config (Mapping.trusted c.declared trust)).flatMap
        (Mapping.toRules c.declared c.config), trust.Admits c.declared r.head r.body) ↔
        ∀ m ∈ Mapping.withInverses c.config (Mapping.trusted c.declared trust),
          trust.Admits c.declared m.head m.body := by
      rw [List.forall_mem_flatMap]
      exact forall₂_congr fun m _ => admits_toRules
    rw [parts]
    simp only [Mapping.mem_withInverses, Mapping.mem_trusted]
    constructor
    · intro all m member first
      exact ⟨all m (.inl ⟨member, first⟩), fun wanted inverse same =>
        all inverse (.inr ⟨wanted, m, ⟨member, first⟩, same⟩)⟩
    · rintro each m (⟨member, first⟩ | ⟨wanted, source, ⟨member, first⟩, same⟩)
      · exact (each m member first).1
      · exact (each source member first).2 wanted m same

section Fork

-- A mapping from A into B and C, where C does not trust A.
def forkCatalog : Catalog where
  peers := [⟨"A", ["R"]⟩, ⟨"B", ["T"]⟩, ⟨"C", ["V"]⟩]
  relations := .ofList [
    ("R", { name := "R", peer := some "A", columns := [⟨"a", .integer, false⟩] }),
    ("T", { name := "T", peer := some "B", columns := [⟨"a", .integer, false⟩] }),
    ("V", { name := "V", peer := some "C", columns := [⟨"a", .integer, false⟩] })]
  mappings := [.ofHeads "m" [.ofRelation "T" [.var "x"], .ofRelation "V" [.var "x"]]
    [.ofRelation "R" [.var "x"]]]

def forkTrust : TrustPolicy := TrustPolicy.set {} "C" "A" 0

def fork : Compilation := { declared := forkCatalog, catalog := forkCatalog, config := {} }

theorem fork_not_admitted {m : Rule} (member : m ∈ forkCatalog.mappings) :
    ¬ forkTrust.Admits forkCatalog m.head m.body := by
  cases List.mem_singleton.mp member
  intro admits
  exact absurd (admits (.ofRelation "V" [.var "x"]) (by decide) "C" rfl (.ofRelation "R" [.var "x"])
    (by decide) "A" rfl) (by decide)

theorem fork_compiles : ∃ compiled x, fork.exchangeUnder forkTrust = .ok compiled ∧
    compiled.exchange = some x ∧ ∃ p ∈ x.provenance, "m" ∈ p.rules := by
  have result : ((fork.exchangeUnder forkTrust).toOption.bind (·.exchange)).map
      (fun x => x.provenance.map ProvenanceRelation.rules) = some [["m"]] := by cbv
  cases made : fork.exchangeUnder forkTrust with
  | error cause =>
    rw [made] at result
    cases result
  | ok compiled =>
    rw [made] at result
    obtain ⟨x, found, shown⟩ := Option.map_eq_some_iff.mp result
    have listed : ["m"] ∈ x.provenance.map ProvenanceRelation.rules := by
      rw [shown]
      exact List.mem_cons_self
    obtain ⟨p, member, same⟩ := List.mem_map.mp listed
    exact ⟨compiled, x, rfl, found, p, member, by rw [same]; exact List.mem_cons_self⟩

-- The first head is admitted, so the mapping is kept with all its heads.
theorem second_head_unchecked : ∃ compiled x rules r, fork.exchangeUnder forkTrust = .ok compiled ∧
    compiled.exchange = some x ∧ Mapping.rules forkCatalog {} forkTrust = .ok rules ∧ r ∈ rules ∧
    (∃ p ∈ x.provenance, r.id ∈ p.rules) ∧ ¬ forkTrust.Admits forkCatalog r.head r.body := by
  obtain ⟨compiled, x, made, found, listed⟩ := fork_compiles
  exact ⟨compiled, x, forkCatalog.mappings, _, made, found, rfl, List.mem_cons_self, listed,
    fork_not_admitted List.mem_cons_self⟩

theorem trust_enforced_fork : ∃ compiled, fork.exchangeUnder forkTrust = .ok compiled ∧
    ∃ x rules, compiled.exchange = some x ∧ Mapping.rules forkCatalog {} forkTrust = .ok rules ∧
      (∃ r ∈ rules, r.id = "m") ∧ ¬ ∀ r ∈ rules, forkTrust.Admits forkCatalog r.head r.body := by
  obtain ⟨compiled, x, made, found, listed⟩ := fork_compiles
  obtain ⟨x', rules, found', given, recorded_, exact_⟩ := trust_enforced_iff made
  cases found.symm.trans found'
  refine ⟨compiled, made, x, rules, found, given, (recorded_ "m").mp listed, fun all => ?_⟩
  refine fork_not_admitted List.mem_cons_self (exact_.mp all _ List.mem_cons_self ?_).1
  exact Mapping.isDistrusted_iff.mp (by decide)

end Fork

end PeerExchange
