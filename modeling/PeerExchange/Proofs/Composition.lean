import PeerExchange.Proofs.UnfoldingMeaning
import PeerExchange.Proofs.UnfoldingRounds

namespace PeerExchange

variable {D : Type} {I : Interpretation D} {M : Facts D} {θ : Valuation D}

section Lists

variable {rules rules' : List Rule} {name : String} {t : List D}

theorem mem_consequences : t ∈ consequences I rules M name ↔
    ∃ r ∈ rules, t ∈ consequences I [r] M name := by
  simp [consequences]

theorem consequences_flatten {pieces : List (List Rule)} {Made : Rule → List Rule → Prop}
    (each : List.Forall₂ Made rules pieces)
    (same : ∀ r ∈ rules, ∀ piece, Made r piece →
      consequences I piece M name = consequences I [r] M name) :
    consequences I pieces.flatten M name = consequences I rules M name := by
  ext t
  simp only [@mem_consequences _ _ _ rules, @mem_consequences _ _ _ pieces.flatten]
  constructor
  · rintro ⟨r', member, derived⟩
    obtain ⟨piece, inside, member⟩ := List.mem_flatten.mp member
    obtain ⟨r, listed, made⟩ := Compiled.forall₂_source each inside
    exact ⟨r, listed, same r listed piece made ▸ mem_consequences.mpr ⟨r', member, derived⟩⟩
  · rintro ⟨r, listed, derived⟩
    obtain ⟨piece, inside, made⟩ := Compiled.forall₂_result each listed
    obtain ⟨r', member, derived⟩ := mem_consequences.mp (same r listed piece made ▸ derived)
    exact ⟨r', List.mem_flatten.mpr ⟨piece, inside, member⟩, derived⟩

end Lists

variable {catalog : Catalog} {definitions pending pending' : List Rule} {r r' : Rule}
  {position : Nat} {target : Atom} {fresh fresh' : FreshNames}

namespace Rule

theorem IsDefinition.single {d : Rule} (defined : d.IsDefinition) : d.IsSingle := by
  obtain ⟨a, single, -⟩ := defined.head
  exact ⟨a, single⟩

-- A definition with one head is unfolded through it, renamed apart, where it defines the relation.
theorem throughDefinition_single {d : Rule} {head : Atom} {made : List Rule} (headed : d.head = [head])
    (through : r.ThroughDefinition position target fresh fresh' d made) :
    ∃ f before after, ApartOn f d.allNames before after ∧ fresh.next ≤ before.next ∧
      before.next ≤ after.next ∧ after.next ≤ fresh'.next ∧ made =
        if head.relation? = target.relation? then
          (r.unfoldThrough position target (d.rename f) (head.mapArgs (Term.rename f)) after).1.toList
        else [] := by
  obtain ⟨before, above, below, rfl⟩ := through
  obtain ⟨f, renamed, apart⟩ := d.renamedApart_eq before
  refine ⟨f, before, _, apart, above, le_renamedApart, below, ?_⟩
  have single : (d.rename f).head = [head.mapArgs (Term.rename f)] := by simp [Rule.rename, headed]
  have relation : (head.mapArgs (Term.rename f)).relation? = head.relation? := rfl
  rw [renamed, single, unfoldHeads, relation]
  split
  · dsimp only
    rw [unfoldHeads, List.append_nil]
  · rw [unfoldHeads]

theorem throughDefinition_parts {d : Rule} {head : Atom} {made : List Rule}
    (defined : d.IsDefinition) (headed : d.head = [head])
    (through : r.ThroughDefinition position target fresh fresh' d made) :
    ∃ f before after, ApartOn f d.allNames before after ∧ fresh.next ≤ before.next ∧
      before.next ≤ after.next ∧ after.next ≤ fresh'.next ∧ made =
        if head.relation? = target.relation? then
          ((target.foldOnto? (head.mapArgs (Term.rename f))).map
            (r.through position (d.rename f))).toList
        else [] := by
  obtain ⟨f, before, after, apart, above, between, below, rfl⟩ :=
    throughDefinition_single headed through
  obtain ⟨a, single, -, -, flat⟩ := (defined.rename (f := f)).head
  obtain rfl : head.mapArgs (Term.rename f) = a := by simpa [Rule.rename, headed] using single
  exact ⟨f, before, after, apart, above, between, below,
    by rw [unfoldThrough_flat (defined.rename (f := f)).plain flat]⟩

section Unfolded

variable (defined : ∀ d ∈ definitions, d.IsDefinition)
  (made : r' ∈ (r.unfoldDefinitions position target definitions fresh).1)

include defined made

theorem unfolded_parts : ∃ d ∈ definitions, ∃ head f before after m, d.head = [head] ∧
    ApartOn f d.allNames before after ∧ fresh.next ≤ before.next ∧ before.next ≤ after.next ∧
      after.next ≤ (r.unfoldDefinitions position target definitions fresh).2.next ∧
      head.relation? = target.relation? ∧ (d.rename f).head = [head.mapArgs (Term.rename f)] ∧
      target.foldOnto? (head.mapArgs (Term.rename f)) = some m ∧
      r' = r.through position (d.rename f) m := by
  obtain ⟨pieces, flat, each⟩ := unfoldDefinitions_parts r position target definitions fresh
  rw [flat] at made
  obtain ⟨piece, member, made⟩ := List.mem_flatten.mp made
  obtain ⟨d, listed, through⟩ := Compiled.forall₂_source each member
  obtain ⟨head, headed, -⟩ := (defined d listed).head
  obtain ⟨f, before, after, apart, above, between, below, rfl⟩ :=
    throughDefinition_parts (defined d listed) headed through
  split at made
  · rename_i same
    obtain ⟨m, folded, rfl⟩ := Option.map_eq_some_iff.mp (Option.mem_toList.mp made)
    exact ⟨d, listed, head, f, before, after, m, headed, apart, above, between, below, same,
      by simp [Rule.rename, headed], folded, rfl⟩
  · cases made

theorem unfolded_pending (placed : r.body[position]? = some target) (pended : r.IsPending fresh) :
    r'.IsPending (r.unfoldDefinitions position target definitions fresh).2 := by
  obtain ⟨d, listed, head, f, before, after, m, -, apart, above, between, below, -, headed, folded,
    rfl⟩ := unfolded_parts defined made
  refine (isPending_through placed (pended.mono above) (defined d listed).rename headed folded between
    fun n inside => ?_).mono below
  obtain ⟨old, listed, rfl⟩ := name_of_rename inside
  exact apart.used old listed

end Unfolded

section Meaning

variable (defined : ∀ d ∈ definitions, d.IsDefinition) (free : I.IsFree)
  (evaluated : ∀ name, catalog.isVirtual name = true → M name = consequences I definitions M name)
  (found : Unfolding.virtualAtom? catalog r = some (position, target))
  (pended : r.IsPending fresh)

include defined free evaluated found pended

theorem unfolded_sound
    (made : r' ∈ (r.unfoldDefinitions position target definitions fresh).1) :
    r'.head = r.head ∧ ∀ θ, r'.Fires I M θ → r.Fires I M θ := by
  obtain ⟨placed, name, reads, virtual⟩ := Unfolding.virtualAtom?_found found
  obtain ⟨d, listed, head, f, before, after, m, headed, apart, above, -, -, same, renamedHead, folded,
    rfl⟩ := unfolded_parts defined made
  have unused : ∀ n ∈ (d.rename f).allNames, ¬ before.Used n := by
    intro n inside
    obtain ⟨old, listed, rfl⟩ := name_of_rename inside
    exact apart.unused old listed
  refine ⟨rfl, fun θ fires => ?_⟩
  refine fires_of_through placed (pended.mono above) (defined d listed).rename renamedHead unused folded
    reads (fun η fires => ?_) free fires
  rw [evaluated name virtual, Atom.tuple_rename]
  exact ⟨d, listed, η ∘ f, fires_rename.mp fires, head, by simp [headed],
    same.trans reads, rfl⟩

theorem unfolded_complete (fires : r.Fires I M θ) :
    ∃ r' ∈ (r.unfoldDefinitions position target definitions fresh).1, ∃ θ',
      (∀ n ∈ r.allNames, θ' n = θ n) ∧ r'.Fires I M θ' := by
  obtain ⟨placed, name, reads, virtual⟩ := Unfolding.virtualAtom?_found found
  have member : target ∈ r.body := List.mem_of_getElem? placed
  have held := (Atom.accepted_relation (pended.base target member) reads).mp
    (fires.accepted target member)
  rw [evaluated name virtual] at held
  obtain ⟨d, listed, η, derived, head, headed, same, equal⟩ := held
  obtain ⟨a, single, -⟩ := (defined d listed).head
  obtain rfl : head = a := by simpa [single] using headed
  obtain ⟨pieces, flat, each⟩ := unfoldDefinitions_parts r position target definitions fresh
  obtain ⟨piece, inside, through⟩ := Compiled.forall₂_result each listed
  obtain ⟨f, before, after, apart, above, -, -, rfl⟩ :=
    throughDefinition_parts (defined d listed) single through
  rw [if_pos (same.trans reads.symm)] at inside
  obtain ⟨m, θ', folded, agree, fires⟩ := fires_through placed (pended.mono above)
    (defined d listed) single apart reads same free fires derived equal
  refine ⟨_, ?_, θ', agree, fires⟩
  rw [flat]
  exact List.mem_flatten.mpr ⟨_, inside, by rw [folded]; exact List.mem_singleton_self _⟩

theorem consequences_unfoldDefinitions {name : String} :
    consequences I (r.unfoldDefinitions position target definitions fresh).1 M name =
      consequences I [r] M name := by
  ext t
  constructor
  · rintro ⟨r', made, θ, fires, a, member, named, rfl⟩
    obtain ⟨heads, sound⟩ := unfolded_sound defined free evaluated found pended made
    exact ⟨r, List.mem_singleton_self r, θ, sound θ fires, a, heads ▸ member, named, rfl⟩
  · rintro ⟨_, single, θ, fires, a, member, named, rfl⟩
    obtain rfl := List.mem_singleton.mp single
    obtain ⟨r', made, θ', agree, fires⟩ :=
      unfolded_complete defined free evaluated found pended fires
    obtain ⟨heads, -⟩ := unfolded_sound defined free evaluated found pended made
    exact ⟨r', made, θ', fires, a, heads ▸ member, named,
      Atom.tuple_congr fun n shown => agree n (name_of_head member shown)⟩

end Meaning

theorem isCoveredBy_flat {d : Rule} (defined : d.IsDefinition) : isCoveredBy target d = true := by
  obtain ⟨head, headed, -, -, flat⟩ := defined.head
  rw [isCoveredBy, List.all_eq_true]
  intro a member
  obtain rfl : a = head := by simpa [headed] using List.mem_of_mem_filter member
  rw [inventionTerms_none defined.plain, Atom.substitute_empty, List.all_eq_true]
  intro t inside
  have plain := flat t (List.mem_of_mem_drop inside)
  cases t with
  | skolem function args => exact absurd trivial plain
  | «variable» v => rfl
  | constant type value => rfl

end Rule

namespace Unfolding

theorem round_total (defined : ∀ d ∈ definitions, d.IsDefinition) :
    ∃ pending' fresh', round catalog definitions pending fresh = .ok (pending', fresh') := by
  induction pending generalizing fresh with
  | nil => exact ⟨[], fresh, rfl⟩
  | cons r rest ih =>
    have covered : ∀ target, definitions.all (Rule.isCoveredBy target) = true := fun target =>
      List.all_eq_true.mpr fun d listed => Rule.isCoveredBy_flat (defined d listed)
    unfold round
    split
    · obtain ⟨others, after, later⟩ := @ih fresh
      exact ⟨_, _, Compiled.bind_ok.mpr ⟨_, rfl, Compiled.bind_ok.mpr ⟨_, later, rfl⟩⟩⟩
    · rename_i position target found
      obtain ⟨others, after, later⟩ :=
        @ih (r.unfoldDefinitions position target definitions fresh).2
      refine ⟨_, _, Compiled.bind_ok.mpr ⟨r.unfoldDefinitions position target definitions fresh, ?_,
        Compiled.bind_ok.mpr ⟨_, later, rfl⟩⟩⟩
      exact if_pos (covered target)

section Pending

variable (defined : ∀ d ∈ definitions, d.IsDefinition)

include defined

theorem round_keeps {P : Rule → Prop}
    (kept : ∀ r position target before r', P r → r.IsPending before →
      virtualAtom? catalog r = some (position, target) →
        r' ∈ (r.unfoldDefinitions position target definitions before).1 → P r')
    (pended : ∀ r ∈ pending, P r ∧ r.IsPending fresh)
    (ran : round catalog definitions pending fresh = .ok (pending', fresh')) :
    ∀ r ∈ pending', P r ∧ r.IsPending fresh' := by
  obtain ⟨grown, pieces, rfl, each⟩ := round_parts ran
  intro r' made
  obtain ⟨piece, inside, made⟩ := List.mem_flatten.mp made
  obtain ⟨r, listed, ⟨-, rfl⟩ | ⟨position, target, before, found, above, below, rfl⟩⟩ :=
    Compiled.forall₂_source each inside
  · rw [List.mem_singleton.mp made]
    exact (pended r listed).imp_right (·.mono grown)
  · obtain ⟨holds, pended⟩ := pended r listed
    have pended := pended.mono above
    exact ⟨kept r position target before r' holds pended found made,
      (Rule.unfolded_pending defined made (virtualAtom?_found found).1 pended).mono below⟩

theorem rounds_keep_pending {P : Rule → Prop} {n : Nat}
    (kept : ∀ r position target before r', P r → r.IsPending before →
      virtualAtom? catalog r = some (position, target) →
        r' ∈ (r.unfoldDefinitions position target definitions before).1 → P r')
    (pended : ∀ r ∈ pending, P r ∧ r.IsPending fresh)
    (ran : rounds catalog definitions n pending fresh = .ok (pending', fresh')) :
    ∀ r ∈ pending', P r ∧ r.IsPending fresh' := by
  induction n generalizing pending fresh with
  | zero =>
    cases ran
    exact pended
  | succ n ih =>
    unfold rounds at ran
    split at ran
    · cases ran
      exact pended
    · obtain ⟨⟨next, between⟩, first, ran⟩ := Compiled.bind_ok.mp ran
      exact ih (round_keeps defined kept pended first) ran

end Pending

section Meaning

variable (defined : ∀ d ∈ definitions, d.IsDefinition) (free : I.IsFree)
  (evaluated : ∀ name, catalog.isVirtual name = true → M name = consequences I definitions M name)

include defined free evaluated

theorem round_meaning (pended : ∀ r ∈ pending, r.IsPending fresh)
    (ran : round catalog definitions pending fresh = .ok (pending', fresh')) :
    (∀ r ∈ pending', r.IsPending fresh') ∧
      ∀ name, consequences I pending' M name = consequences I pending M name := by
  constructor
  · have kept := round_keeps (P := fun _ => True) defined (fun _ _ _ _ _ _ _ _ _ => trivial)
      (fun r listed => ⟨trivial, pended r listed⟩) ran
    exact fun r listed => (kept r listed).2
  · intro name
    obtain ⟨-, pieces, rfl, each⟩ := round_parts ran
    refine consequences_flatten each ?_
    rintro r listed _ (⟨-, rfl⟩ | ⟨position, target, before, found, above, -, rfl⟩)
    · rfl
    · exact Rule.consequences_unfoldDefinitions defined free evaluated found
        ((pended r listed).mono above)

theorem rounds_meaning {n : Nat} (pended : ∀ r ∈ pending, r.IsPending fresh) :
    ∃ pending' fresh', rounds catalog definitions n pending fresh = .ok (pending', fresh') ∧
      ∀ name, consequences I pending' M name = consequences I pending M name := by
  induction n generalizing pending fresh with
  | zero => exact ⟨pending, fresh, rfl, fun _ => rfl⟩
  | succ n ih =>
    unfold rounds
    split
    · exact ⟨pending, fresh, rfl, fun _ => rfl⟩
    · obtain ⟨next, between, first⟩ :
          ∃ next between, round catalog definitions pending fresh = .ok (next, between) :=
        round_total defined
      obtain ⟨kept, same⟩ := round_meaning defined free evaluated pended first
      obtain ⟨pending', fresh', later, equal⟩ := ih kept
      exact ⟨pending', fresh', Compiled.bind_ok.mpr ⟨_, first, later⟩,
        fun name => (equal name).trans (same name)⟩

end Meaning

end Unfolding

namespace Rule

-- One head, and atoms over the contents of relations or built-ins, with the constants and the
-- names that a parser gives them.
structure IsComposable (r : Rule) : Prop where
  single : r.IsSingle
  base : ∀ a ∈ r.head ++ r.body, a.IsBase
  typed : ∀ a ∈ r.head ++ r.body, a.OwnTypes
  names : ∀ n ∈ r.allNames, '$' ∉ n.toList

instance (r : Rule) : Decidable r.IsComposable :=
  decidable_of_iff (r.IsSingle ∧ (∀ a ∈ r.head ++ r.body, a.IsBase) ∧
      (∀ a ∈ r.head ++ r.body, a.OwnTypes) ∧ ∀ n ∈ r.allNames, '$' ∉ n.toList)
    ⟨fun ⟨single, base, typed, names⟩ => ⟨single, base, typed, names⟩,
      fun ⟨single, base, typed, names⟩ => ⟨single, base, typed, names⟩⟩

structure InventsNothing (r : Rule) : Prop where
  head : ∀ a ∈ r.head, ∀ t ∈ a.args, ¬ t.IsSkolem
  inventions : r.inventions = []

instance (r : Rule) : Decidable r.InventsNothing :=
  decidable_of_iff ((∀ a ∈ r.head, ∀ t ∈ a.args, ¬ t.IsSkolem) ∧ r.inventions = [])
    ⟨fun ⟨head, inventions⟩ => ⟨head, inventions⟩, fun ⟨head, inventions⟩ => ⟨head, inventions⟩⟩

theorem IsComposable.isDefinition (composable : r.IsComposable) (plain : r.InventsNothing) :
    r.IsDefinition where
  head := by
    obtain ⟨a, single⟩ := composable.single
    have head : a ∈ r.head := by simp [single]
    have listed := List.mem_append_left r.body head
    exact ⟨a, single, composable.base a listed, composable.typed a listed, plain.head a head⟩
  base a member := composable.base a (List.mem_append_right _ member)
  typed a member := composable.typed a (List.mem_append_right _ member)
  plain := plain.inventions

theorem IsComposable.isPending (composable : r.IsComposable) : r.IsPending fresh where
  base a member := composable.base a (List.mem_append_right _ member)
  typed a member := composable.typed a (List.mem_append_right _ member)
  names n inside := FreshNames.used_of_plain (composable.names n inside)

theorem IsSingle.checkHead (single : r.IsSingle) : r.checkHead = .ok () := by
  obtain ⟨a, same⟩ := single
  simp [Rule.checkHead, same]

end Rule

namespace Unfolding

variable {rules : List Rule} {db : Facts D} {name : String}

-- What materialized relations hold, and for virtual ones what their definitions give.
def extended (I : Interpretation D) (catalog : Catalog) (rules : List Rule) (db : Facts D) :
    Facts D :=
  leastModel I (definitionsOf catalog rules) fun name =>
    if catalog.isVirtual name then ∅ else db name

theorem extended_virtual (composable : ∀ r ∈ rules, r.IsComposable)
    (plain : ∀ r ∈ definitionsOf catalog rules, r.InventsNothing)
    (virtual : catalog.isVirtual name = true) :
    extended I catalog rules db name =
      consequences I (definitionsOf catalog rules) (extended I catalog rules db) name := by
  have base : ∀ d ∈ definitionsOf catalog rules, ∀ a ∈ d.body, a.IsBase := fun d listed a member =>
    (composable d (mem_definitionsOf.mp listed).1).base a (List.mem_append_right _ member)
  unfold extended
  rw [leastModel_eq base fun d listed => (plain d listed).inventions, if_pos virtual,
    Set.empty_union]

theorem consequences_materialized (composable : ∀ r ∈ rules, r.IsComposable)
    (materialized : catalog.isVirtual name = false) :
    consequences I (rules.filter fun r => !catalog.isVirtual r.headRelation) M name =
      consequences I rules M name := by
  ext t
  constructor
  · rintro ⟨r, listed, derived⟩
    exact ⟨r, List.mem_of_mem_filter listed, derived⟩
  · rintro ⟨r, listed, θ, fires, a, member, named, rfl⟩
    have relation := (composable r listed).single.relation_eq member named
    exact ⟨r, List.mem_filter.mpr ⟨listed, by simp [relation, materialized]⟩, θ, fires, a, member,
      named, rfl⟩

theorem forM_checkHead (composable : ∀ r ∈ rules, r.IsComposable) :
    rules.forM Rule.checkHead = .ok () :=
  Compiled.forM_runs fun r listed => (composable r listed).single.checkHead

-- Unfolding comes to an end, and what is left derives what the rules derived.
theorem composition_exact {D : Type} (I : Interpretation D) (free : I.IsFree) (catalog : Catalog)
    (rules : List Rule) (composable : ∀ r ∈ rules, r.IsComposable)
    (plain : ∀ r ∈ definitionsOf catalog rules, r.InventsNothing)
    (accepted : check catalog (definitionsOf catalog rules) = .ok ()) :
    ∃ composed fresh, compose catalog rules {} = .ok (composed, fresh) ∧
      (definitionsOf catalog rules ≠ [] → ∀ r ∈ composed, virtualAtom? catalog r = none) ∧
      ∀ (db : Facts D) name, catalog.isVirtual name = false →
        consequences I composed (extended I catalog rules db) name =
          consequences I rules (extended I catalog rules db) name := by
  let definitions := definitionsOf catalog rules
  let pending := rules.filter fun r => !catalog.isVirtual r.headRelation
  have parts : rules.partition (fun r => catalog.isVirtual r.headRelation) = (definitions, pending) :=
    List.partition_eq_filter_filter
  have defined : ∀ d ∈ definitions, d.IsDefinition := fun d listed =>
    (composable d (mem_definitionsOf.mp listed).1).isDefinition (plain d listed)
  have pended : ∀ r ∈ pending, r.IsPending {} := fun r listed =>
    (composable r (List.mem_of_mem_filter listed)).isPending
  have evaluated : ∀ (db : Facts D) name, catalog.isVirtual name = true →
      extended I catalog rules db name =
        consequences I definitions (extended I catalog rules db) name := fun db name virtual =>
    extended_virtual composable plain virtual
  have same := fun db name (materialized : catalog.isVirtual name = false) =>
    consequences_materialized (I := I) (M := extended I catalog rules db) composable materialized
  by_cases none : definitions = []
  · refine ⟨pending, {}, ?_, fun some => absurd none some, same⟩
    refine Compiled.bind_ok.mpr ⟨(), forM_checkHead composable, ?_⟩
    rw [parts]
    simp [none]
  · have single : ∀ d ∈ definitions, d.IsSingle := fun d listed => (defined d listed).single
    have run := fun db => rounds_meaning (n := roundBound definitions pending) defined free
      (evaluated db) pended
    obtain ⟨composed, fresh, ran, -⟩ := run fun _ => ∅
    have made : compose catalog rules {} = .ok (composed, fresh) := by
      refine Compiled.bind_ok.mpr ⟨(), forM_checkHead composable, ?_⟩
      rw [parts]
      dsimp only
      rw [if_neg (by simpa using none)]
      exact Compiled.bind_ok.mpr ⟨(), accepted, ran⟩
    refine ⟨composed, fresh, made, fun _ => virtualAtom?_of_compose made none single,
      fun db name materialized => ?_⟩
    obtain ⟨composed', fresh', ran', equal⟩ := run db
    obtain ⟨rfl, rfl⟩ := Prod.mk.inj (Except.ok.inj (ran.symm.trans ran'))
    exact (equal name).trans (same db name materialized)

section Layers

-- Terms as values of their own: no two different ones are equal, and none are ordered.
def termValues : Interpretation Term where
  constant := .constant
  invented := .skolem
  holds op args :=
    match op, args with
    | .eq, [a, b] => a = b
    | .ne, [a, b] => a ≠ b
    | _, _ => False

theorem termValues_isFree : termValues.IsFree where
  equal _ _ := Iff.rfl
  constant _ _ same := (Term.constant.inj same).2
  invented _ _ _ := nofun

def column (name : String) : Column := ⟨name, .integer, false⟩

def layersCatalog : Catalog where
  relations := .ofList [
    ("S", { name := "S", columns := [column "a"] }),
    ("R", { name := "R", columns := [column "a", column "b"] }),
    ("T", { name := "T", columns := [column "a", column "b"] }),
    ("V", { name := "V", columns := [column "a", column "b"], materialized := false }),
    ("W", { name := "W", columns := [column "a", column "b"], materialized := false })]

-- Two definitions of one virtual relation, one of them over another virtual relation, and a rule
-- that reads the first twice, with a constant and with an invented value in its head.
def layersRules : List Rule :=
  [.ofHead "w" (.ofRelation "W" [.var "x", .var "x"]) [.ofRelation "S" [.var "x"]],
    .ofHead "v" (.ofRelation "V" [.var "x", .var "y"])
      [.ofRelation "W" [.var "x", .var "z"], .ofRelation "R" [.var "z", .var "y"]],
    .ofHead "c" (.ofRelation "V" [.lit (.integer 7), .var "x"]) [.ofRelation "S" [.var "x"]],
    { Rule.ofHead "t" (.ofRelation "T" [.var "x", .variable ⟨"u", true, some 0⟩])
        [.ofRelation "V" [.var "x", .var "y"], .ofRelation "V" [.var "y", .lit (.integer 3)]] with
      inventions := [⟨"u", "t_u", [.var "x"]⟩] }]

theorem composition_exact_layers :
    termValues.IsFree ∧ (∀ r ∈ layersRules, r.IsComposable) ∧
      (∀ r ∈ definitionsOf layersCatalog layersRules, r.InventsNothing) ∧
      check layersCatalog (definitionsOf layersCatalog layersRules) = .ok () ∧
      ∃ composed fresh, compose layersCatalog layersRules {} = .ok (composed, fresh) ∧
        (definitionsOf layersCatalog layersRules ≠ [] →
          ∀ r ∈ composed, virtualAtom? layersCatalog r = none) ∧
        ∀ (db : Facts Term) name, layersCatalog.isVirtual name = false →
          consequences termValues composed (extended termValues layersCatalog layersRules db) name =
            consequences termValues layersRules
              (extended termValues layersCatalog layersRules db) name := by
  have composable : ∀ r ∈ layersRules, r.IsComposable := by decide
  have plain : ∀ r ∈ definitionsOf layersCatalog layersRules, r.InventsNothing := by decide
  have accepted : check layersCatalog (definitionsOf layersCatalog layersRules) = .ok () := by cbv
  exact ⟨termValues_isFree, composable, plain, accepted,
    composition_exact termValues termValues_isFree layersCatalog layersRules composable plain accepted⟩

end Layers

end Unfolding

end PeerExchange
