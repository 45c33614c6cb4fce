import PeerExchange.Proofs.Exactness
import PeerExchange.Proofs.ProvenanceStages

namespace PeerExchange

-- Rules with one head each, over edited and derived relations that the catalog knows.
structure Exchange.IsDifferentiable (x : Exchange) (catalog : Catalog) : Prop where
  heads : ∀ r ∈ x.rules, ∃ head name, r.head = [head] ∧ head.relation? = some name ∧
    (x.edb.has name = true ∨ x.idb.has name = true)
  known : ∀ name, x.edb.has name = true ∨ x.idb.has name = true →
    ∃ r, catalog.relations.get? name = some r

namespace Maintenance

variable {d : Direction} {catalog marked : Catalog} {rules : List Rule} {r : Rule} {a head : Atom}
  {s : Stratum} {strata : List Stratum} {inside : Bool} {names : List String} {i : Nat}

def joinedAt (r : Rule) : List Nat :=
  (List.range r.body.length).filter fun i => r.body[i]?.any Atom.isPositive

def joinedPlaces (rules : List Rule) : List (Rule × Nat) := rules.flatMap fun r => (joinedAt r).map (r, ·)

-- A change of the atom at a place, followed from inside a stratum or from below it.
structure Differentiates (d : Direction) (marked : Catalog) (s : Stratum) (inside : Bool)
    (place : Rule × Nat) (changed : Rule) : Prop where
  own : changed.headRelation ∈ s.relations
  shape : ∃ head a, place.1.head = [head] ∧ place.1.body[place.2]? = some a ∧ a.isPositive = true ∧
    changed.head = [head.withKind d.kind] ∧
    (∃ excluded, changed.body = place.1.body.set place.2 (a.withKind d.kind) ++ excluded ∧
      (excluded = [] ∨ ∃ kind, excluded = [(head.withKind kind).negate])) ∧
    (inside = true ↔ s.recursive = true ∧ a.relationName ∈ s.relations) ∧
    (inside = true → changed.guard = some ⟨place.2, d.guardOffset⟩ ∧
      changed.stamp = some (.iteration d.stampOffset) ∧
      ∃ r, marked.relations.get? a.relationName = some r ∧ r.hasStratum d.kind = true)

-- What the rules of a stratum do with changes: those caused from below, and those inside it.
structure ChangeLists where
  stratum : Stratum
  seed : List Rule
  iterate : List Rule

-- One change for each place.
def Cover (d : Direction) (marked : Catalog) (rules : List Rule) (lists : List ChangeLists) : Prop :=
  ∃ reached : List (List (Rule × Nat) × List (Rule × Nat)),
    List.Forall₂ (fun part (l : ChangeLists) =>
      List.Forall₂ (Differentiates d marked l.stratum false) part.1 l.seed ∧
      List.Forall₂ (Differentiates d marked l.stratum true) part.2 l.iterate) reached lists ∧
    (reached.flatMap fun part => part.1 ++ part.2).Perm (joinedPlaces rules)

section Rules

def joined (r : Rule) : List (Nat × Atom) := (r.body.mapIdx Prod.mk).filter (·.2.isPositive)

theorem mem_joined : (i, a) ∈ joined r ↔ r.body[i]? = some a ∧ a.isPositive = true := by
  rw [joined, List.mem_filter, List.mem_mapIdx]
  refine and_congr_left fun _ => ⟨?_, fun found => ?_⟩
  · rintro ⟨j, bound, same⟩
    cases same
    exact List.getElem?_eq_getElem bound
  · obtain ⟨bound, rfl⟩ := List.getElem?_eq_some_iff.mp found
    exact ⟨i, bound, rfl⟩

theorem joinedAt_eq (r : Rule) : joinedAt r = (joined r).map Prod.fst := by
  have positions : List.range r.body.length = (r.body.mapIdx Prod.mk).map Prod.fst :=
    List.ext_getElem (by simp) (by simp)
  rw [joinedAt, joined, positions, List.filter_map]
  refine congrArg (List.map Prod.fst) (List.filter_congr fun pair listed => ?_)
  obtain ⟨j, bound, rfl⟩ := List.mem_mapIdx.mp listed
  simp [bound]

def reachedAt (s : Stratum) (inside : Bool) (r : Rule) : List (Nat × Atom) :=
  (joined r).filter fun pair => (s.recursive && s.relations.contains pair.2.relationName) == inside

theorem changesOf_eq (heads : r.head = [head]) :
    changesOf d s.relations s.recursive inside r =
      (reachedAt s inside r).map fun pair =>
        (changeRule d r head s.relations s.recursive pair.1 pair.2).1 := by
  have first : r.head? = some head := by rw [Rule.head?, heads]; rfl
  unfold changesOf changeRules reachedAt joined
  rw [first]
  cases inside <;> simp [List.filter_map, Function.comp_def, changeRule]

theorem perm_reachedAt (s : Stratum) (r : Rule) :
    ((reachedAt s false r).map (r, ·.1) ++ (reachedAt s true r).map (r, ·.1)).Perm
      ((joinedAt r).map (r, ·)) := by
  rw [← List.map_append, joinedAt_eq, List.map_map]
  refine List.Perm.map _ (List.perm_append_comm.trans ?_)
  simpa [reachedAt] using List.filter_append_perm
    (fun pair : Nat × Atom => s.recursive && s.relations.contains pair.2.relationName) (joined r)

def marking (names : List String) (r : Rule) : Rule :=
  { r with stratified := names.contains r.headRelation }

theorem differentiates_changeRule (pending : d.kind ≠ .base) (stamped : Stamped marked s)
    (heads : r.head = [head]) (own : r.headRelation ∈ s.relations)
    (member : (i, a) ∈ reachedAt s inside r) :
    Differentiates d marked s inside (r, i)
      (changeRule d (marking names r) head s.relations s.recursive i a).1 := by
  obtain ⟨listed, flag⟩ := List.mem_filter.mp member
  obtain ⟨found, positive⟩ := mem_joined.mp listed
  have exact_ : inside = true ↔ s.recursive = true ∧ a.relationName ∈ s.relations := by
    rw [← beq_iff_eq.mp flag, Bool.and_eq_true, List.contains_iff_mem]
  refine ⟨?_, head, a, heads, found, positive, rfl, ⟨_, rfl, ?_⟩, exact_, fun within => ?_⟩
  · rw [Rule.headRelation, Rule.head?, heads] at own
    exact own
  · unfold exclusion
    split
    · split
      · exact .inr ⟨_, rfl⟩
      · exact .inl rfl
    · exact .inr ⟨head.kind, rfl⟩
  · obtain ⟨recursive, stratum⟩ := exact_.mp within
    obtain ⟨relation, stored, flagged⟩ := stamped recursive _ stratum
    refine ⟨?_, ?_, relation, stored, ?_⟩
    · simp [changeRule, recursive, stratum]
    · simp [changeRule, recursive, stratum]
    · simp [Relation.hasStratum, flagged, pending]

end Rules

section Strata

theorem perm_ownRules (apart : strata.Pairwise fun s t => ∀ name ∈ s.relations, name ∉ t.relations)
    (owned : ∀ r ∈ rules, ∃ s ∈ strata, r.headRelation ∈ s.relations) :
    (strata.flatMap (ownRules rules)).Perm rules := by
  induction strata generalizing rules with
  | nil =>
    cases rules with
    | nil => exact .nil
    | cons r rest => exact absurd (owned r List.mem_cons_self) (by simp)
  | cons s rest ih =>
    obtain ⟨here, later⟩ := List.pairwise_cons.mp apart
    let others := rules.filter fun r => !s.relations.contains r.headRelation
    have same : rest.flatMap (ownRules rules) = rest.flatMap (ownRules others) := by
      refine List.flatMap_congr fun t listed => ?_
      rw [ownRules, ownRules, List.filter_filter]
      refine List.filter_congr fun r _ => ?_
      cases inside : t.relations.contains r.headRelation with
      | false => rfl
      | true =>
        have outside : r.headRelation ∉ s.relations := fun own =>
          here t listed _ own (List.contains_iff_mem.mp inside)
        simp [outside]
    have split_ : (ownRules rules s ++ others).Perm rules := List.filter_append_perm _ rules
    rw [List.flatMap_cons, same]
    refine ((ih later fun r listed => ?_).append_left _).trans split_
    obtain ⟨given, outside⟩ := List.mem_filter.mp listed
    obtain ⟨t, member, own⟩ := owned r given
    rcases List.mem_cons.mp member with rfl | member
    · simp [own] at outside
    · exact ⟨t, member, own⟩

def placesIn (rules : List Rule) (s : Stratum) (inside : Bool) : List (Rule × Nat) :=
  (ownRules rules s).flatMap fun r => (reachedAt s inside r).map (r, ·.1)

theorem ownRules_marked (rules : List Rule) (names : List String) (s : Stratum) :
    ownRules (markedRules rules names) s = (ownRules rules s).map (marking names) := by
  rw [ownRules, markedRules, List.filter_map]
  rfl

theorem differentiates_changeGroup (pending : d.kind ≠ .base) (stamped : Stamped marked s)
    (heads : ∀ r ∈ rules, ∃ head, r.head = [head]) :
    List.Forall₂ (Differentiates d marked s inside) (placesIn rules s inside)
      (changeGroup d (markedRules rules names) s inside) := by
  rw [changeGroup, ownRules_marked, placesIn, List.flatMap_map]
  have each : ∀ r ∈ ownRules rules s, List.Forall₂ (Differentiates d marked s inside)
      ((reachedAt s inside r).map (r, ·.1))
      (changesOf d s.relations s.recursive inside (marking names r)) := by
    intro r listed
    obtain ⟨given, own⟩ := mem_ownRules.mp listed
    obtain ⟨head, single⟩ := heads r given
    have marked_ : (marking names r).head = [head] := single
    rw [changesOf_eq marked_, List.forall₂_map_left_iff, List.forall₂_map_right_iff]
    exact List.forall₂_same.mpr fun pair member =>
      differentiates_changeRule pending stamped single own member
  generalize ownRules rules s = own at each
  induction own with
  | nil => exact .nil
  | cons r rest ih =>
    obtain ⟨here, later⟩ := List.forall_mem_cons.mp each
    exact List.rel_append here (ih later)

theorem perm_placesIn (apart : strata.Pairwise fun s t => ∀ name ∈ s.relations, name ∉ t.relations)
    (owned : ∀ r ∈ rules, ∃ s ∈ strata, r.headRelation ∈ s.relations) :
    ((strata.map fun s => (placesIn rules s false, placesIn rules s true)).flatMap
      fun part => part.1 ++ part.2).Perm (joinedPlaces rules) := by
  rw [List.flatMap_map, joinedPlaces]
  have each (s : Stratum) : (placesIn rules s false ++ placesIn rules s true).Perm
      ((ownRules rules s).flatMap fun r => (joinedAt r).map (r, ·)) :=
    (List.flatMap_append_perm ..).trans (List.Perm.flatMap (.refl _) fun r _ => perm_reachedAt s r)
  refine (List.Perm.flatMap (.refl _) fun s _ => each s).trans ?_
  rw [← List.flatMap_assoc]
  exact (perm_ownRules apart owned).flatMap_right _

theorem cover_strata (pending : d.kind ≠ .base) (stamped : ∀ s ∈ strata, Stamped marked s)
    (heads : ∀ r ∈ rules, ∃ head, r.head = [head])
    (apart : strata.Pairwise fun s t => ∀ name ∈ s.relations, name ∉ t.relations)
    (owned : ∀ r ∈ rules, ∃ s ∈ strata, r.headRelation ∈ s.relations) :
    Cover d marked rules (strata.map fun s =>
      ⟨s, changeGroup d (markedRules rules names) s false,
        changeGroup d (markedRules rules names) s true⟩) := by
  refine ⟨_, ?_, perm_placesIn apart owned⟩
  rw [List.forall₂_map_left_iff, List.forall₂_map_right_iff]
  exact List.forall₂_same.mpr fun s listed =>
    ⟨differentiates_changeGroup pending (stamped s listed) heads,
      differentiates_changeGroup pending (stamped s listed) heads⟩

end Strata

section Building

open Stratification

variable {x : Exchange}

theorem strata_apart (rules : List Rule) (relations : NameSet) :
    (stratify rules relations).Pairwise fun s t => ∀ name ∈ s.relations, name ∉ t.relations :=
  (stratify_ordered rules relations).imp fun apart name here there => apart name there name here .refl

theorem headRelation_mem_strata (fits : x.IsDifferentiable catalog) (given : r ∈ x.rules) :
    ∃ s ∈ strataOf x, r.headRelation ∈ s.relations := by
  obtain ⟨head, name, single, named, listed⟩ := fits.heads r given
  have target : r.headRelation = name :=
    Rule.headRelation_of_head (by rw [Rule.head?, single]; rfl) named
  refine exists_stratum_iff.mpr ⟨name, NameSet.has_foldl_add.mpr ?_, target ▸ .refl⟩
  exact listed.imp_left NameSet.mem_toList.mpr

theorem known_of_stratum (fits : x.IsDifferentiable catalog) (present : s ∈ strataOf x) {name : String}
    (inside : name ∈ s.relations) : ∃ r, catalog.relations.get? name = some r := by
  refine fits.known name ?_
  obtain ⟨root, listed, path⟩ := exists_stratum_iff.mp ⟨s, present, inside⟩
  rcases Relation.ReflTransGen.cases_tail path with rfl | ⟨middle, -, edge⟩
  · exact (NameSet.has_foldl_add.mp listed).imp_left NameSet.mem_toList.mp
  · obtain ⟨r, given, -, rfl⟩ := edge_graph.mp edge
    obtain ⟨head, target, single, named, either⟩ := fits.heads r given
    rwa [Rule.headRelation_of_head (by rw [Rule.head?, single]; rfl) named]

theorem markStratified_runs (known : ∀ name ∈ names, ∃ r, catalog.relations.get? name = some r) :
    ∃ marked, markStratified names catalog = (marked, .ok ()) ∧
      ∀ name r, catalog.relations.get? name = some r → ∃ r, marked.relations.get? name = some r := by
  induction names generalizing catalog with
  | nil => exact ⟨catalog, rfl, fun name r found => ⟨r, found⟩⟩
  | cons first rest ih =>
    obtain ⟨⟨r, here⟩, later⟩ := List.forall_mem_cons.mp known
    let next : Catalog :=
      { catalog with relations := catalog.relations.insert first { r with stratified := true } }
    have kept : ∀ name s, catalog.relations.get? name = some s →
        ∃ s, next.relations.get? name = some s := by
      intro name s found
      rw [NameMap.get?_insert]
      split
      · exact ⟨_, rfl⟩
      · exact ⟨s, found⟩
    obtain ⟨marked, ran, stays⟩ := @ih next fun name listed => by
      obtain ⟨s, found⟩ := later name listed
      exact kept name s found
    refine ⟨marked, ?_, fun name s found => ?_⟩
    · rw [markStratified, Catalog.relation_ok.mpr here]
      exact ran
    · obtain ⟨t, found⟩ := kept name s found
      exact stays name t found

theorem stratumProgram_runs (known : ∀ name ∈ s.relations, ∃ r, marked.relations.get? name = some r) :
    ∃ part, stratumProgram marked x.edb rules i s = .ok part := by
  obtain ⟨relations, found⟩ := @Compiled.mapM_runs _ _
    (fun name => do return (name, ← marked.relation name)) s.relations fun name listed => by
      obtain ⟨r, stored⟩ := known name listed
      exact ⟨(name, r), Compiled.bind_ok.mpr ⟨r, Catalog.relation_ok.mpr stored, rfl⟩⟩
  exact ⟨_, Compiled.bind_ok.mpr ⟨relations, found, rfl⟩⟩

theorem build_runs (fits : x.IsDifferentiable catalog) :
    ∃ marked program, build x catalog = (marked, .ok program) := by
  have headed : ∀ r ∈ x.rules, r.checkHead = .ok () := by
    intro r given
    obtain ⟨head, name, single, -⟩ := fits.heads r given
    simp [Rule.checkHead, single]
  have stored : ∀ name ∈ recursiveNames x, ∃ r, catalog.relations.get? name = some r := by
    intro name listed
    obtain ⟨s, present, inside⟩ := List.mem_flatMap.mp listed
    exact known_of_stratum fits (List.mem_of_mem_filter present) inside
  obtain ⟨marked, marks, kept⟩ := markStratified_runs stored
  obtain ⟨parts, each⟩ := @Compiled.mapM_runs _ _
    (fun (entry : Nat × Stratum) => stratumProgram marked x.edb
      (markedRules x.rules (recursiveNames x)) entry.1 entry.2) ((strataOf x).mapIdx Prod.mk)
    fun entry listed => by
      obtain ⟨j, bound, rfl⟩ := List.mem_mapIdx.mp listed
      refine stratumProgram_runs fun name inside => ?_
      obtain ⟨r, found⟩ := known_of_stratum fits (List.getElem_mem bound) inside
      exact kept name r found
  have first : (x.rules.filter (·.body.any (·.relation?.isSome))).forM Rule.checkHead = .ok () :=
    Compiled.forM_runs fun r listed => headed r (List.mem_of_mem_filter listed)
  obtain ⟨program, made⟩ : ∃ program, ofStrata x marked (strataOf x) (recursiveNames x) = .ok program :=
    ⟨_, Compiled.bind_ok.mpr ⟨(), Compiled.forM_runs headed, Compiled.bind_ok.mpr ⟨parts, each, rfl⟩⟩⟩
  refine ⟨marked, program, ?_⟩
  rw [build, first]
  dsimp only
  rw [marks]
  exact congrArg (Prod.mk marked) made

theorem nodup_strata (rules : List Rule) (relations : NameSet) :
    ((stratify rules relations).flatMap Stratum.relations).Nodup :=
  List.nodup_flatMap.mpr ⟨fun _ present => stratum_nodup present,
    (strata_apart rules relations).imp fun apart name here there => apart name here there⟩

end Building

section Program

variable {x : Exchange} {program : Maintenance}

def deletionLists (s : DeletionStratum) : ChangeLists :=
  ⟨⟨s.relations, s.recursive⟩, s.seed, s.iterate⟩

-- An insertion stratum: besides changes it drops insertions of what the edited relations have.
structure Inserts (x : Exchange) (marked : Catalog) (lists : ChangeLists) (s : InsertionStratum) :
    Prop where
  stratum : lists.stratum = ⟨s.relations, s.recursive⟩
  seed : ∃ prunes, s.seed = lists.seed ++ prunes ∧ ∀ q ∈ prunes, ∃ name r,
    x.edb.has name = true ∧ marked.relations.get? name = some r ∧ q = pruneRule r name
  iterate : s.iterate = lists.iterate

theorem map_of_parts {α β γ : Type} {R : α → β → Prop} {items : List α} {parts : List β} {f : α → γ}
    {g : β → γ} (each : List.Forall₂ R items parts) (same : ∀ a b, R a b → g b = f a) :
    parts.map g = items.map f := by
  induction each with
  | nil => rfl
  | cons here _ ih => rw [List.map_cons, List.map_cons, same _ _ here, ih]

-- Every program that can be differentiated is: each joined atom of each rule has one change of each
-- kind, in the stratum of its head, and within it exactly where the stratum can cause it.
theorem build_covers (fits : x.IsDifferentiable catalog) :
    ∃ marked program, build x catalog = (marked, .ok program) ∧
      (program.deletion.flatMap (·.relations)).Nodup ∧
      (program.insertion.flatMap (·.relations)).Nodup ∧
      Cover deleting marked x.rules (program.deletion.map deletionLists) ∧
      ∃ lists, Cover inserting marked x.rules lists ∧
        List.Forall₂ (Inserts x marked) lists program.insertion := by
  obtain ⟨marked, program, built⟩ := build_runs fits
  obtain ⟨marks, parts, each, deletion, -, insertion, -⟩ := build_parts built
  have stamped : ∀ s ∈ strataOf x, Stamped marked s := by
    intro s present
    obtain ⟨part, -, index, made⟩ := Compiled.forall₂_result each present
    exact stamped_of_made marks present made
  have heads : ∀ r ∈ x.rules, ∃ head, r.head = [head] := fun r given =>
    (fits.heads r given).imp fun head ⟨_, single, _⟩ => single
  have cover {d : Direction} (pending : d.kind ≠ .base) :=
    @cover_strata d marked x.rules (strataOf x) (recursiveNames x) pending stamped heads
      (strata_apart _ _) fun r given => headRelation_mem_strata fits given
  have relations : parts.map (·.deletion.relations) = (strataOf x).map Stratum.relations ∧
      parts.map (·.insertion.relations) = (strataOf x).map Stratum.relations := by
    constructor
    · refine map_of_parts each fun s part ⟨index, made⟩ => ?_
      obtain ⟨_, -, same, -⟩ := stratumProgram_parts made
      rw [same]
      rfl
    · refine map_of_parts each fun s part ⟨index, made⟩ => ?_
      obtain ⟨_, -, -, same, -⟩ := stratumProgram_parts made
      rw [same]
      rfl
  have distinct := nodup_strata x.rules (x.edb.toList.foldl NameSet.add x.idb)
  refine ⟨marked, program, built, ?_, ?_, ?_, _, cover (d := inserting) nofun, ?_⟩
  · rw [deletion, List.flatMap_map, List.flatMap_def, relations.1, ← List.flatMap_def]
    exact distinct
  · rw [insertion, List.flatMap_map, List.flatMap_def, relations.2, ← List.flatMap_def]
    exact distinct
  · rw [deletion, List.map_map]
    have lists := map_of_parts (f := fun s => ChangeLists.mk s
        (changeGroup deleting (markedRules x.rules (recursiveNames x)) s false)
        (changeGroup deleting (markedRules x.rules (recursiveNames x)) s true))
      (g := deletionLists ∘ StratumProgram.deletion) each fun s part ⟨index, made⟩ => by
        obtain ⟨_, -, same, -⟩ := stratumProgram_parts made
        obtain ⟨seed, iterate⟩ := changeGroup_eq deleting
          (markedRules x.rules (recursiveNames x)) s
        rw [Function.comp_apply, same, ← seed, ← iterate]
        rfl
    rw [lists]
    exact cover nofun
  · rw [insertion, List.forall₂_map_left_iff, List.forall₂_map_right_iff]
    refine each.imp fun s part ⟨index, made⟩ => ?_
    obtain ⟨resolved, known, -, same, -⟩ := stratumProgram_parts made
    obtain ⟨seed, iterate⟩ := changeGroup_eq inserting (markedRules x.rules (recursiveNames x)) s
    rw [same, ← seed, ← iterate]
    refine ⟨rfl, ⟨_, rfl, fun q listed => ?_⟩, rfl⟩
    obtain ⟨entry, edited, rfl⟩ := List.mem_map.mp listed
    obtain ⟨inside, edits⟩ := List.mem_filter.mp edited
    exact ⟨entry.1, entry.2, edits, (known.known entry inside).2, rfl⟩

end Program

section Closure

def closureCatalog : Catalog where
  relations := .ofList [
    ("E", { name := "E", columns := [⟨"a", .integer, false⟩, ⟨"b", .integer, false⟩] }),
    ("P", { name := "P", columns := [⟨"a", .integer, false⟩, ⟨"b", .integer, false⟩] })]

-- Paths, joined from two paths: both atoms are inside the stratum, and the comparison is no place.
def closureExchange : Exchange where
  localRules := [
    .ofHead "edge" (.ofRelation "P" [.var "x", .var "y"]) [.ofRelation "E" [.var "x", .var "y"]],
    .ofHead "path" (.ofRelation "P" [.var "x", .var "z"]) [.ofRelation "P" [.var "x", .var "y"],
      .ofBuiltin .lt [.var "x", .var "z"], .ofRelation "P" [.var "y", .var "z"]]]
  edb := .ofNames ["E"]
  idb := .ofNames ["P"]

theorem build_covers_closure : closureExchange.IsDifferentiable closureCatalog ∧
    ∃ marked program, build closureExchange closureCatalog = (marked, .ok program) ∧
      (program.deletion.flatMap (·.relations)).Nodup ∧
      (program.insertion.flatMap (·.relations)).Nodup ∧
      Cover deleting marked closureExchange.rules (program.deletion.map deletionLists) ∧
      ∃ lists, Cover inserting marked closureExchange.rules lists ∧
        List.Forall₂ (Inserts closureExchange marked) lists program.insertion := by
  have fits : closureExchange.IsDifferentiable closureCatalog := by
    constructor
    · exact List.forall_mem_cons.mpr ⟨⟨_, "P", rfl, rfl, by decide⟩,
        List.forall_mem_singleton.mpr ⟨_, "P", rfl, rfl, by decide⟩⟩
    · rintro name (edited | derived)
      · obtain rfl := List.mem_singleton.mp (NameSet.has_ofNames.mp edited)
        exact ⟨_, rfl⟩
      · obtain rfl := List.mem_singleton.mp (NameSet.has_ofNames.mp derived)
        exact ⟨_, rfl⟩
  exact ⟨fits, build_covers fits⟩

example : joinedPlaces closureExchange.rules =
    [(closureExchange.rules[0], 0), (closureExchange.rules[1], 0), (closureExchange.rules[1], 2)] := by
  decide

end Closure

end Maintenance

end PeerExchange
