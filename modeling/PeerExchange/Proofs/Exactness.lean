import Mathlib.Data.List.Permutation
import PeerExchange.Proofs.Compiled
import PeerExchange.Proofs.Insertion
import PeerExchange.Proofs.Stratification

namespace PeerExchange

-- What the maintenance program is made for: rules with one head over derived relations, and bodies
-- of joined atoms and built-ins over edited and derived ones.
structure Exchange.Maintainable (x : Exchange) (catalog : Catalog) : Prop where
  separate : ∀ name, x.edb.has name = true → x.idb.has name = false
  heads : ∀ r ∈ x.rules, ∃ head name, r.head = [head] ∧ head.relation? = some name ∧
    head.kind = .base ∧ x.idb.has name = true ∧
    ∀ relation, catalog.relations.get? name = some relation → head.args.length = relation.arity
  bodies : ∀ r ∈ x.rules, ∀ a ∈ r.body, a.negated = false ∧ a.optional = false ∧
    ∀ name, a.relation? = some name →
      a.kind = .base ∧ (x.edb.has name = true ∨ x.idb.has name = true)

namespace Maintenance

variable {D : Type} {I : Interpretation D} {catalog marked : Catalog} {limit : Nat}
  {rules : List Rule} {edited derived below : String → Prop} {start db : Tables D}

section Marking

theorem markStratified_get {names : List String} {name : String} {relation : Relation}
    (ran : markStratified names catalog = (marked, .ok ()))
    (found : marked.relations.get? name = some relation) :
    ∃ old, catalog.relations.get? name = some old ∧ relation.columns = old.columns ∧
      (name ∈ names ∨ old.stratified = true → relation.stratified = true) := by
  induction names generalizing catalog with
  | nil =>
    cases ran
    exact ⟨relation, found, rfl, fun either => either.resolve_left nofun⟩
  | cons first rest ih =>
    unfold markStratified Catalog.relation at ran
    cases present : catalog.relations.get? first with
    | none =>
      rw [present] at ran
      cases congrArg Prod.snd ran
    | some r =>
      rw [present] at ran
      obtain ⟨old, got, columns, flag⟩ := ih ran
      rw [NameMap.get?_insert] at got
      split at got
      · rename_i same
        subst same
        cases got
        exact ⟨r, present, columns, fun _ => flag (.inr rfl)⟩
      · rename_i differ
        refine ⟨old, got, columns, fun either => flag (either.imp_left fun inside => ?_)⟩
        exact (List.mem_cons.mp inside).resolve_left fun same => differ same.symm

end Marking

section Layering

open Stratification

variable {relations : NameSet}

theorem layers_of_stratify (closed : ∀ r ∈ rules, ∀ a ∈ r.body, ∀ name, a.relation? = some name →
      relations.has name = true) :
    Layers rules (fun _ => False) (stratify rules relations) := by
  have along (done rest : List Stratum) (below : String → Prop)
      (all : stratify rules relations = done ++ rest)
      (exact_ : ∀ name, below name ↔ ∃ s ∈ done, name ∈ s.relations) : Layers rules below rest := by
    induction rest generalizing done below with
    | nil => trivial
    | cons s rest ih =>
      have present : s ∈ stratify rules relations := by
        rw [all]
        exact List.mem_append_right _ List.mem_cons_self
      have ordered := stratify_ordered rules relations
      rw [all, List.pairwise_append, List.pairwise_cons] at ordered
      obtain ⟨-, ⟨later, -⟩, earlier⟩ := ordered
      refine ⟨⟨?_, ?_, ?_⟩, ih (done ++ [s]) _ (by rw [all, List.append_assoc]; rfl) ?_⟩
      · intro r member own a joined name reads
        have edge : Edge (graph rules) name r.headRelation :=
          edge_graph.mpr ⟨r, member, List.mem_filterMap.mpr ⟨a, joined, reads⟩, rfl⟩
        obtain ⟨other, somewhere, inside⟩ := exists_stratum_iff.mpr
          ⟨name, closed r member a joined name reads, Relation.ReflTransGen.refl⟩
        rw [all, List.mem_append, List.mem_cons] at somewhere
        rcases somewhere with before | rfl | after
        · exact .inl ((exact_ name).mpr ⟨other, before, inside⟩)
        · exact .inr ⟨stratum_recursive present inside own edge, inside⟩
        · exact absurd (Relation.ReflTransGen.single edge) (later other after name inside _ own)
      · intro name inside lower
        obtain ⟨other, before, there⟩ := (exact_ name).mp lower
        exact earlier other before s List.mem_cons_self name inside name there Relation.ReflTransGen.refl
      · intro recursive name inside
        obtain ⟨source, -, edge⟩ := edge_into_recursive present recursive inside
        obtain ⟨r, member, -, same⟩ := edge_graph.mp edge
        exact ⟨r, member, same⟩
      · intro name
        simp only [exact_ name, List.mem_append, List.mem_singleton, or_and_right, exists_or,
          exists_eq_left]
  exact along [] _ _ rfl fun name => by simp

theorem Layers.map {f : Rule → Rule} (bodies : ∀ r, (f r).body = r.body)
    (heads : ∀ r, (f r).headRelation = r.headRelation) {strata : List Stratum}
    (layers : Layers rules below strata) : Layers (rules.map f) below strata := by
  induction strata generalizing below with
  | nil => trivial
  | cons s rest ih =>
    refine ⟨⟨?_, layers.1.fresh, ?_⟩, ih layers.2⟩
    · intro r member own a joined
      obtain ⟨old, given, rfl⟩ := List.mem_map.mp member
      rw [heads] at own
      rw [bodies] at joined
      exact layers.1.reads old given own a joined
    · intro recursive name inside
      obtain ⟨r, member, same⟩ := layers.1.headed recursive name inside
      exact ⟨f r, List.mem_map_of_mem member, by rw [heads, same]⟩

end Layering

section Building

variable {x : Exchange} {program : Maintenance} {s : Stratum} {index : Nat} {part : StratumProgram}

theorem resolvedEntry_ok {name : String} {entry : String × Relation}
    (found : (do return (name, ← catalog.relation name) : Compiled (String × Relation)) = .ok entry) :
    entry.1 = name ∧ catalog.relations.get? name = some entry.2 := by
  obtain ⟨relation, present, same⟩ := Compiled.bind_ok.mp found
  cases same
  unfold Catalog.relation at present
  split at present
  · rename_i got
    cases present
    exact ⟨rfl, got⟩
  · cases present

theorem stratumProgram_parts (made : stratumProgram catalog x.edb rules index s = .ok part) :
    ∃ relations, Resolved catalog s relations ∧
      part.deletion = deletionStratum (ownRules rules s) index s ∧
      part.insertion = insertionStratum (ownRules rules s) relations
        (relations.filter fun entry => x.edb.has entry.1) index s ∧
      part.apply = removalGroup "_apply" .base .deletion relations := by
  obtain ⟨relations, resolved, made⟩ := Compiled.bind_ok.mp made
  cases made
  have each := Compiled.forall₂_of_mapM resolved
  refine ⟨relations, ⟨?_, ?_⟩, rfl, rfl, rfl⟩
  · intro entry member
    obtain ⟨name, inside, found⟩ := Compiled.forall₂_source each member
    obtain ⟨rfl, got⟩ := resolvedEntry_ok found
    exact ⟨inside, got⟩
  · intro name inside
    obtain ⟨entry, member, found⟩ := Compiled.forall₂_result each inside
    obtain ⟨rfl, -⟩ := resolvedEntry_ok found
    exact ⟨entry.2, member⟩

def markedRules (rules : List Rule) (recursive : List String) : List Rule :=
  rules.map fun r => { r with stratified := recursive.contains r.headRelation }

abbrev strataOf (x : Exchange) : List Stratum :=
  Stratification.stratify x.rules (x.edb.toList.foldl NameSet.add x.idb)

abbrev recursiveNames (x : Exchange) : List String :=
  ((strataOf x).filter (·.recursive)).flatMap Stratum.relations

theorem build_made (built : build x catalog = (marked, .ok program)) :
    markStratified (recursiveNames x) catalog = (marked, .ok ()) ∧
      x.rules.forM Rule.checkHead = .ok () ∧ ∃ parts,
      List.Forall₂ (fun s part => ∃ index,
        stratumProgram marked x.edb (markedRules x.rules (recursiveNames x)) index s = .ok part)
        (strataOf x) parts ∧
      program = {
        deletion := parts.map StratumProgram.deletion
        apply := parts.flatMap StratumProgram.apply
        insertion := parts.map StratumProgram.insertion
        reset := parts.flatMap StratumProgram.reset
        relations := (strataOf x).flatMap Stratum.relations } := by
  unfold build at built
  split at built
  · cases congrArg Prod.snd built
  · simp only at built
    split at built
    · cases congrArg Prod.snd built
    · rename_i marks
      obtain ⟨rfl, made⟩ := Prod.mk.inj built
      refine ⟨marks, ?_⟩
      obtain ⟨⟨⟩, checked, made⟩ := Compiled.bind_ok.mp made
      obtain ⟨parts, each, made⟩ := Compiled.bind_ok.mp made
      cases made
      refine ⟨checked, parts, ?_, rfl⟩
      have indexed := Compiled.forall₂_of_mapM each
      have plain : ((strataOf x).mapIdx Prod.mk).map Prod.snd = strataOf x :=
        List.ext_getElem (by simp) (by simp)
      rw [← plain, List.forall₂_map_left_iff]
      exact indexed.imp fun entry part made => ⟨entry.1, made⟩

theorem build_parts (built : build x catalog = (marked, .ok program)) :
    markStratified (recursiveNames x) catalog = (marked, .ok ()) ∧ ∃ parts,
      List.Forall₂ (fun s part => ∃ index,
        stratumProgram marked x.edb (markedRules x.rules (recursiveNames x)) index s = .ok part)
        (strataOf x) parts ∧
      program.deletion = parts.map StratumProgram.deletion ∧
      program.apply = parts.flatMap StratumProgram.apply ∧
      program.insertion = parts.map StratumProgram.insertion ∧
      program.relations = (strataOf x).flatMap Stratum.relations := by
  obtain ⟨marks, -, parts, each, rfl⟩ := build_made built
  exact ⟨marks, parts, each, rfl, rfl, rfl, rfl⟩

theorem stamped_of_made (marks : markStratified (recursiveNames x) catalog = (marked, .ok ()))
    (present : s ∈ strataOf x) (made : stratumProgram marked x.edb rules index s = .ok part) :
    Stamped marked s := by
  intro recursive name inside
  obtain ⟨resolved, known, -⟩ := stratumProgram_parts made
  obtain ⟨relation, listed⟩ := known.complete name inside
  have found := (known.known _ listed).2
  obtain ⟨_, -, -, flag⟩ := markStratified_get marks found
  exact ⟨relation, found, flag (.inl (List.mem_flatMap.mpr
    ⟨s, List.mem_filter.mpr ⟨present, recursive⟩, inside⟩))⟩

theorem apply_parts {strata : List Stratum} {parts : List StratumProgram}
    (each : List.Forall₂ (fun s part => ∃ index, stratumProgram marked x.edb rules index s = .ok part)
      strata parts) :
    ∃ relations, parts.flatMap StratumProgram.apply = removalGroup "_apply" .base .deletion relations ∧
      (∀ entry ∈ relations, marked.relations.get? entry.1 = some entry.2) ∧
      ∀ s ∈ strata, ∀ name ∈ s.relations, ∃ relation, (name, relation) ∈ relations := by
  induction each with
  | nil => exact ⟨[], rfl, nofun, nofun⟩
  | cons here _ ih =>
    obtain ⟨index, made⟩ := here
    obtain ⟨own, resolved, -, -, applied⟩ := stratumProgram_parts made
    obtain ⟨others, rest, found, listed⟩ := ih
    refine ⟨own ++ others, ?_, ?_, ?_⟩
    · rw [List.flatMap_cons, applied, rest]
      exact List.map_append.symm
    · intro entry member
      rcases List.mem_append.mp member with here | later
      · exact (resolved.known entry here).2
      · exact found entry later
    · intro s member name inside
      rcases List.mem_cons.mp member with rfl | later
      · obtain ⟨relation, there⟩ := resolved.complete name inside
        exact ⟨relation, List.mem_append_left _ there⟩
      · obtain ⟨relation, there⟩ := listed s later name inside
        exact ⟨relation, List.mem_append_right _ there⟩

end Building

theorem fits_leastModel {facts : Facts D} (divided : Divided edited derived rules)
    (heads : ∀ r ∈ rules, ∀ relation, catalog.relations.get? r.headRelation = some relation →
      ∀ a ∈ r.head, a.args.length = relation.arity)
    (fits : ∀ name, edited name → ∀ relation, catalog.relations.get? name = some relation →
      ∀ t ∈ facts name, t.length = relation.arity) :
    Fits catalog edited derived (leastModel I rules (given edited facts)) := by
  intro name _ relation found t there
  refine divided.induct (fun name => {t | ∀ relation, catalog.relations.get? name = some relation →
    t.length = relation.arity}) ?_ ?_ there relation found
  · exact fun name t member relation found => fits name member.1 relation found t member.2
  · intro r member θ _ relation found
    obtain ⟨head, single, -, -⟩ := (divided.simple r member).single
    rw [Rule.headTuple_single single, Atom.tuple, List.length_map]
    exact heads r member relation found head (by rw [single]; exact List.mem_singleton.mpr rfl)

theorem inserted_of_applied (divided : Divided edited derived rules)
    (consistent : Consistent I rules edited derived start) {among : String → Prop}
    (everywhere : ∀ name, edited name ∨ derived name → among name)
    (idle : ∀ name, derived name → start name .insertion = ∅)
    (deleted : Deleted I rules edited derived start among db)
    {relations : List (String × Relation)}
    (found : ∀ entry ∈ relations, marked.relations.get? entry.1 = some entry.2)
    (listed : ∀ name, edited name ∨ derived name → ∃ relation, (name, relation) ∈ relations)
    (fits : Fits marked edited derived (start.facts .base)) :
    Inserted I rules edited derived start (fun _ => False)
      (Rule.runRules I marked 0 (removalGroup "_apply" .base .deletion relations) db).1 := by
  have confined := @removalGroup_confined _ I marked 0 db "_apply" .base .deletion relations
    (fun _ => True) fun _ _ => trivial
  have pending (name : String) :
      (Rule.runRules I marked 0 (removalGroup "_apply" .base .deletion relations) db).1 name .insertion =
        start name .insertion :=
    (confined name .insertion fun both => nomatch both.1).trans (deleted.others name .insertion nofun)
  refine ⟨nofun, nofun, nofun, ?_, fun name _ _ => Tables.facts_congr (pending name),
    fun name _ derives => (pending name).trans (idle name derives)⟩
  intro name _ known
  have base : db name .base = start name .base := deleted.others name .base nofun
  ext t
  constructor
  · rintro ⟨e, there, rfl⟩
    have stored : e ∈ db name .base := removalGroup_shrinks name .base e there
    have inStart : e.tuple ∈ start.facts .base name := ⟨e, by rw [← base]; exact stored, rfl⟩
    refine (deleted.exact_ name (everywhere name known) known e.tuple inStart).mp fun gone => ?_
    obtain ⟨relation, member⟩ := listed name known
    exact removalGroup_removes (by decide) member
      (fits name known relation (found _ member) e.tuple inStart) gone there
  · intro survives
    have inStart := survivors_subset consistent divided known survives
    have kept := (deleted.exact_ name (everywhere name known) known t inStart).mpr survives
    obtain ⟨e, stored, rfl⟩ := inStart
    rw [← base] at stored
    exact ⟨e, removalGroup_keeps (by decide) stored kept, rfl⟩

theorem ends_clearAll {names : List String} {before after : Running (Tables D)}
    (ended : Run.Ends (names.forM (I.machine marked limit).clearPending) before () after) :
    ∀ name kind, after.state name kind =
      {e | e ∈ before.state name kind ∧ (name ∈ names → kind = .base)} := by
  induction names generalizing before with
  | nil =>
    cases Run.ends_forM_nil.mp ended
    simp
  | cons first rest ih =>
    obtain ⟨middle, one, more⟩ := Run.ends_forM_cons.mp ended
    have state := Interpretation.ends_clearPending.mp one
    intro name kind
    rw [ih more name kind, ← state]
    ext e
    simp only [Tables.withoutPending, Set.mem_ofPred_eq, List.mem_cons, or_imp]
    constructor
    · rintro ⟨⟨stored, here⟩, later⟩
      exact ⟨stored, here, later⟩
    · rintro ⟨stored, here, later⟩
      exact ⟨⟨stored, here⟩, later⟩

section Program

variable {x : Exchange} {program : Maintenance}

abbrev isEdited (x : Exchange) (name : String) : Prop := x.edb.has name = true

abbrev isDerived (x : Exchange) (name : String) : Prop := x.idb.has name = true

theorem divided_of_maintainable (maintainable : x.Maintainable catalog) (recursive : List String) :
    Divided (isEdited x) (isDerived x) (markedRules x.rules recursive) where
  simple := by
    intro r member
    obtain ⟨old, given, rfl⟩ := List.mem_map.mp member
    obtain ⟨head, name, heads, named, kind, -, -⟩ := maintainable.heads old given
    refine ⟨fun a joined => ?_, head, heads, ?_, kind⟩
    · obtain ⟨positive, -, reads⟩ := maintainable.bodies old given a joined
      refine ⟨positive, fun isRelation => ?_⟩
      obtain ⟨source, same⟩ := Option.isSome_iff_exists.mp isRelation
      exact (reads source same).1
    · change head.relation? = some old.headRelation
      rw [Rule.headRelation_of_head (congrArg List.head? heads) named, named]
  heads := by
    intro r member
    obtain ⟨old, given, rfl⟩ := List.mem_map.mp member
    obtain ⟨head, name, heads, named, -, derives, -⟩ := maintainable.heads old given
    change x.idb.has old.headRelation = true
    rwa [Rule.headRelation_of_head (congrArg List.head? heads) named]
  reads := by
    intro r member a joined name reads
    obtain ⟨old, given, rfl⟩ := List.mem_map.mp member
    exact ((maintainable.bodies old given a joined).2.2 name reads).2
  separate name edits derives := by cases (maintainable.separate name edits).symm.trans derives

theorem leastModel_marked (recursive : List String) (facts : Facts D) :
    leastModel I (markedRules x.rules recursive) facts = leastModel I x.rules facts := by
  have same (M : Facts D) : IsModel I (markedRules x.rules recursive) M ↔ IsModel I x.rules M := by
    unfold IsModel markedRules
    constructor
    · intro model r member
      exact model { r with stratified := recursive.contains r.headRelation }
        (List.mem_map.mpr ⟨r, member, rfl⟩)
    · intro model r member
      obtain ⟨old, given, rfl⟩ := List.mem_map.mp member
      exact model old given
  funext name
  unfold leastModel
  simp only [same]

theorem maintained_iff {name : String} :
    (∃ s ∈ strataOf x, name ∈ s.relations) ↔ ∃ root, (isEdited x root ∨ isDerived x root) ∧
      Stratification.Reaches (Stratification.graph x.rules) root name := by
  rw [Stratification.exists_stratum_iff]
  simp only [NameSet.has_foldl_add, NameSet.mem_toList]

theorem heads_fit (maintainable : x.Maintainable catalog)
    (marks : markStratified (recursiveNames x) catalog = (marked, .ok ())) :
    ∀ r ∈ markedRules x.rules (recursiveNames x), ∀ relation,
      marked.relations.get? r.headRelation = some relation →
        ∀ a ∈ r.head, a.args.length = relation.arity := by
  intro r member relation found a inHead
  obtain ⟨old, given, rfl⟩ := List.mem_map.mp member
  obtain ⟨head, name, heads, named, -, -, arity⟩ := maintainable.heads old given
  obtain ⟨plain, present, columns, -⟩ := markStratified_get marks found
  have same : old.headRelation = name :=
    Rule.headRelation_of_head (congrArg List.head? heads) named
  change a ∈ old.head at inHead
  rw [heads] at inHead
  cases List.mem_singleton.mp inHead
  change catalog.relations.get? old.headRelation = some plain at present
  rw [same] at present
  rw [arity plain present, Relation.arity, Relation.arity, columns]

theorem onlyDiverges_runProgram (program : Maintenance) :
    Run.OnlyDiverges ((I.machine marked limit).runProgram program) := by
  have group (rules : List Rule) (k : Int) :=
    @Interpretation.onlyDiverges_runGroup _ I marked limit rules k
  refine Run.onlyDiverges_bind (Run.onlyDiverges_forM (fun s => ?_) _) fun _ =>
    Run.onlyDiverges_bind (Run.onlyDiverges_discard (group _ _)) fun _ =>
    Run.onlyDiverges_bind (Run.onlyDiverges_forM (fun s => ?_) _) fun _ =>
    Run.onlyDiverges_forM Interpretation.onlyDiverges_clearPending _
  · refine Run.onlyDiverges_bind (Run.onlyDiverges_discard (group _ _)) fun _ => ?_
    split
    · exact Run.onlyDiverges_bind (Running.onlyDiverges_untilStable (group _) _ _) fun _ =>
        Running.onlyDiverges_untilStable (fun _ => group _ _) _ _
    · exact Run.onlyDiverges_bind (Run.onlyDiverges_discard (group _ _)) fun _ =>
        Run.onlyDiverges_discard (group _ _)
  · refine Run.onlyDiverges_bind (Run.onlyDiverges_discard (group _ _)) fun _ => ?_
    split
    · refine Run.onlyDiverges_bind (Run.onlyDiverges_discard (group _ _)) fun _ =>
        Running.onlyDiverges_untilStable (fun k => ?_) _ _
      refine Run.onlyDiverges_bind (group _ _) fun changed => ?_
      simp only
      split
      · exact Run.onlyDiverges_bind (Run.onlyDiverges_discard (group _ _)) fun _ =>
          Run.onlyDiverges_pure _
      · exact Run.onlyDiverges_pure _
    · exact Run.onlyDiverges_bind (Run.onlyDiverges_discard (group _ _)) fun _ =>
        Run.onlyDiverges_discard (group _ _)

theorem runProgram_outcome (maintainable : x.Maintainable catalog)
    (built : build x catalog = (marked, .ok program))
    (fits : ∀ name, isEdited x name → ∀ relation, catalog.relations.get? name = some relation →
      ∀ kind, ∀ t ∈ start.facts kind name, t.length = relation.arity)
    (consistent : Consistent I (markedRules x.rules (recursiveNames x)) (isEdited x) (isDerived x) start)
    (idle : ∀ name, isDerived x name → start name .insertion = ∅ ∧ start name .deletion = ∅)
    {after : Running (Tables D)}
    (ended : Run.Ends ((I.machine marked limit).runProgram program) ⟨start, {}⟩ () after) :
    ∀ name, isEdited x name ∨ isDerived x name →
      after.state.facts .base name =
        outcome I (markedRules x.rules (recursiveNames x)) (isEdited x) start name ∧
      after.state name .insertion = ∅ ∧ after.state name .deletion = ∅ := by
  obtain ⟨marks, parts, each, deletion, apply, insertion, relations⟩ := build_parts built
  have divided := divided_of_maintainable maintainable (recursiveNames x)
  have layers : Layers (markedRules x.rules (recursiveNames x)) (fun _ => False) (strataOf x) := by
    refine @Layers.map x.rules _ (fun r =>
      { r with stratified := (recursiveNames x).contains r.headRelation }) (fun _ => rfl) (fun _ => rfl) _
      (layers_of_stratify ?_)
    intro r member a joined name reads
    rw [NameSet.has_foldl_add, NameSet.mem_toList]
    exact ((maintainable.bodies r member a joined).2.2 name reads).2
  have stamped (s : Stratum) (present : s ∈ strataOf x) : Stamped marked s := by
    obtain ⟨part, -, index, made⟩ := Compiled.forall₂_result each present
    exact stamped_of_made marks present made
  have everywhere (name : String) (known : isEdited x name ∨ isDerived x name) :
      ∃ s ∈ strataOf x, name ∈ s.relations :=
    maintained_iff.mpr ⟨name, known, Relation.ReflTransGen.refl⟩
  have heads := heads_fit maintainable marks
  have editsFit (kind : TableKind) (name : String) (edits : isEdited x name) (relation : Relation)
      (found : marked.relations.get? name = some relation) (t : List D)
      (there : t ∈ start.facts kind name) : t.length = relation.arity := by
    obtain ⟨old, present, columns, -⟩ := markStratified_get marks found
    rw [fits name edits old present kind t there, Relation.arity, Relation.arity, columns]
  have outcomeFits : Fits marked (isEdited x) (isDerived x)
      (outcome I (markedRules x.rules (recursiveNames x)) (isEdited x) start) := by
    refine fits_leastModel divided heads fun name edits relation found t there => ?_
    rcases there with old | new
    · exact editsFit .base name edits relation found t old.1
    · exact editsFit .insertion name edits relation found t new
  have baseFits : Fits marked (isEdited x) (isDerived x) (start.facts .base) := by
    intro name known relation found t there
    rw [consistent.base_eq divided known] at there
    exact fits_leastModel divided heads (editsFit .base) name known relation found t there
  obtain ⟨_, deletedState, deleting, rest⟩ := Run.ends_bind.mp ended
  obtain ⟨_, appliedState, applying, rest⟩ := Run.ends_bind.mp rest
  obtain ⟨_, insertedState, inserting, clearing⟩ := Run.ends_bind.mp rest
  rw [deletion] at deleting
  rw [insertion] at inserting
  have first := runDeletions_deleted divided consistent layers stamped
    (List.forall₂_map_right_iff.mpr (each.imp fun s part made => by
      obtain ⟨index, made⟩ := made
      obtain ⟨-, -, same, -⟩ := stratumProgram_parts made
      exact ⟨index, same⟩))
    ⟨fun _ _ _ => rfl, fun _ _ => rfl, fun name derives _ => (idle name derives).2, nofun⟩ deleting
  obtain ⟨listed, group, found, complete⟩ := apply_parts each
  obtain ⟨_, applied⟩ := Run.ends_discard.mp applying
  obtain ⟨appliedEq, -⟩ := Interpretation.ends_runGroup.mp applied
  have second : Inserted I (markedRules x.rules (recursiveNames x)) (isEdited x) (isDerived x) start
      (fun _ => False) appliedState.state := by
    rw [← appliedEq, apply, group]
    refine inserted_of_applied divided consistent (fun name known => .inr (everywhere name known))
      (fun name derives => (idle name derives).1) first found (fun name known => ?_) baseFits
    obtain ⟨s, present, inside⟩ := everywhere name known
    exact complete s present name inside
  have third := runInsertions_inserted divided outcomeFits layers stamped
    (List.forall₂_map_right_iff.mpr (each.imp fun s part made => by
      obtain ⟨index, made⟩ := made
      obtain ⟨own, resolved, -, same, -⟩ := stratumProgram_parts made
      refine ⟨own, _, index, resolved, fun entry member => ?_, same⟩
      obtain ⟨inside, edits⟩ := List.mem_filter.mp member
      exact ⟨edits, (resolved.known entry inside).1⟩)) second inserting
  have cleared := ends_clearAll clearing
  intro name known
  have present := everywhere name known
  have maintained : name ∈ program.relations := by
    rw [relations]
    exact List.mem_flatMap.mpr present
  refine ⟨?_, ?_, ?_⟩
  · rw [← third.contents name (.inr present) known]
    refine Tables.facts_congr ?_
    rw [cleared name .base]
    ext e
    exact ⟨fun both => both.1, fun stored => ⟨stored, fun _ => rfl⟩⟩
  · rw [cleared name .insertion]
    exact Set.eq_empty_of_forall_notMem fun e both => nomatch both.2 maintained
  · rw [cleared name .deletion]
    exact Set.eq_empty_of_forall_notMem fun e both => nomatch both.2 maintained

-- Maintenance is exact: a cycle that ends makes the edits, brings every derived relation to what the
-- rules derive from the edited ones, and leaves nothing pending. That the rules are safe, or join
-- anything at all, plays no part.
theorem maintenance_exact {D : Type} (I : Interpretation D) {x : Exchange} {catalog marked : Catalog}
    {program : Maintenance} (limit : Nat) (start : Tables D) (maintainable : x.Maintainable catalog)
    (built : Maintenance.build x catalog = (marked, .ok program))
    (fits : ∀ name, x.edb.has name = true → ∀ relation, catalog.relations.get? name = some relation →
      ∀ kind, ∀ t ∈ start.facts kind name, t.length = relation.arity)
    (consistent : ∀ name, x.idb.has name = true → start.facts .base name =
      leastModel I x.rules (given (isEdited x) (start.facts .base)) name)
    (idle : ∀ name, x.idb.has name = true → start name .insertion = ∅ ∧ start name .deletion = ∅)
    (converges : ∀ stratum rounds, (((I.machine marked limit).runProgram program).run ⟨start, {}⟩).1 ≠
      .error (.diverged stratum rounds)) :
    ∃ after, Run.Ends ((I.machine marked limit).runProgram program) ⟨start, {}⟩ () after ∧
      (∀ name, x.edb.has name = true → after.state.facts .base name =
        (start.facts .base name \ start.facts .deletion name) ∪ start.facts .insertion name) ∧
      (∀ name, x.idb.has name = true → after.state.facts .base name =
        leastModel I x.rules (given (isEdited x) (after.state.facts .base)) name) ∧
      ∀ name, x.edb.has name = true ∨ x.idb.has name = true →
        after.state name .insertion = ∅ ∧ after.state name .deletion = ∅ := by
  have divided := divided_of_maintainable maintainable (recursiveNames x)
  have consistent : Consistent I (markedRules x.rules (recursiveNames x)) (isEdited x) (isDerived x)
      start := by
    intro name derives
    rw [leastModel_marked]
    exact consistent name derives
  match ran : ((I.machine marked limit).runProgram program).run ⟨start, {}⟩ with
  | (.error cause, after) =>
    obtain ⟨stratum, rounds, rfl⟩ := onlyDiverges_runProgram program _ _ _ ran
    exact absurd (congrArg Prod.fst ran) (converges stratum rounds)
  | (.ok (), after) =>
    have results := runProgram_outcome maintainable built fits consistent idle ran
    have edits (name : String) (edited : x.edb.has name = true) : after.state.facts .base name =
        (start.facts .base name \ start.facts .deletion name) ∪ start.facts .insertion name := by
      rw [(results name (.inl edited)).1]
      exact divided.leastModel_edited edited
    refine ⟨after, ran, edits, fun name derives => ?_, fun name known => (results name known).2⟩
    rw [(results name (.inr derives)).1, outcome, leastModel_marked]
    have same : given (isEdited x) (after.state.facts .base) = given (isEdited x) fun name =>
        (start.facts .base name \ start.facts .deletion name) ∪ start.facts .insertion name := by
      funext other
      ext t
      exact and_congr_right fun edited => by rw [edits other edited]
    rw [same]

theorem flat_finishes (flatDeletion : ∀ s ∈ program.deletion, s.recursive = false)
    (flatInsertion : ∀ s ∈ program.insertion, s.recursive = false) :
    Run.Finishes ((I.machine marked limit).runProgram program) := by
  have group (rules : List Rule) (k : Int) :
      Run.Finishes (discard ((I.machine marked limit).runGroup rules k)) :=
    Run.finishes_discard fun _ => ⟨_, _, rfl⟩
  refine Run.finishes_bind (Run.finishes_forM fun s member => ?_) fun _ =>
    Run.finishes_bind (group _ _) fun _ =>
    Run.finishes_bind (Run.finishes_forM fun s member => ?_) fun _ =>
    Run.finishes_forM fun _ _ _ => ⟨(), _, rfl⟩
  · refine Run.finishes_bind (group _ _) fun _ => ?_
    rw [flatDeletion s member]
    exact Run.finishes_bind (group _ _) fun _ => group _ _
  · refine Run.finishes_bind (group _ _) fun _ => ?_
    rw [flatInsertion s member]
    exact Run.finishes_bind (group _ _) fun _ => group _ _

end Program

section Copying

-- One relation that is a copy of another.
def copyCatalog : Catalog where
  relations := .ofList [
    ("P", { name := "P", columns := [⟨"a", .integer, false⟩] }),
    ("E", { name := "E", columns := [⟨"a", .integer, false⟩] })]

def copyExchange : Exchange where
  localRules := [.ofHead "m" (.ofRelation "P" [.var "a"]) [.ofRelation "E" [.var "a"]]]
  edb := .ofNames ["E"]
  idb := .ofNames ["P"]

def integers : Interpretation Int where
  constant _ value := match value with | .integer n => n | _ => 0
  invented _ _ := 0
  holds op args := match op, args with | .eq, [a, b] => a = b | _, _ => False

-- Both hold 1 and 2, of which 1 is to go and 3 is to come.
def copyTables : Tables Int := fun name kind =>
  match kind with
  | .base => {e | (name = "E" ∨ name = "P") ∧ (e.tuple = [1] ∨ e.tuple = [2])}
  | .deletion => {e | name = "E" ∧ e.tuple = [1]}
  | .insertion => {e | name = "E" ∧ e.tuple = [3]}

theorem copy_edited {name : String} : copyExchange.edb.has name = true ↔ name = "E" := by
  simp [copyExchange, NameSet.has_ofNames]

theorem copy_derived {name : String} : copyExchange.idb.has name = true ↔ name = "P" := by
  simp [copyExchange, NameSet.has_ofNames]

theorem copy_maintainable : copyExchange.Maintainable copyCatalog where
  separate := by
    intro name edits
    cases copy_edited.mp edits
    decide
  heads := by
    intro r member
    cases List.mem_singleton.mp member
    refine ⟨_, "P", rfl, rfl, rfl, by decide, fun relation found => ?_⟩
    cases found
    rfl
  bodies := by
    intro r member a joined
    cases List.mem_singleton.mp member
    cases List.mem_singleton.mp joined
    refine ⟨rfl, rfl, fun name named => ⟨rfl, .inl ?_⟩⟩
    cases named
    decide

theorem copy_leastModel (facts : Facts Int) (fits : ∀ t ∈ facts "E", t.length = 1) :
    leastModel integers copyExchange.rules (given (isEdited copyExchange) facts) "P" = facts "E" := by
  have divided := divided_of_maintainable copy_maintainable []
  rw [← @leastModel_marked _ integers copyExchange []]
  ext t
  constructor
  · intro inside
    have either := divided.induct (fun name => {t | name = "E" ∨ name = "P" → t ∈ facts "E"}) ?_ ?_ inside
    · exact either (.inr rfl)
    · rintro name t ⟨edits, there⟩ _
      cases copy_edited.mp edits
      exact there
    · intro r member θ supported _
      cases List.mem_singleton.mp member
      exact supported.joined _ List.mem_cons_self "E" rfl (.inl rfl)
  · intro there
    obtain ⟨v, rfl⟩ := List.length_eq_one_iff.mp (fits t there)
    have supported : ({ copyExchange.localRules.head (by decide) with stratified := false }).Supports
        integers (leastModel integers (markedRules copyExchange.rules [])
          (given (isEdited copyExchange) facts)) (fun _ => v) := by
      refine ⟨fun _ _ _ t invented => ?_, fun a joined name named => ?_, fun a joined op called => ?_⟩
      · rename_i x _ _
        cases position : x.skolem <;> rw [position] at invented <;> cases invented
      · cases List.mem_singleton.mp joined
        cases named
        exact given_subset_leastModel ⟨by decide, there⟩
      · cases List.mem_singleton.mp joined
        cases called
    exact divided.closed List.mem_cons_self supported

theorem copy_builds : ∃ program, build copyExchange copyCatalog =
      ((build copyExchange copyCatalog).1, .ok program) ∧
    (∀ s ∈ program.deletion, s.recursive = false) ∧ ∀ s ∈ program.insertion, s.recursive = false := by
  have flat : (build copyExchange copyCatalog).2.toOption.map (fun m =>
      m.deletion.all (!·.recursive) && m.insertion.all (!·.recursive)) = some true := by cbv
  rcases made : build copyExchange copyCatalog with ⟨marked, cause | program⟩
  · rw [made] at flat
    cases flat
  · rw [made] at flat
    simp only [Except.toOption, Option.map_some, Option.some.injEq, Bool.and_eq_true,
      List.all_eq_true, Bool.not_eq_true'] at flat
    exact ⟨program, rfl, flat⟩

-- A cycle over the copy ends with 2 and 3 in both.
theorem maintenance_exact_copy : ∃ program after, build copyExchange copyCatalog =
      ((build copyExchange copyCatalog).1, .ok program) ∧
    Run.Ends ((integers.machine (build copyExchange copyCatalog).1 1).runProgram program)
      ⟨copyTables, {}⟩ () after ∧
    after.state.facts .base "E" = {[2], [3]} ∧ after.state.facts .base "P" = {[2], [3]} := by
  obtain ⟨program, built, flatDeletion, flatInsertion⟩ := copy_builds
  have contents (name : String) (known : name = "E" ∨ name = "P") :
      copyTables.facts .base name = {[1], [2]} := by
    ext t
    constructor
    · rintro ⟨e, ⟨-, either⟩, rfl⟩
      exact either
    · intro either
      exact ⟨⟨t, none⟩, ⟨known, either⟩, rfl⟩
  obtain ⟨after, ended, edits, derives, -⟩ := maintenance_exact integers 1 copyTables copy_maintainable
    built
    (by
      intro name edits relation found kind t there
      cases copy_edited.mp edits
      cases found
      obtain ⟨e, stored, rfl⟩ := there
      cases kind with
      | base => rcases stored.2 with same | same <;> rw [same] <;> rfl
      | insertion => rw [stored.2]; rfl
      | deletion => rw [stored.2]; rfl)
    (by
      intro name derives
      cases copy_derived.mp derives
      rw [copy_leastModel _ (by rw [contents "E" (.inl rfl)]; rintro t (rfl | rfl) <;> rfl),
        contents "P" (.inr rfl), contents "E" (.inl rfl)])
    (by
      intro name derives
      cases copy_derived.mp derives
      exact ⟨Set.eq_empty_of_forall_notMem fun e both => absurd both.1 (by decide),
        Set.eq_empty_of_forall_notMem fun e both => absurd both.1 (by decide)⟩)
    (by
      intro stratum rounds failed
      obtain ⟨_, _, ended⟩ := @flat_finishes _ integers (build copyExchange copyCatalog).1 1 program
        flatDeletion flatInsertion ⟨copyTables, {}⟩
      rw [show _ = _ from ended] at failed
      cases failed)
  have edited : after.state.facts .base "E" = {[2], [3]} := by
    rw [edits "E" (by decide), contents "E" (.inl rfl)]
    ext t
    constructor
    · rintro (⟨rfl | rfl, kept⟩ | ⟨e, ⟨-, three⟩, rfl⟩)
      · exact absurd ⟨⟨[1], none⟩, ⟨rfl, rfl⟩, rfl⟩ kept
      · exact .inl rfl
      · exact .inr three
    · rintro (rfl | rfl)
      · refine .inl ⟨.inr rfl, ?_⟩
        rintro ⟨e, ⟨-, one⟩, two⟩
        cases one.symm.trans two
      · exact .inr ⟨⟨[3], none⟩, ⟨rfl, rfl⟩, rfl⟩
  refine ⟨program, after, built, ended, edited, ?_⟩
  rw [derives "P" (by decide), copy_leastModel, edited]
  rw [edited]
  rintro t (rfl | rfl) <;> rfl

end Copying

end Maintenance

end PeerExchange
