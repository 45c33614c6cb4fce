import PeerExchange.Proofs.MaintenanceNames

namespace PeerExchange

def Tables.withoutContents {D : Type} (db : Tables D) (names : List String) : Tables D :=
  fun name kind => {e | e ∈ db name kind ∧ (name ∈ names → kind ≠ .base)}

namespace Maintenance

variable {D : Type} {I : Interpretation D} {catalog marked : Catalog} {limit : Nat} {x : Exchange}
  {program : Maintenance} {rules : List Rule} {db pending : Tables D} {name : String}

section Definitions

variable (I : Interpretation D) (x : Exchange) (catalog marked : Catalog) (limit : Nat)
  (program : Maintenance)

-- Local contributions become pending insertions, and what is maintained is emptied.
noncomputable def startOver (db : Tables D) : Tables D :=
  (Rule.runRules I marked 0 program.reset db).1.withoutContents program.relations

-- Edits are queued: the pending tables of edited relations hold any tuples, and nothing else moves.
structure Batch (db pending : Tables D) : Prop where
  others : ∀ name kind, (x.edb.has name = true → kind = .base) → pending name kind = db name kind
  fits : ∀ name, x.edb.has name = true → ∀ relation, catalog.relations.get? name = some relation →
    ∀ kind ≠ .base, ∀ t ∈ pending.facts kind name, t.length = relation.arity

-- What batches of edits, each carried through by a finished run, lead to from nothing at all.
inductive History : Tables D → Prop
  | empty : History fun _ _ => ∅
  | round {db pending : Tables D} {after : Running (Tables D)} (earlier : History db)
      (edits : Batch x catalog db pending)
      (ended : Run.Ends ((I.machine marked limit).runProgram program) ⟨pending, {}⟩ () after) :
      History after.state

-- Between two cycles: derived relations hold what the rules derive, nothing is pending, and nothing
-- is stored outside the program.
structure UpToDate (db : Tables D) : Prop where
  fits : ∀ name, x.edb.has name = true → ∀ relation, catalog.relations.get? name = some relation →
    ∀ t ∈ db.facts .base name, t.length = relation.arity
  derives : ∀ name, x.idb.has name = true → db.facts .base name =
    leastModel I x.rules (given (isEdited x) (db.facts .base)) name
  idle : ∀ name, x.edb.has name = true ∨ x.idb.has name = true →
    db name .insertion = ∅ ∧ db name .deletion = ∅
  elsewhere : ∀ name, ¬ (x.edb.has name = true ∨ x.idb.has name = true) → ∀ kind, db name kind = ∅

end Definitions

section Outside

theorem maintained_known (maintainable : x.Maintainable catalog) :
    (∃ s ∈ strataOf x, name ∈ s.relations) ↔ isEdited x name ∨ isDerived x name := by
  rw [maintained_iff]
  constructor
  · rintro ⟨root, known, leads⟩
    rcases Relation.ReflTransGen.cases_tail leads with rfl | ⟨_, -, edge⟩
    · exact known
    · obtain ⟨r, member, -, rfl⟩ := Stratification.edge_graph.mp edge
      obtain ⟨head, own, heads, named, -, derived, -⟩ := maintainable.heads r member
      rw [Rule.headRelation_of_head (by rw [Rule.head?, heads]; rfl) named]
      exact .inr derived
  · exact fun known => ⟨name, known, Relation.ReflTransGen.refl⟩

theorem mentioned_known (maintainable : x.Maintainable catalog)
    (built : build x catalog = (marked, .ok program)) {rule : Rule}
    (member : rule ∈ program.allRules) (mentions : Mentions rule name) :
    isEdited x name ∨ isDerived x name := by
  obtain ⟨s, present, inside | ⟨r, given, -, a, joined, named⟩⟩ :=
    (named_iff built).mp ⟨rule, member, mentions⟩
  · exact (maintained_known maintainable).mp ⟨s, present, inside⟩
  · exact ((maintainable.bodies r given a joined).2.2 name named).2

def Keeps (holds : Tables D → Prop) {α : Type} (act : Run (Running (Tables D)) α) : Prop :=
  ∀ s a t, Run.Ends act s a t → holds s.state → holds t.state

def KeptBy (I : Interpretation D) (marked : Catalog) (holds : Tables D → Prop) (rules : List Rule) :
    Prop := ∀ r ∈ rules, ∀ k db, holds db → holds (r.runOn I marked k db)

theorem keeps_machine (holds : Tables D → Prop) :
    (I.machine marked limit).Lifts (KeptBy I marked holds) (Keeps holds) where
  pure a s b t ended before := by
    obtain ⟨-, rfl⟩ := Run.ends_pure.mp ended
    exact before
  bind first next s b t ended before := by
    obtain ⟨a, middle, here, later⟩ := Run.ends_bind.mp ended
    exact next a middle b t later (first s a middle here before)
  diverged stratum s a t ended := by cases congrArg Prod.fst ended
  count f s a t ended before := by
    cases Running.ends_count.mp ended
    exact before
  group rules k _ _ each s n t ended before := by
    obtain ⟨rfl, -⟩ := Interpretation.ends_runGroup.mp ended
    exact Rule.runRules_keeps holds (fun r member => each r member k) before

theorem runProgram_keeps (holds : Tables D → Prop) (each : KeptBy I marked holds program.rules)
    (clear : ∀ own ∈ program.relations, ∀ db, holds db → holds (db.withoutPending own)) :
    Keeps holds ((I.machine marked limit).runProgram program) := by
  refine (keeps_machine holds).runProgram_rules each fun own listed s _ t ended before => ?_
  rw [← Interpretation.ends_clearPending.mp ended]
  exact clear own listed _ before

theorem runProgram_leaves (maintainable : x.Maintainable catalog)
    (built : build x catalog = (marked, .ok program)) {s t : Running (Tables D)}
    (ended : Run.Ends ((I.machine marked limit).runProgram program) s () t)
    (other : ¬ (isEdited x name ∨ isDerived x name)) : t.state name = s.state name := by
  refine runProgram_keeps (fun next => next name = s.state name) ?_ ?_ s () t ended rfl
  · intro r member k next same
    rw [← same]
    funext kind
    refine Rule.runOn_frame fun ⟨a, inHead, named, _⟩ => other ?_
    exact mentioned_known maintainable built (List.mem_append_left _ member)
      ⟨a, List.mem_append_left _ inHead, named⟩
  · intro own listed next same
    have differ : name ≠ own := by
      rintro rfl
      obtain ⟨-, -, -, -, -, -, relations⟩ := build_parts built
      rw [relations] at listed
      exact other ((maintained_known maintainable).mp (List.mem_flatMap.mp listed))
    rw [← same]
    funext kind
    ext e
    exact and_iff_left fun equal => absurd equal differ

end Outside

section Resetting

theorem mem_program_reset (maintainable : x.Maintainable catalog)
    (built : build x catalog = (marked, .ok program)) {rule : Rule} :
    rule ∈ program.reset ↔ ∃ own, isEdited x own ∧
      ∃ relation, marked.relations.get? own = some relation ∧ rule = resetRule relation own := by
  obtain ⟨-, -, parts, each, rfl⟩ := build_made built
  rw [List.mem_flatMap]
  constructor
  · rintro ⟨part, listed, inside⟩
    obtain ⟨s, -, index, made⟩ := Compiled.forall₂_source each listed
    obtain ⟨own, -, edits, resets⟩ := (mem_reset made).mp inside
    exact ⟨own, edits, resets⟩
  · rintro ⟨own, edits, resets⟩
    obtain ⟨s, present, inside⟩ := (maintained_known maintainable).mpr (.inl edits)
    obtain ⟨part, listed, index, made⟩ := Compiled.forall₂_result each present
    exact ⟨part, listed, (mem_reset made).mpr ⟨own, inside, edits, resets⟩⟩

theorem resetRule_writes {relation : Relation} {own : String} {kind : TableKind} :
    (resetRule relation own).Writes name kind ↔ kind = .insertion ∧ name = own := by
  refine ⟨tableRule_writes, ?_⟩
  rintro ⟨rfl, rfl⟩
  exact ⟨_, List.mem_cons_self, rfl, rfl⟩

theorem resetRule_facts {relation : Relation}
    (fits : ∀ t ∈ db.facts .base name, t.length = relation.arity) :
    ((resetRule relation name).runOn I marked 0 db).facts .insertion name = db.facts .base name := by
  have writes : (resetRule relation name).Writes name .insertion := resetRule_writes.mpr ⟨rfl, rfl⟩
  have replaced (e : Entry D) : e ∈ (resetRule relation name).runOn I marked 0 db name .insertion ↔
      (resetRule relation name).Derives I marked db 0 name .insertion e := by
    change _ ∨ (_ ∧ ¬ _) ↔ _
    exact or_iff_left fun old => old.2 writes
  ext t
  constructor
  · rintro ⟨e, made, rfl⟩
    obtain ⟨-, -, stored, inside, -, -, rfl⟩ :=
      (tableRule_derives rfl rfl rfl).mp ((replaced e).mp made)
    exact ⟨stored, inside, rfl⟩
  · rintro ⟨stored, inside, rfl⟩
    exact ⟨_, (replaced _).mpr ((tableRule_derives rfl rfl rfl).mpr ⟨rfl, rfl, stored, inside,
      fits _ (Tables.mem_facts_of_mem inside), nofun, rfl⟩), rfl⟩

theorem reset_facts (maintainable : x.Maintainable catalog)
    (built : build x catalog = (marked, .ok program)) (edits : isEdited x name)
    (fits : ∀ relation, marked.relations.get? name = some relation →
      ∀ t ∈ db.facts .base name, t.length = relation.arity) :
    (Rule.runRules I marked 0 program.reset db).1.facts .insertion name = db.facts .base name := by
  have known : ∃ s ∈ strataOf x, name ∈ s.relations := (maintained_known maintainable).mpr (.inl edits)
  obtain ⟨_, parts, each, -⟩ := build_parts built
  obtain ⟨relations, -, found, complete⟩ := apply_parts each
  obtain ⟨s, present, inside⟩ := known
  obtain ⟨relation, listed⟩ := complete s present name inside
  have got := found _ listed
  -- The contents stay, and once the rule of the relation has run its pending insertions do.
  refine Rule.runRules_brings (fun next : Tables D => next name .base = db name .base)
    (fun next => next.facts .insertion name = db.facts .base name) ?_ ?_
    ((mem_program_reset maintainable built).mpr ⟨name, edits, relation, got, rfl⟩) ?_ rfl
  · intro rule member next same
    obtain ⟨own, -, other, -, rfl⟩ := (mem_program_reset maintainable built).mp member
    have apart : ¬ (resetRule other own).Writes name .base := fun written =>
      nomatch (resetRule_writes.mp written).1
    rw [Rule.runOn_frame apart, same]
  · intro rule member next same brought
    obtain ⟨own, -, other, present, rfl⟩ := (mem_program_reset maintainable built).mp member
    by_cases own : own = name
    · subst own
      cases got.symm.trans present
      rw [resetRule_facts (by rw [Tables.facts_congr same]; exact fits relation got),
        Tables.facts_congr same]
    · rw [← brought]
      exact Tables.facts_congr (Rule.runOn_frame fun written => own (resetRule_writes.mp written).2.symm)
  · intro next same
    rw [resetRule_facts (by rw [Tables.facts_congr same]; exact fits relation got),
      Tables.facts_congr same]

theorem reset_others (maintainable : x.Maintainable catalog)
    (built : build x catalog = (marked, .ok program)) {kind : TableKind}
    (other : isEdited x name → kind ≠ .insertion) :
    (Rule.runRules I marked 0 program.reset db).1 name kind = db name kind := by
  refine Rule.runRules_keeps (fun next : Tables D => next name kind = db name kind) ?_ rfl
  intro rule member next same
  obtain ⟨own, edits, relation, -, rfl⟩ := (mem_program_reset maintainable built).mp member
  rw [← same]
  refine Rule.runOn_frame fun written => ?_
  obtain ⟨insertion, rfl⟩ := resetRule_writes.mp written
  exact other edits insertion

end Resetting

section Rounds

theorem fits_marked (marks : markStratified (recursiveNames x) catalog = (marked, .ok ()))
    {facts : Set (List D)} (fits : ∀ relation, catalog.relations.get? name = some relation →
      ∀ t ∈ facts, t.length = relation.arity) (relation : Relation)
    (found : marked.relations.get? name = some relation) : ∀ t ∈ facts, t.length = relation.arity := by
  intro t inside
  obtain ⟨old, present, columns, -⟩ := markStratified_get marks found
  rw [fits old present t inside, Relation.arity, Relation.arity, columns]

theorem leastModel_nothing (maintainable : x.Maintainable catalog)
    (joins : ∀ r ∈ x.rules, ∃ a ∈ r.body, a.relation?.isSome = true) (name : String) :
    leastModel I x.rules (fun _ => ∅) name = ∅ := by
  have plain : ∀ r ∈ x.rules, r.Plain := by
    intro r member a joined
    obtain ⟨positive, -, reads⟩ := maintainable.bodies r member a joined
    refine ⟨positive, fun isRelation => ?_⟩
    obtain ⟨source, named⟩ := Option.isSome_iff_exists.mp isRelation
    exact (reads source named).1
  refine Set.eq_empty_of_subset_empty (leastModel_subset (M := fun _ => ∅) (fun _ => subset_rfl) ?_)
  refine isModel_of_supports plain fun r member θ supported => ?_
  obtain ⟨a, joined, isRelation⟩ := joins r member
  obtain ⟨source, named⟩ := Option.isSome_iff_exists.mp isRelation
  exact (supported.joined a joined source named).elim

theorem upToDate_empty (maintainable : x.Maintainable catalog)
    (joins : ∀ r ∈ x.rules, ∃ a ∈ r.body, a.relation?.isSome = true) :
    UpToDate I x catalog fun _ _ => ∅ where
  fits _ _ _ _ t there := by
    obtain ⟨e, nowhere, -⟩ := there
    exact nowhere.elim
  derives name _ := by
    have nothing : given (isEdited x) (Tables.facts (fun _ _ => ∅ : Tables D) .base) = fun _ => ∅ := by
      funext other
      exact Set.eq_empty_of_forall_notMem fun t both => both.2.elim fun e nowhere => nowhere.1
    rw [nothing, leastModel_nothing maintainable joins name]
    exact Set.eq_empty_of_forall_notMem fun t there => there.elim fun e nowhere => nowhere.1
  idle _ _ := ⟨rfl, rfl⟩
  elsewhere _ _ _ := rfl

theorem run_settles (maintainable : x.Maintainable catalog)
    (built : build x catalog = (marked, .ok program))
    (fits : ∀ name, isEdited x name → ∀ relation, catalog.relations.get? name = some relation →
      ∀ kind, ∀ t ∈ db.facts kind name, t.length = relation.arity)
    (derives : ∀ name, isDerived x name → db.facts .base name =
      leastModel I x.rules (given (isEdited x) (db.facts .base)) name)
    (idle : ∀ name, isDerived x name → db name .insertion = ∅ ∧ db name .deletion = ∅)
    (elsewhere : ∀ name, ¬ (isEdited x name ∨ isDerived x name) → ∀ kind, db name kind = ∅)
    {after : Running (Tables D)}
    (ended : Run.Ends ((I.machine marked limit).runProgram program) ⟨db, {}⟩ () after) :
    UpToDate I x catalog after.state ∧ ∀ name, isEdited x name → after.state.facts .base name =
      (db.facts .base name \ db.facts .deletion name) ∪ db.facts .insertion name := by
  have divided := divided_of_maintainable maintainable (recursiveNames x)
  have results := runProgram_outcome maintainable built fits
    (fun name derived => by rw [leastModel_marked]; exact derives name derived) idle ended
  have edits (name : String) (edited : isEdited x name) : after.state.facts .base name =
      (db.facts .base name \ db.facts .deletion name) ∪ db.facts .insertion name := by
    rw [(results name (.inl edited)).1]
    exact divided.leastModel_edited edited
  refine ⟨⟨fun name edited relation found t there => ?_, fun name derived => ?_,
    fun name known => (results name known).2, fun name other kind => ?_⟩, edits⟩
  · rw [edits name edited] at there
    rcases there with old | new
    · exact fits name edited relation found .base t old.1
    · exact fits name edited relation found .insertion t new
  · have same : given (isEdited x) (after.state.facts .base) = given (isEdited x) fun name =>
        (db.facts .base name \ db.facts .deletion name) ∪ db.facts .insertion name := by
      funext other
      ext t
      exact and_congr_right fun edited => by rw [edits other edited]
    rw [(results name (.inr derived)).1, outcome, leastModel_marked, same]
  · rw [runProgram_leaves maintainable built ended other]
    exact elsewhere name other kind

theorem UpToDate.round (maintainable : x.Maintainable catalog)
    (built : build x catalog = (marked, .ok program)) (settled : UpToDate I x catalog db)
    (edits : Batch x catalog db pending) {after : Running (Tables D)}
    (ended : Run.Ends ((I.machine marked limit).runProgram program) ⟨pending, {}⟩ () after) :
    UpToDate I x catalog after.state ∧ ∀ name, isEdited x name → after.state.facts .base name =
      (db.facts .base name \ pending.facts .deletion name) ∪ pending.facts .insertion name := by
  have contents : pending.facts .base = db.facts .base :=
    funext fun name => Tables.facts_congr (edits.others name .base fun _ => rfl)
  have underived (name : String) (derived : isDerived x name) (kind : TableKind) :
      pending name kind = db name kind :=
    edits.others name kind fun edited => by cases (maintainable.separate name edited).symm.trans derived
  have ran := run_settles maintainable built (fun name edited relation found kind t there => ?_)
    (fun name derived => by rw [contents]; exact settled.derives name derived)
    (fun name derived => ?_) (fun name other kind => ?_) ended
  · rw [contents] at ran
    exact ran
  · by_cases base : kind = .base
    · subst base
      rw [contents] at there
      exact settled.fits name edited relation found t there
    · exact edits.fits name edited relation found kind base t there
  · rw [underived name derived, underived name derived]
    exact settled.idle name (.inr derived)
  · rw [edits.others name kind fun edited => absurd (.inl edited) other]
    exact settled.elsewhere name other kind

theorem History.upToDate (maintainable : x.Maintainable catalog)
    (joins : ∀ r ∈ x.rules, ∃ a ∈ r.body, a.relation?.isSome = true)
    (built : build x catalog = (marked, .ok program))
    (history : History I x catalog marked limit program db) : UpToDate I x catalog db := by
  induction history with
  | empty => exact upToDate_empty maintainable joins
  | round _ edits ended ih => exact (ih.round maintainable built edits ended).1

end Rounds

section Recomputing

theorem UpToDate.startOver_facts (maintainable : x.Maintainable catalog)
    (built : build x catalog = (marked, .ok program)) (settled : UpToDate I x catalog db) :
    (∀ name, isEdited x name → (startOver I marked program db).facts .insertion name =
      db.facts .base name) ∧
    ∀ name kind, (isEdited x name → kind ≠ .insertion) → startOver I marked program db name kind = ∅ := by
  obtain ⟨marks, -⟩ := build_parts built
  obtain ⟨-, -, -, -, -, -, relations⟩ := build_parts built
  have maintained (name : String) (known : isEdited x name ∨ isDerived x name) :
      name ∈ program.relations := by
    rw [relations]
    exact List.mem_flatMap.mpr ((maintained_known maintainable).mpr known)
  constructor
  · intro name edits
    rw [← reset_facts maintainable built edits (fits_marked marks (settled.fits name edits))]
    refine Tables.facts_congr ?_
    ext e
    exact and_iff_left fun _ => nofun
  · intro name kind other
    refine Set.eq_empty_of_forall_notMem fun e ⟨stored, kept⟩ => ?_
    rw [reset_others maintainable built other] at stored
    by_cases known : isEdited x name ∨ isDerived x name
    · cases kind with
      | base => exact kept (maintained name known) rfl
      | insertion => rw [(settled.idle name known).1] at stored; exact stored
      | deletion => rw [(settled.idle name known).2] at stored; exact stored
    · rw [settled.elsewhere name known kind] at stored
      exact stored

-- Recomputation is exact: after any history of edits, deriving everything anew from the local
-- contributions gives every relation the tuples that it had.
theorem recomputation_exact {D : Type} (I : Interpretation D) {x : Exchange} {catalog marked : Catalog}
    {program : Maintenance} {limit : Nat} {db : Tables D} (maintainable : x.Maintainable catalog)
    (joins : ∀ r ∈ x.rules, ∃ a ∈ r.body, a.relation?.isSome = true)
    (built : Maintenance.build x catalog = (marked, .ok program))
    (history : History I x catalog marked limit program db) {after : Running (Tables D)}
    (ended : Run.Ends ((I.machine marked limit).runProgram program)
      ⟨startOver I marked program db, {}⟩ () after) :
    ∀ name, after.state.facts .base name = db.facts .base name := by
  have settled := history.upToDate maintainable joins built
  obtain ⟨pending, nothing⟩ := settled.startOver_facts maintainable built
  have none (name : String) (kind : TableKind) (other : isEdited x name → kind ≠ .insertion) :
      (startOver I marked program db).facts kind name = ∅ := by
    refine Set.eq_empty_of_forall_notMem fun t ⟨e, stored, _⟩ => ?_
    rw [nothing name kind other] at stored
    exact stored
  have bare : given (isEdited x) ((startOver I marked program db).facts .base) = fun _ => ∅ :=
    funext fun other => Set.eq_empty_of_forall_notMem fun t both => by
      have inside := both.2
      rw [none other .base fun _ => nofun] at inside
      exact inside
  obtain ⟨again, edits⟩ := run_settles maintainable built (fun name edited relation found kind t there => by
      by_cases insertion : kind = .insertion
      · subst insertion
        rw [pending name edited] at there
        exact settled.fits name edited relation found t there
      · rw [none name kind fun _ => insertion] at there
        exact there.elim)
    (fun name derived => by
      rw [none name .base fun _ => nofun, bare, leastModel_nothing maintainable joins])
    (fun name derived => by
      have unedited : ¬ isEdited x name := fun edited => by
        cases (maintainable.separate name edited).symm.trans derived
      exact ⟨nothing name .insertion fun edited => absurd edited unedited,
        nothing name .deletion fun edited => absurd edited unedited⟩)
    (fun name other kind => nothing name kind fun edited => absurd (.inl edited) other) ended
  have edited (name : String) (own : isEdited x name) :
      after.state.facts .base name = db.facts .base name := by
    rw [edits name own, none name .base fun _ => nofun, Set.empty_sdiff, Set.empty_union,
      pending name own]
  intro name
  by_cases known : isEdited x name ∨ isDerived x name
  · rcases known with own | derived
    · exact edited name own
    · rw [again.derives name derived, settled.derives name derived]
      refine congrFun (congrArg (leastModel I x.rules) (funext fun other => ?_)) name
      ext t
      exact and_congr_right fun own => by rw [edited other own]
  · exact Tables.facts_congr ((again.elsewhere name known .base).trans
      (settled.elsewhere name known .base).symm)

end Recomputing

section Copying

def copyBatch (db : Tables Int) (new gone : Set (List Int)) : Tables Int := fun name kind =>
  match kind with
  | .base => db name .base
  | .insertion => {e | name = "E" ∧ e.tuple ∈ new ∨ name ≠ "E" ∧ e ∈ db name .insertion}
  | .deletion => {e | name = "E" ∧ e.tuple ∈ gone ∨ name ≠ "E" ∧ e ∈ db name .deletion}

theorem copy_joins : ∀ r ∈ copyExchange.rules, ∃ a ∈ r.body, a.relation?.isSome = true := by decide

theorem copyBatch_facts {db : Tables Int} {new gone : Set (List Int)} :
    (copyBatch db new gone).facts .insertion "E" = new ∧
      (copyBatch db new gone).facts .deletion "E" = gone := by
  constructor <;>
  · ext t
    constructor
    · rintro ⟨e, ⟨-, inside⟩ | ⟨other, -⟩, rfl⟩
      · exact inside
      · exact absurd rfl other
    · exact fun inside => ⟨⟨t, none⟩, .inl ⟨rfl, inside⟩, rfl⟩

theorem batch_copyBatch (db : Tables Int) {new gone : Set (List Int)}
    (fits : ∀ t ∈ new ∪ gone, t.length = 1) :
    Batch copyExchange copyCatalog db (copyBatch db new gone) where
  others name kind other := by
    cases kind with
    | base => rfl
    | insertion | deletion =>
      have apart : name ≠ "E" := fun same => nomatch other (copy_edited.mpr same)
      ext e
      exact ⟨fun either => (either.resolve_left fun same => apart same.1).2,
        fun old => .inr ⟨apart, old⟩⟩
  fits name edited relation found kind pending t there := by
    cases copy_edited.mp edited
    cases found
    cases kind with
    | base => exact absurd rfl pending
    | insertion =>
      rw [copyBatch_facts.1] at there
      exact fits t (.inl there)
    | deletion =>
      rw [copyBatch_facts.2] at there
      exact fits t (.inr there)

theorem copy_round {program : Maintenance} {marked : Catalog} {db : Tables Int}
    (new gone : Set (List Int)) (built : build copyExchange copyCatalog = (marked, .ok program))
    (finishes : Run.Finishes ((integers.machine marked 1).runProgram program))
    (history : History integers copyExchange copyCatalog marked 1 program db)
    (fits : ∀ t ∈ new ∪ gone, t.length = 1) :
    ∃ next, History integers copyExchange copyCatalog marked 1 program next ∧
      next.facts .base "E" = (db.facts .base "E" \ gone) ∪ new := by
  obtain ⟨⟨⟩, after, ended⟩ := finishes ⟨copyBatch db new gone, {}⟩
  have batch := batch_copyBatch db fits
  have settled := history.upToDate copy_maintainable copy_joins built
  refine ⟨after.state, history.round batch ended, ?_⟩
  rw [(settled.round copy_maintainable built batch ended).2 "E" (copy_edited.mpr rfl),
    copyBatch_facts.1, copyBatch_facts.2]

-- 1 and 2 come, 1 goes, and 2 is what both hold after everything is derived anew.
theorem recomputation_exact_copy : ∃ program db after, build copyExchange copyCatalog =
      ((build copyExchange copyCatalog).1, .ok program) ∧
    History integers copyExchange copyCatalog (build copyExchange copyCatalog).1 1 program db ∧
    Run.Ends ((integers.machine (build copyExchange copyCatalog).1 1).runProgram program)
      ⟨startOver integers (build copyExchange copyCatalog).1 program db, {}⟩ () after ∧
    after.state.facts .base "E" = {[2]} ∧ after.state.facts .base "P" = {[2]} := by
  obtain ⟨program, built, flatDeletion, flatInsertion⟩ := copy_builds
  have finishes := @flat_finishes _ integers (build copyExchange copyCatalog).1 1 program
    flatDeletion flatInsertion
  obtain ⟨first, history, contents⟩ := copy_round {[1], [2]} ∅ built finishes .empty
    (by rintro t ((rfl | rfl) | nowhere) <;> first | rfl | exact nowhere.elim)
  obtain ⟨db, history, edited⟩ := copy_round ∅ {[1]} built finishes history
    (by rintro t (nowhere | rfl) <;> first | exact nowhere.elim | rfl)
  have settled := history.upToDate copy_maintainable copy_joins built
  have two : db.facts .base "E" = {[2]} := by
    rw [edited, contents]
    ext t
    constructor
    · rintro (⟨(nowhere | rfl | rfl), kept⟩ | nowhere)
      · exact nowhere.1.elim fun e both => both.1.elim
      · exact absurd rfl kept
      · rfl
      · exact nowhere.elim
    · rintro rfl
      exact .inl ⟨.inr (.inr rfl), by decide⟩
  obtain ⟨⟨⟩, after, ended⟩ :=
    finishes ⟨startOver integers (build copyExchange copyCatalog).1 program db, {}⟩
  have same := recomputation_exact integers copy_maintainable copy_joins built history ended
  refine ⟨program, db, after, built, history, ended, (same "E").trans two, (same "P").trans ?_⟩
  rw [settled.derives "P" (copy_derived.mpr rfl), copy_leastModel, two]
  rw [two]
  rintro t rfl
  rfl

end Copying

end Maintenance

end PeerExchange
