import PeerExchange.Proofs.Deletion

namespace PeerExchange

namespace Maintenance

variable {D : Type} {I : Interpretation D} {catalog : Catalog} {k : Int} {limit : Nat}
  {rules : List Rule} {edited derived below : String → Prop} {s : Stratum} {db prev start : Tables D}
  {relations : List (String × Relation)} {name : String} {t : List D}

def outcome (I : Interpretation D) (rules : List Rule) (edited : String → Prop)
    (start : Tables D) : Facts D :=
  leastModel I rules (given edited fun name =>
    (start.facts .base name \ start.facts .deletion name) ∪ start.facts .insertion name)

structure Resolved (catalog : Catalog) (s : Stratum) (relations : List (String × Relation)) : Prop where
  known : ∀ entry ∈ relations, entry.1 ∈ s.relations ∧ catalog.relations.get? entry.1 = some entry.2
  complete : ∀ name ∈ s.relations, ∃ relation, (name, relation) ∈ relations

-- Tuples are as long as their relation has columns.
def Fits (catalog : Catalog) (edited derived : String → Prop) (facts : Facts D) : Prop :=
  ∀ name, edited name ∨ derived name → ∀ relation, catalog.relations.get? name = some relation →
    ∀ t ∈ facts name, t.length = relation.arity

theorem survivors_subset_outcome :
    survivors I rules edited start name ⊆ outcome I rules edited start name :=
  leastModel_mono fun _ _ inside => ⟨inside.1, .inl inside.2⟩

section Merging

variable {relation : Relation} {recursive : Bool} {other : String} {kind : TableKind} {e : Entry D}

theorem mergeRule_action : (mergeRule relation name recursive).action = .derive := by
  unfold mergeRule
  cases recursive <;> rfl

theorem mergeRule_derives :
    (mergeRule relation name recursive).Derives I catalog db k other kind e ↔
      other = name ∧ kind = .base ∧ ∃ stored ∈ db name .insertion,
        stored.tuple.length = relation.arity ∧ (recursive = true → stored.stamp = some k) ∧
        e = ⟨stored.tuple, (mergeRule relation name recursive).headStamp catalog k name .base⟩ := by
  have guarded (stored : Entry D) :
      (∀ n, (mergeRule relation name recursive).guardStamp k 0 = some n → stored.stamp = some n) ↔
        (recursive = true → stored.stamp = some k) := by
    unfold mergeRule Rule.guardStamp
    cases recursive
    · exact ⟨nofun, nofun⟩
    · have offset : k + (0 : Int) = k := Int.add_zero k
      simp [offset]
  have shape := @tableRule_derives _ I catalog db k relation name other "_merge" .derive .base .insertion
    kind (mergeRule relation name recursive) e
  simp only [guarded] at shape
  refine shape ?_ ?_ ?_ <;> unfold mergeRule <;> cases recursive <;> rfl

theorem mergeRule_writes (written : (mergeRule relation name recursive).Writes other kind) :
    kind = .base ∧ other = name := by
  obtain ⟨a, member, named, same⟩ := written
  unfold mergeRule at member
  cases recursive <;> cases List.mem_singleton.mp member <;>
    exact ⟨same.symm, Option.some.inj named.symm⟩

theorem mergeRule_keeps_pending : (mergeRule relation name recursive).runOn I catalog k db other .insertion =
    db other .insertion :=
  Rule.runOn_frame fun written => absurd (mergeRule_writes written).1 (by decide)

def mergeGroup (relations : List (String × Relation)) (recursive : Bool) : List Rule :=
  relations.map fun entry => mergeRule entry.2 entry.1 recursive

theorem mergeGroup_confined (resolved : Resolved catalog s relations) :
    Confined .base (· ∈ s.relations) db
      (Rule.runRules I catalog k (mergeGroup relations recursive) db).1 := by
  refine confined_runRules ?_ confined_refl
  intro rule member name other written
  obtain ⟨entry, inside, rfl⟩ := List.mem_map.mp member
  obtain ⟨rfl, rfl⟩ := mergeRule_writes written
  exact ⟨rfl, (resolved.known entry inside).1⟩

theorem mergeGroup_grows :
    Grows db (Rule.runRules I catalog k (mergeGroup relations recursive) db).1 := by
  refine grows_runRules fun rule member => ?_
  obtain ⟨entry, -, rfl⟩ := List.mem_map.mp member
  exact mergeRule_action

theorem mergeGroup_brings (resolved : Resolved catalog s relations) (inside : name ∈ s.relations)
    (fits : ∀ relation, catalog.relations.get? name = some relation →
      e.tuple.length = relation.arity)
    (there : e ∈ db name .insertion) (stamp : recursive = true → e.stamp = some k) :
    e.tuple ∈ (Rule.runRules I catalog k (mergeGroup relations recursive) db).1.facts .base name := by
  obtain ⟨relation, listed⟩ := resolved.complete name inside
  have found := (resolved.known _ listed).2
  refine Rule.runRules_brings
    (fun next : Tables D => next name .insertion = db name .insertion)
    (fun next => e.tuple ∈ next.facts .base name) ?_ ?_
    (List.mem_map.mpr ⟨(name, relation), listed, rfl⟩) ?_ rfl
  · intro rule member next same
    obtain ⟨entry, -, rfl⟩ := List.mem_map.mp member
    exact mergeRule_keeps_pending.trans same
  · rintro rule member next - ⟨e', stored, tuple⟩
    obtain ⟨entry, -, rfl⟩ := List.mem_map.mp member
    exact ⟨e', (Rule.runOn_derive mergeRule_action).mpr (.inl stored), tuple⟩
  · intro next same
    exact ⟨_, (Rule.runOn_derive mergeRule_action).mpr (.inr (mergeRule_derives.mpr
      ⟨rfl, rfl, e, by rw [same]; exact there, fits relation found, stamp, rfl⟩)), rfl⟩

theorem mem_mergeGroup (resolved : Resolved catalog s relations) (inside : name ∈ s.relations)
    (fits : ∀ relation, catalog.relations.get? name = some relation →
      ∀ t ∈ db.facts .insertion name, t.length = relation.arity) :
    t ∈ (Rule.runRules I catalog k (mergeGroup relations recursive) db).1.facts .base name ↔
      t ∈ db.facts .base name ∨
        ∃ e ∈ db name .insertion, e.tuple = t ∧ (recursive = true → e.stamp = some k) := by
  constructor
  · rintro ⟨e, there, rfl⟩
    have kept := @Rule.runRules_keeps _ I catalog k db (mergeGroup relations recursive) (fun next =>
      (∀ name, next name .insertion = db name .insertion) ∧
        ∀ name, ∀ e ∈ next name .base, e.tuple ∈ db.facts .base name ∨
          ∃ stored ∈ db name .insertion, stored.tuple = e.tuple ∧
            (recursive = true → stored.stamp = some k)) ?_
      ⟨fun _ => rfl, fun _ e there => .inl ⟨e, there, rfl⟩⟩
    · exact kept.2 name e there
    · rintro rule member next ⟨same, old⟩
      obtain ⟨entry, -, rfl⟩ := List.mem_map.mp member
      refine ⟨fun name => ?_, fun name e there => ?_⟩
      · exact mergeRule_keeps_pending.trans (same name)
      · rcases (Rule.runOn_derive mergeRule_action).mp there with there | made
        · exact old name e there
        · obtain ⟨rfl, -, stored, inTable, -, stamp, rfl⟩ := mergeRule_derives.mp made
          rw [same] at inTable
          exact .inr ⟨stored, inTable, rfl, stamp⟩
  · rintro (⟨e, there, rfl⟩ | ⟨e, there, rfl, stamp⟩)
    · exact ⟨e, mergeGroup_grows name .base e there, rfl⟩
    · exact mergeGroup_brings resolved inside (fun relation found => fits relation found _ ⟨e, there, rfl⟩)
        there stamp

end Merging

def SoundlyInserted (I : Interpretation D) (rules : List Rule) (edited derived : String → Prop)
    (start : Tables D) (among : String → Prop) (db : Tables D) : Prop :=
  ∀ name, among name → edited name ∨ derived name → ∀ kind, kind ≠ .deletion →
    ∀ t ∈ db.facts kind name, t ∈ outcome I rules edited start name

abbrev upTo (below : String → Prop) (s : Stratum) (name : String) : Prop :=
  below name ∨ name ∈ s.relations

section Following

variable {inside : Bool}

theorem insertionGroup_follows (divided : Divided edited derived rules) (stamped : Stamped catalog s)
    {r : Rule} {θ : Valuation D} {a : Atom} {source : String} {e : Entry D} (member : r ∈ rules)
    (own : r.headRelation ∈ s.relations) (supported : r.Supports I (db.facts .base) θ)
    (joined : a ∈ r.body) (reads : a.relation? = some source)
    (flag : insideStratum s source = inside) (stored : e ∈ db source .insertion)
    (same : e.tuple = a.tuple I θ) (stamp : inside = true → e.stamp = some k) :
    r.headTuple I θ ∈ db.facts .base r.headRelation ∨
      ∃ new ∈ (Rule.runRules I catalog k (changeGroup inserting rules s inside) db).1
        r.headRelation .insertion, new.tuple = r.headTuple I θ ∧
          (s.recursive = true → new.stamp = some (if inside then k + 1 else 0)) := by
  subst flag
  refine Classical.or_iff_not_imp_left.mpr fun absent => ?_
  have simple := divided.simple r member
  obtain ⟨changed, group, brings⟩ := @exists_insertion _ I catalog k s.relations s.recursive r a source θ
    simple joined reads
  refine Rule.runRules_brings
    (fun next => Confined .insertion (targets s derived) db next ∧ Grows db next)
    (fun next => ∃ new ∈ next r.headRelation .insertion, new.tuple = r.headTuple I θ ∧
      (s.recursive = true → new.stamp = some (if insideStratum s source then k + 1 else 0))) ?_ ?_
    (mem_changeGroup.mpr ⟨r, member, own, group⟩) ?_ ⟨confined_refl, fun _ _ _ there => there⟩
  · rintro changed inGroup next ⟨confined, grows⟩
    exact ⟨confined_runOn (changeGroup_writes divided changed inGroup) confined,
      grows_runOn (changeGroup_action divided changed inGroup) grows⟩
  · rintro changed inGroup next - ⟨new, there, facts⟩
    exact ⟨new, (Rule.runOn_derive (changeGroup_action divided changed inGroup)).mpr (.inl there), facts⟩
  · rintro next ⟨confined, grows⟩
    have base := confined.facts_base (by decide)
    rcases brings next e (by rw [base]; exact supported) (grows _ _ e stored) same stamp with old | new
    · rw [base] at old
      exact absurd old absent
    · refine ⟨_, new, rfl, fun recursive => ?_⟩
      rw [headStamp_stamped stamped recursive own (by decide), changesOf_stampAt simple group]
      rfl

theorem insertionGroup_sound (divided : Divided edited derived rules) (layer : Layer rules below s)
    (sound : SoundlyInserted I rules edited derived start (upTo below s) db) :
    SoundlyInserted I rules edited derived start (upTo below s)
      (Rule.runRules I catalog k (changeGroup inserting rules s inside) db).1 := by
  refine Rule.runRules_keeps (SoundlyInserted I rules edited derived start (upTo below s)) ?_ sound
  rintro changed member next sound name among known kind pending t ⟨e, stored, rfl⟩
  rcases (Rule.runOn_derive (changeGroup_action divided changed member)).mp stored with there | made
  · exact sound name among known kind pending _ ⟨e, there, rfl⟩
  · obtain ⟨r, given, own, group⟩ := mem_changeGroup.mp member
    obtain ⟨rfl, -, -, θ, supported, same⟩ := changesOf_sound (divided.simple r given) group made
    rw [same]
    refine divided.closed given (supported.mono fun a joined source reads held => ?_)
    have place : upTo below s source :=
      (layer.reads r given own a joined source reads).imp_right And.right
    have known := divided.reads r given a joined source reads
    rcases held with inBase | inPending
    · exact sound source place known .base nofun _ inBase
    · exact sound source place known .insertion nofun _ inPending

theorem mergeGroup_sound (resolved : Resolved catalog s relations)
    (fits : Fits catalog edited derived (outcome I rules edited start)) {recursive : Bool}
    (sound : SoundlyInserted I rules edited derived start (upTo below s) db) :
    SoundlyInserted I rules edited derived start (upTo below s)
      (Rule.runRules I catalog k (mergeGroup relations recursive) db).1 := by
  intro name among known kind pending t there
  have confined := @mergeGroup_confined _ I catalog k s db relations recursive resolved
  by_cases written : kind = .base ∧ name ∈ s.relations
  · obtain ⟨rfl, inside⟩ := written
    have pendingFits (relation : Relation) (found : catalog.relations.get? name = some relation)
        (t : List D) (there : t ∈ db.facts .insertion name) : t.length = relation.arity :=
      fits name known relation found t (sound name among known .insertion nofun t there)
    rcases (mem_mergeGroup resolved inside pendingFits).mp there with old | ⟨e, stored, rfl, -⟩
    · exact sound name among known .base nofun t old
    · exact sound name among known .insertion nofun _ ⟨e, stored, rfl⟩
  · rw [Tables.facts_congr (confined name kind written)] at there
    exact sound name among known kind pending t there

end Following

-- The tables while insertions are carried from below upwards. Below, the contents are those of the
-- outcome, and what is new among them is still pending.
structure Inserted (I : Interpretation D) (rules : List Rule) (edited derived : String → Prop)
    (start : Tables D) (below : String → Prop) (db : Tables D) : Prop where
  contents : ∀ name, below name → edited name ∨ derived name →
    db.facts .base name = outcome I rules edited start name
  pending : ∀ name, below name → edited name ∨ derived name →
    db.facts .insertion name ⊆ outcome I rules edited start name
  covered : ∀ name, below name → edited name ∨ derived name →
    ∀ t ∈ outcome I rules edited start name,
      t ∈ survivors I rules edited start name ∨ t ∈ db.facts .insertion name
  waiting : ∀ name, ¬ below name → edited name ∨ derived name →
    db.facts .base name = survivors I rules edited start name
  edits : ∀ name, ¬ below name → edited name →
    db.facts .insertion name = start.facts .insertion name
  empty : ∀ name, ¬ below name → derived name → db name .insertion = ∅

section Stratum

variable (divided : Divided edited derived rules) (layer : Layer rules below s)
  (stamped : Stamped catalog s) (resolved : Resolved catalog s relations)
  (fits : Fits catalog edited derived (outcome I rules edited start))
  (inserted : Inserted I rules edited derived start below prev)

include layer inserted in
theorem Inserted.sound : SoundlyInserted I rules edited derived start (upTo below s) prev := by
  intro name among known kind pending t there
  rcases among with lower | inside
  · cases kind with
    | base => exact inserted.contents name lower known ▸ there
    | insertion => exact inserted.pending name lower known there
    | deletion => exact absurd rfl pending
  · have above := layer.fresh name inside
    cases kind with
    | base =>
      rw [inserted.waiting name above known] at there
      exact survivors_subset_outcome there
    | insertion =>
      rcases known with edits | derives
      · rw [inserted.edits name above edits] at there
        exact given_subset_leastModel ⟨edits, .inr there⟩
      · obtain ⟨e, stored, -⟩ := there
        rw [inserted.empty name above derives] at stored
        cases stored
    | deletion => exact absurd rfl pending

include divided layer stamped inserted in
theorem seed_covers {r : Rule} {θ : Valuation D} (member : r ∈ rules)
    (own : r.headRelation ∈ s.relations) (supported : r.Supports I (prev.facts .base) θ) :
    r.headTuple I θ ∈ survivors I rules edited start r.headRelation ∨
      ∃ new ∈ (Rule.runRules I catalog 0 (changeGroup inserting rules s false) prev).1
        r.headRelation .insertion, new.tuple = r.headTuple I θ ∧
          (s.recursive = true → new.stamp = some 0) := by
  by_cases changed : ∃ a ∈ r.body, ∃ source, a.relation? = some source ∧ below source ∧
      a.tuple I θ ∈ prev.facts .insertion source
  · obtain ⟨a, joined, source, reads, lower, e, stored, same⟩ := changed
    have outside : insideStratum s source = false :=
      Bool.eq_false_iff.mpr fun flag => layer.fresh source (insideStratum_iff.mp flag).2 lower
    rcases insertionGroup_follows divided stamped member own supported joined reads outside stored same
      nofun with old | new
    · rw [inserted.waiting _ (layer.fresh _ own) (.inr (divided.heads r member))] at old
      exact .inl old
    · exact .inr new
  · left
    refine divided.closed member (supported.mono fun a joined source reads held => ?_)
    have known := divided.reads r member a joined source reads
    by_cases lower : below source
    · rw [inserted.contents source lower known] at held
      exact (inserted.covered source lower known _ held).resolve_right
        fun there => changed ⟨a, joined, source, reads, lower, there⟩
    · rw [inserted.waiting source lower known] at held
      exact held

include inserted in
theorem inserted_of_stratum (outside : ∀ name, name ∉ s.relations → ∀ kind, db name kind = prev name kind)
    (sound : SoundlyInserted I rules edited derived start (upTo below s) db)
    (filled : ∀ name ∈ s.relations, edited name ∨ derived name →
      ∀ t ∈ outcome I rules edited start name, t ∈ db.facts .base name)
    (covered : ∀ name ∈ s.relations, edited name ∨ derived name →
      ∀ t ∈ outcome I rules edited start name,
        t ∈ survivors I rules edited start name ∨ t ∈ db.facts .insertion name) :
    Inserted I rules edited derived start (upTo below s) db where
  contents name among known := by
    by_cases inside : name ∈ s.relations
    · exact Set.Subset.antisymm (sound name among known .base nofun) (filled name inside known)
    · rw [Tables.facts_congr (outside name inside .base)]
      exact inserted.contents name (among.resolve_right inside) known
  pending name among known := sound name among known .insertion nofun
  covered name among known := by
    by_cases inside : name ∈ s.relations
    · exact covered name inside known
    · rw [Tables.facts_congr (outside name inside .insertion)]
      exact inserted.covered name (among.resolve_right inside) known
  waiting name above known := by
    rw [Tables.facts_congr (outside name (fun inside => above (.inr inside)) .base)]
    exact inserted.waiting name (fun lower => above (.inl lower)) known
  edits name above known := by
    rw [Tables.facts_congr (outside name (fun inside => above (.inr inside)) .insertion)]
    exact inserted.edits name (fun lower => above (.inl lower)) known
  empty name above derives := by
    rw [outside name (fun inside => above (.inr inside)) .insertion]
    exact inserted.empty name (fun lower => above (.inl lower)) derives

section Flat

variable {pruned : List (String × Relation)} (edits : ∀ entry ∈ pruned, edited entry.1 ∧ entry.1 ∈ s.relations)

noncomputable def seeded (I : Interpretation D) (catalog : Catalog) (rules : List Rule) (s : Stratum)
    (pruned : List (String × Relation)) (db : Tables D) : Tables D :=
  (Rule.runRules I catalog 0 (removalGroup "_prune" .insertion .base pruned)
    (Rule.runRules I catalog 0 (changeGroup inserting rules s false) db).1).1

include divided edits in
theorem seeded_confined : Confined .insertion (· ∈ s.relations) prev
    (seeded I catalog rules s pruned prev) := by
  intro name kind outside
  have first := @changeGroup_confined _ I catalog 0 rules _ _ s prev inserting false divided
  have second := @removalGroup_confined _ I catalog 0
    (Rule.runRules I catalog 0 (changeGroup inserting rules s false) prev).1 "_prune" .insertion .base pruned
    (· ∈ s.relations)
    fun entry member => (edits entry member).2
  rw [seeded, second name kind outside]
  exact first name kind fun both => outside ⟨both.1, both.2.1⟩

include divided layer inserted in
theorem seeded_sound : SoundlyInserted I rules edited derived start (upTo below s)
    (seeded I catalog rules s pruned prev) := by
  rintro name among known kind pending t ⟨e, stored, rfl⟩
  exact insertionGroup_sound divided layer (inserted.sound layer) name among known kind pending _
    ⟨e, removalGroup_shrinks name kind e stored, rfl⟩

include divided edits in
theorem seeded_derived (derives : derived name) : seeded I catalog rules s pruned prev name .insertion =
    (Rule.runRules I catalog 0 (changeGroup inserting rules s false) prev).1 name .insertion :=
  removalGroup_confined (fun entry member => (edits entry member).1) name .insertion
    fun both => divided.separate name both.2 derives

include divided layer stamped inserted edits in
theorem seeded_covered (flat : s.recursive = false) (inside : name ∈ s.relations)
    (known : edited name ∨ derived name) (there : t ∈ outcome I rules edited start name) :
    t ∈ survivors I rules edited start name ∨
      t ∈ (seeded I catalog rules s pruned prev).facts .insertion name := by
  have above := layer.fresh name inside
  rcases known with edited_ | derives
  · rw [outcome, divided.leastModel_edited edited_] at there
    rcases there with kept | ⟨e, stored, rfl⟩
    · exact .inl (given_subset_leastModel ⟨edited_, kept⟩)
    · have first := @changeGroup_confined _ I catalog 0 rules _ _ s prev inserting false divided
      have pending : e.tuple ∈ prev.facts .insertion name := by
        rw [inserted.edits name above edited_]
        exact ⟨e, stored, rfl⟩
      rw [← Tables.facts_congr (first name .insertion
        fun both => divided.separate name edited_ both.2.2)] at pending
      obtain ⟨e', stored', same⟩ := pending
      by_cases old : e'.tuple ∈ prev.facts .base name
      · rw [inserted.waiting name above (.inl edited_), same] at old
        exact .inl old
      · refine .inr ⟨e', removalGroup_keeps nofun stored' ?_, same⟩
        rw [first.facts_base (by decide)]
        exact old
  · have both := divided.induct (fun other => {t | t ∈ outcome I rules edited start other ∧
      (other ∈ s.relations → derived other → t ∈ survivors I rules edited start other ∨
        t ∈ (seeded I catalog rules s pruned prev).facts .insertion other)}) ?_ ?_ there
    · exact both.2 inside derives
    · intro other t member
      exact ⟨given_subset_leastModel member,
        fun _ derives => absurd derives (divided.separate other member.1)⟩
    · intro r member θ supported
      have reached : r.Supports I (outcome I rules edited start) θ :=
        supported.mono fun _ _ _ _ both => both.1
      refine ⟨divided.closed member reached, fun own derives => ?_⟩
      have inBase : r.Supports I (prev.facts .base) θ := by
        refine reached.mono fun a joined source reads held => ?_
        rcases layer.reads r member own a joined source reads with lower | ⟨recursive, -⟩
        · rw [inserted.contents source lower (divided.reads r member a joined source reads)]
          exact held
        · rw [flat] at recursive
          cases recursive
      rcases seed_covers divided layer stamped inserted member own inBase with old | ⟨new, stored, same, -⟩
      · exact .inl old
      · refine .inr ⟨new, ?_, same⟩
        rw [seeded_derived divided edits derives]
        exact stored

include divided layer stamped resolved fits inserted edits in
theorem inserted_flat (flat : s.recursive = false) :
    Inserted I rules edited derived start (upTo below s)
      (Rule.runRules I catalog 0 (mergeGroup relations false)
        (seeded I catalog rules s pruned prev)).1 := by
  have sound := @seeded_sound _ I catalog rules _ _ below s prev start divided layer inserted pruned
  have first := @seeded_confined _ I catalog rules _ _ s prev divided pruned edits
  have second := @mergeGroup_confined _ I catalog 0 s (seeded I catalog rules s pruned prev) relations
    false resolved
  refine inserted_of_stratum inserted ?_ (mergeGroup_sound resolved fits sound) ?_ ?_
  · intro name outside kind
    rw [second name kind fun both => outside both.2]
    exact first name kind fun both => outside both.2
  · intro name inside known t there
    refine (mem_mergeGroup resolved inside fun relation found t there =>
      fits name known relation found t (sound name (.inr inside) known .insertion nofun t there)).mpr ?_
    rcases seeded_covered divided layer stamped inserted edits flat inside known there with old | new
    · rw [first.facts_base (by decide), inserted.waiting name (layer.fresh name inside) known]
      exact .inl old
    · obtain ⟨e, stored, same⟩ := new
      exact .inr ⟨e, stored, same, nofun⟩
  · intro name inside known t there
    rw [Tables.facts_congr (second name .insertion fun both => nomatch both.1)]
    exact seeded_covered divided layer stamped inserted edits flat inside known there

end Flat

-- Inside a recursive stratum all insertions are merged, and bodies whose tuples in the stratum are
-- older than the round are followed.
structure Round (I : Interpretation D) (rules : List Rule) (edited derived : String → Prop)
    (start : Tables D) (below : String → Prop) (s : Stratum) (prev : Tables D) (k : Int)
    (db : Tables D) : Prop where
  outside : ∀ name, name ∉ s.relations → ∀ kind, db name kind = prev name kind
  sound : SoundlyInserted I rules edited derived start (upTo below s) db
  merged : ∀ name ∈ s.relations, ∀ t, t ∈ db.facts .base name ↔
    t ∈ survivors I rules edited start name ∨ t ∈ db.facts .insertion name
  stamps : ∀ name ∈ s.relations, ∀ e ∈ db name .insertion, ∃ j, e.stamp = some j ∧ j ≤ k
  closed : ∀ r ∈ rules, r.headRelation ∈ s.relations → ∀ θ, r.Supports I (db.facts .base) θ →
    (∀ a ∈ r.body, ∀ source ∈ s.relations, a.relation? = some source →
      a.tuple I θ ∈ survivors I rules edited start source ∨
        ∃ e ∈ db source .insertion, e.tuple = a.tuple I θ ∧ ∃ j, e.stamp = some j ∧ j < k) →
      r.headTuple I θ ∈ db.facts .base r.headRelation

section Recursive

variable (recursive : s.recursive = true)

include divided layer recursive in
theorem known_inside (inside : name ∈ s.relations) : derived name := by
  obtain ⟨r, given, rfl⟩ := layer.headed recursive name inside
  exact divided.heads r given

include divided layer fits recursive in
theorem inside_fits (sound : SoundlyInserted I rules edited derived start (upTo below s) db)
    (inside : name ∈ s.relations) (relation : Relation)
    (found : catalog.relations.get? name = some relation) (t : List D)
    (there : t ∈ db.facts .insertion name) : t.length = relation.arity :=
  have known := Or.inr (known_inside divided layer recursive inside)
  fits name known relation found t (sound name (.inr inside) known .insertion nofun t there)

include divided layer stamped resolved fits inserted recursive in
theorem round_start : Round I rules edited derived start below s prev 0
    (Rule.runRules I catalog 0 (mergeGroup relations true)
      (Rule.runRules I catalog 0 (changeGroup inserting rules s false) prev).1).1 := by
  have sound := @insertionGroup_sound _ I catalog 0 rules _ _ below s prev start false divided layer
    (inserted.sound layer)
  have first := @changeGroup_confined _ I catalog 0 rules _ _ s prev inserting false divided
  have second := @mergeGroup_confined _ I catalog 0 s
    (Rule.runRules I catalog 0 (changeGroup inserting rules s false) prev).1 relations true resolved
  have stamp {name : String} (inside : name ∈ s.relations) {e : Entry D} (stored : e ∈
      (Rule.runRules I catalog 0 (changeGroup inserting rules s false) prev).1 name .insertion) :
      e.stamp = some 0 := by
    refine (changeGroup_stamps divided stamped recursive (by decide) stored).resolve_left fun old => ?_
    rw [inserted.empty name (layer.fresh name inside) (known_inside divided layer recursive inside)] at old
    cases old
  have merged {name : String} (inside : name ∈ s.relations) (t : List D) :=
    @mem_mergeGroup _ I catalog 0 s _ relations name t true resolved inside
      (inside_fits divided layer fits recursive sound inside)
  have waits {name : String} (inside : name ∈ s.relations) :
      (Rule.runRules I catalog 0 (changeGroup inserting rules s false) prev).1.facts .base name =
        survivors I rules edited start name := by
    rw [first.facts_base (by decide), inserted.waiting name (layer.fresh name inside)
      (.inr (known_inside divided layer recursive inside))]
  refine ⟨?_, mergeGroup_sound resolved fits sound, ?_, ?_, ?_⟩
  · intro name outside kind
    rw [second name kind fun both => outside both.2]
    exact first name kind fun both => outside both.2.1
  · intro name inside t
    rw [merged inside t, waits inside,
      Tables.facts_congr (second name .insertion fun both => nomatch both.1)]
    refine or_congr_right ⟨?_, ?_⟩
    · rintro ⟨e, stored, same, -⟩
      exact ⟨e, stored, same⟩
    · rintro ⟨e, stored, same⟩
      exact ⟨e, stored, same, fun _ => stamp inside stored⟩
  · intro name inside e stored
    rw [second name .insertion fun both => nomatch both.1] at stored
    exact ⟨0, stamp inside stored, Int.le_refl 0⟩
  · intro r member own θ supported old
    have inBase : r.Supports I (prev.facts .base) θ := by
      refine supported.mono fun a joined source reads held => ?_
      by_cases inside : source ∈ s.relations
      · rcases old a joined source inside reads with kept | ⟨e, stored, -, j, stamped', early⟩
        · rw [← first.facts_base (by decide), waits inside]
          exact kept
        · rw [second source .insertion fun both => nomatch both.1] at stored
          cases (stamp inside stored).symm.trans stamped'
          exact absurd early (Int.lt_irrefl 0)
      · rw [Tables.facts_congr (second source .base fun both => inside both.2),
          first.facts_base (by decide)] at held
        exact held
    refine (merged own _).mpr ?_
    rcases seed_covers divided layer stamped inserted member own inBase with kept | ⟨new, stored, same, at_⟩
    · exact .inl (by rw [waits own]; exact kept)
    · exact .inr ⟨new, stored, same, fun _ => at_ recursive⟩

include divided stamped recursive in
theorem Round.advances (round : Round I rules edited derived start below s prev k db) {r : Rule}
    {θ : Valuation D} (member : r ∈ rules) (own : r.headRelation ∈ s.relations)
    (supported : r.Supports I (db.facts .base) θ) :
    r.headTuple I θ ∈ db.facts .base r.headRelation ∨
      ∃ new ∈ (Rule.runRules I catalog k (changeGroup inserting rules s true) db).1
        r.headRelation .insertion, new.tuple = r.headTuple I θ ∧ new.stamp = some (k + 1) := by
  by_cases old : ∀ a ∈ r.body, ∀ source ∈ s.relations, a.relation? = some source →
      a.tuple I θ ∈ survivors I rules edited start source ∨
        ∃ e ∈ db source .insertion, e.tuple = a.tuple I θ ∧ ∃ j, e.stamp = some j ∧ j < k
  · exact .inl (round.closed r member own θ supported old)
  · push Not at old
    obtain ⟨a, joined, source, inside, reads, lost, young⟩ := old
    have held := (round.merged source inside _).mp (supported.joined a joined source reads)
    obtain ⟨e, stored, same⟩ := held.resolve_left lost
    obtain ⟨j, stamp, early⟩ := round.stamps source inside e stored
    have late : k ≤ j := young e stored same j stamp
    have last : j = k := by omega
    rcases insertionGroup_follows divided stamped member own supported joined reads
      (insideStratum_iff.mpr ⟨recursive, inside⟩) stored same (fun _ => by rw [stamp, last])
      with there | ⟨new, stored, tuple, at_⟩
    · exact .inl there
    · exact .inr ⟨new, stored, tuple, at_ recursive⟩

include divided layer stamped resolved fits recursive in
theorem Round.step (round : Round I rules edited derived start below s prev k db) :
    Round I rules edited derived start below s prev (k + 1)
      (Rule.runRules I catalog (k + 1) (mergeGroup relations true)
        (Rule.runRules I catalog k (changeGroup inserting rules s true) db).1).1 := by
  have sound := @insertionGroup_sound _ I catalog k rules _ _ below s db start true divided layer round.sound
  have first := @changeGroup_confined _ I catalog k rules _ _ s db inserting true divided
  have second := @mergeGroup_confined _ I catalog (k + 1) s
    (Rule.runRules I catalog k (changeGroup inserting rules s true) db).1 relations true resolved
  have grown : Grows db (Rule.runRules I catalog k (changeGroup inserting rules s true) db).1 :=
    grows_runRules (changeGroup_action divided)
  have merged {name : String} (inside : name ∈ s.relations) (t : List D) :=
    @mem_mergeGroup _ I catalog (k + 1) s _ relations name t true resolved inside
      (inside_fits divided layer fits recursive sound inside)
  refine ⟨?_, mergeGroup_sound resolved fits sound, ?_, ?_, ?_⟩
  · intro name outside kind
    rw [second name kind fun both => outside both.2, first name kind fun both => outside both.2.1]
    exact round.outside name outside kind
  · intro name inside t
    rw [merged inside t, Tables.facts_congr (second name .insertion fun both => nomatch both.1),
      first.facts_base (by decide), round.merged name inside t]
    constructor
    · rintro ((kept | ⟨e, stored, same⟩) | ⟨e, stored, same, -⟩)
      · exact .inl kept
      · exact .inr ⟨e, grown name .insertion e stored, same⟩
      · exact .inr ⟨e, stored, same⟩
    · rintro (kept | ⟨e, stored, same⟩)
      · exact .inl (.inl kept)
      · rcases changeGroup_stamps divided stamped recursive (by decide) stored with old | new
        · exact .inl (.inr ⟨e, old, same⟩)
        · exact .inr ⟨e, stored, same, fun _ => new⟩
  · intro name inside e stored
    rw [second name .insertion fun both => nomatch both.1] at stored
    rcases changeGroup_stamps divided stamped recursive (by decide) stored with old | new
    · obtain ⟨j, stamp, early⟩ := round.stamps name inside e old
      exact ⟨j, stamp, by omega⟩
    · exact ⟨k + 1, new, Int.le_refl _⟩
  · intro r member own θ supported old
    have inBase : r.Supports I (db.facts .base) θ := by
      refine supported.mono fun a joined source reads held => ?_
      by_cases inside : source ∈ s.relations
      · refine (round.merged source inside _).mpr ?_
        rcases old a joined source inside reads with kept | ⟨e, stored, same, j, stamp, early⟩
        · exact .inl kept
        · rw [second source .insertion fun both => nomatch both.1] at stored
          rcases changeGroup_stamps divided stamped recursive (by decide) stored with there | new
          · exact .inr ⟨e, there, same⟩
          · cases stamp.symm.trans new
            exact absurd early (Int.lt_irrefl (k + 1))
      · rw [Tables.facts_congr (second source .base fun both => inside both.2),
          first.facts_base (by decide)] at held
        exact held
    refine (merged own _).mpr ?_
    rcases round.advances divided stamped recursive member own inBase with there | ⟨new, stored, same, stamp⟩
    · exact .inl (by rw [first.facts_base (by decide)]; exact there)
    · exact .inr ⟨new, stored, same, fun _ => stamp⟩

include divided layer stamped inserted recursive in
theorem Round.finish (round : Round I rules edited derived start below s prev k db)
    (stable : (Rule.runRules I catalog k (changeGroup inserting rules s true) db).1 = db) :
    Inserted I rules edited derived start (upTo below s) db := by
  have filled (name : String) (inside : name ∈ s.relations) (t : List D)
      (there : t ∈ outcome I rules edited start name) : t ∈ db.facts .base name := by
    have both := divided.induct (fun other => {t | t ∈ outcome I rules edited start other ∧
      (other ∈ s.relations → t ∈ db.facts .base other)}) ?_ ?_ there
    · exact both.2 inside
    · intro other t member
      exact ⟨given_subset_leastModel member, fun inside =>
        absurd (known_inside divided layer recursive inside) (divided.separate other member.1)⟩
    · intro r member θ supported
      have reached : r.Supports I (outcome I rules edited start) θ :=
        supported.mono fun _ _ _ _ both => both.1
      refine ⟨divided.closed member reached, fun own => ?_⟩
      have inBase : r.Supports I (db.facts .base) θ := by
        refine supported.mono fun a joined source reads both => ?_
        by_cases inside : source ∈ s.relations
        · exact both.2 inside
        · rcases layer.reads r member own a joined source reads with lower | ⟨-, inside'⟩
          · rw [Tables.facts_congr (round.outside source inside .base),
              inserted.contents source lower (divided.reads r member a joined source reads)]
            exact both.1
          · exact absurd inside' inside
      have advanced := @Round.advances _ I catalog k rules _ _ below s db prev start divided stamped
        recursive round r θ member own inBase
      rw [stable] at advanced
      rcases advanced with there | ⟨new, stored, same, -⟩
      · exact there
      · exact (round.merged _ own _).mpr (.inr ⟨new, stored, same⟩)
  refine inserted_of_stratum inserted round.outside round.sound (fun name inside _ => filled name inside) ?_
  exact fun name inside _ t there => (round.merged name inside t).mp (filled name inside t there)

end Recursive

theorem ends_insertionRound {m : Machine (Tables D)} {part : InsertionStratum} {changed : Nat}
    {before after : Running (Tables D)} (ended : Run.Ends (m.insertionRound part k) before changed after) :
    ∃ middle, Run.Ends (m.runGroup part.iterate k) before changed middle ∧
      if 0 < changed then ∃ merged, Run.Ends (m.runGroup part.merge (k + 1)) middle merged after
      else middle = after := by
  obtain ⟨count, middle, iterated, rest⟩ := Run.ends_bind.mp ended
  simp only at rest
  split at rest
  · rename_i moved
    obtain ⟨_, last, merging, returned⟩ := Run.ends_bind.mp rest
    obtain ⟨rfl, rfl⟩ := Run.ends_pure.mp returned
    exact ⟨middle, iterated, by rw [if_pos moved]; exact Run.ends_discard.mp merging⟩
  · rename_i still
    obtain ⟨rfl, rfl⟩ := Run.ends_pure.mp rest
    exact ⟨middle, iterated, by rw [if_neg still]⟩

variable {pruned : List (String × Relation)}
  (edits : ∀ entry ∈ pruned, edited entry.1 ∧ entry.1 ∈ s.relations)

include divided layer stamped resolved fits edits in
theorem runInsertion_inserted {index : Nat} {before after : Running (Tables D)}
    (inserted : Inserted I rules edited derived start below before.state)
    (ended : Run.Ends ((I.machine catalog limit).runInsertion
      (insertionStratum (ownRules rules s) relations pruned index s)) before () after) :
    Inserted I rules edited derived start (upTo below s) after.state := by
  have seedGroup : (insertionStratum (ownRules rules s) relations pruned index s).seed =
      changeGroup inserting rules s false ++ removalGroup "_prune" .insertion .base pruned := by
    rw [← (changeGroup_eq inserting rules s).1]
    rfl
  have iterateGroup : (insertionStratum (ownRules rules s) relations pruned index s).iterate =
      changeGroup inserting rules s true := (changeGroup_eq inserting rules s).2
  have mergedGroup : (insertionStratum (ownRules rules s) relations pruned index s).merge =
      mergeGroup relations s.recursive := rfl
  obtain ⟨_, seededState, seeding, rest⟩ := Run.ends_bind.mp ended
  obtain ⟨_, ran⟩ := Run.ends_discard.mp seeding
  obtain ⟨seedState, -⟩ := Interpretation.ends_runGroup.mp ran
  rw [seedGroup, Rule.runRules_append] at seedState
  split at rest
  · rename_i recursive
    obtain ⟨_, mergedState, merging, looping⟩ := Run.ends_bind.mp rest
    obtain ⟨_, ran⟩ := Run.ends_discard.mp merging
    obtain ⟨mergeState, -⟩ := Interpretation.ends_runGroup.mp ran
    have recursive : s.recursive = true := recursive
    have none : pruned = [] := List.eq_nil_iff_forall_not_mem.mpr fun entry member =>
      divided.separate _ (edits entry member).1
        (known_inside divided layer recursive (edits entry member).2)
    have first : Round I rules edited derived start below s before.state 0 mergedState.state := by
      rw [← mergeState, ← seedState, mergedGroup, none, recursive]
      exact round_start divided layer stamped resolved fits inserted recursive
    obtain ⟨last, previous, round, stable⟩ := Running.untilStable_ends
      (fun k db => Round I rules edited derived start below s before.state k db)
      (fun k from_ to_ changed round ran moved => by
        obtain ⟨middle, iterated, merged⟩ := ends_insertionRound ran
        rw [if_pos (Nat.pos_of_ne_zero moved)] at merged
        obtain ⟨_, merging⟩ := merged
        rw [← (Interpretation.ends_runGroup.mp merging).1,
          ← (Interpretation.ends_runGroup.mp iterated).1, iterateGroup, mergedGroup, recursive]
        exact round.step divided layer stamped resolved fits recursive) _ 0 first looping
    obtain ⟨middle, iterated, same⟩ := ends_insertionRound stable
    obtain ⟨rfl, none⟩ := Interpretation.ends_runGroup.mp iterated
    cases same
    rw [iterateGroup] at none ⊢
    have unchanged := (Rule.runRules_unchanged none).1
    have final := round.finish divided layer stamped inserted recursive unchanged
    rw [← unchanged] at final
    exact final
  · rename_i flat
    have flat : s.recursive = false := Bool.eq_false_iff.mpr flat
    obtain ⟨_, iteratedState, iterating, rest⟩ := Run.ends_bind.mp rest
    obtain ⟨_, ran⟩ := Run.ends_discard.mp iterating
    obtain ⟨iterateState, -⟩ := Interpretation.ends_runGroup.mp ran
    obtain ⟨_, ran⟩ := Run.ends_discard.mp rest
    obtain ⟨finalState, -⟩ := Interpretation.ends_runGroup.mp ran
    rw [iterateGroup, changeGroup_inside_nil divided flat] at iterateState
    rw [← finalState, ← iterateState, ← seedState, mergedGroup, flat]
    exact inserted_flat divided layer stamped resolved fits inserted edits flat

end Stratum

def InsertionOf (catalog : Catalog) (rules : List Rule) (edited : String → Prop) (s : Stratum)
    (part : InsertionStratum) : Prop :=
  ∃ relations pruned index, Resolved catalog s relations ∧
    (∀ entry ∈ pruned, edited entry.1 ∧ entry.1 ∈ s.relations) ∧
    part = insertionStratum (ownRules rules s) relations pruned index s

theorem runInsertions_inserted (divided : Divided edited derived rules)
    (fits : Fits catalog edited derived (outcome I rules edited start)) {strata : List Stratum}
    {parts : List InsertionStratum} (layers : Layers rules below strata)
    (stamped : ∀ s ∈ strata, Stamped catalog s)
    (shape : List.Forall₂ (InsertionOf catalog rules edited) strata parts)
    {before after : Running (Tables D)}
    (inserted : Inserted I rules edited derived start below before.state)
    (ended : Run.Ends (parts.forM (I.machine catalog limit).runInsertion) before () after) :
    Inserted I rules edited derived start (fun name => below name ∨ ∃ s ∈ strata, name ∈ s.relations)
      after.state := by
  induction shape generalizing below before with
  | nil =>
    cases Run.ends_forM_nil.mp ended
    simpa using inserted
  | @cons s part rest parts same _ ih =>
    obtain ⟨relations, pruned, index, resolved, edits, rfl⟩ := same
    obtain ⟨middle, one, more⟩ := Run.ends_forM_cons.mp ended
    have next := runInsertion_inserted divided layers.1 (stamped s List.mem_cons_self) resolved fits
      edits inserted one
    have final := ih layers.2 (fun s' member => stamped s' (List.mem_cons_of_mem _ member)) next more
    simpa only [List.mem_cons, exists_eq_or_imp, or_assoc] using final

end Maintenance

end PeerExchange
