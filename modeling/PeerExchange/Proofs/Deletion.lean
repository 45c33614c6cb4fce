import Mathlib.Data.List.Forall2
import PeerExchange.Proofs.Layers

namespace PeerExchange

namespace Maintenance

variable {D : Type} {I : Interpretation D} {catalog : Catalog} {k : Int} {limit : Nat}
  {rules : List Rule} {edited derived below : String → Prop} {s : Stratum} {db start : Tables D}
  {N : Facts D}

abbrev targets (s : Stratum) (derived : String → Prop) (name : String) : Prop :=
  name ∈ s.relations ∧ derived name

def Followed (I : Interpretation D) (rules : List Rule) (s : Stratum) (db : Tables D)
    (which : String → Entry D → Prop) : Prop :=
  ∀ r ∈ rules, r.headRelation ∈ s.relations → ∀ θ, r.Supports I (db.facts .base) θ →
    ∀ a ∈ r.body, ∀ source, a.relation? = some source → ∀ e ∈ db source .deletion,
      e.tuple = a.tuple I θ → which source e →
        r.headTuple I θ ∈ db.facts .deletion r.headRelation

def insideStratum (s : Stratum) (name : String) : Bool := s.recursive && s.relations.contains name

theorem insideStratum_iff {name : String} :
    insideStratum s name = true ↔ s.recursive = true ∧ name ∈ s.relations := by
  simp [insideStratum]

section OverDeletion

theorem deletionGroup_stamps (divided : Divided edited derived rules) (stamped : Stamped catalog s)
    (recursive : s.recursive = true) {inside : Bool} {name : String} {e : Entry D}
    (stored : e ∈ (Rule.runRules I catalog k (changeGroup deleting rules s inside) db).1 name .deletion) :
    e ∈ db name .deletion ∨ e.stamp = some (if inside then k else 0) := by
  have stamps := changeGroup_stamps divided stamped recursive (by decide) stored
  rwa [show k + deleting.stampOffset = k from Int.add_zero k] at stamps

theorem deletionGroup_follows (divided : Divided edited derived rules) {inside : Bool} {r : Rule}
    {θ : Valuation D} {a : Atom} {source : String} {e : Entry D} (member : r ∈ rules)
    (own : r.headRelation ∈ s.relations) (supported : r.Supports I (db.facts .base) θ)
    (joined : a ∈ r.body) (reads : a.relation? = some source)
    (flag : insideStratum s source = inside) (stored : e ∈ db source .deletion)
    (same : e.tuple = a.tuple I θ) (stamp : inside = true → e.stamp = some (k - 1)) :
    r.headTuple I θ ∈
      (Rule.runRules I catalog k (changeGroup deleting rules s inside) db).1.facts .deletion
        r.headRelation := by
  subst flag
  obtain ⟨changed, group, brings⟩ := @exists_deletion _ I catalog k s.relations s.recursive r a source θ
    (divided.simple r member) joined reads
  refine Rule.runRules_brings
    (fun next => Confined .deletion (targets s derived) db next ∧ Grows db next)
    (fun next => r.headTuple I θ ∈ next.facts .deletion r.headRelation) ?_ ?_
    (mem_changeGroup.mpr ⟨r, member, own, group⟩) ?_ ⟨confined_refl, fun _ _ _ there => there⟩
  · rintro changed inGroup next ⟨confined, grows⟩
    exact ⟨confined_runOn (changeGroup_writes divided changed inGroup) confined,
      grows_runOn (changeGroup_action divided changed inGroup) grows⟩
  · rintro changed inGroup next - ⟨e, there, tuple⟩
    exact ⟨e, (Rule.runOn_derive (changeGroup_action divided changed inGroup)).mpr (.inl there), tuple⟩
  · rintro next ⟨confined, grows⟩
    refine brings next e ?_ (grows _ _ e stored) same stamp
    rw [confined.facts_base nofun]
    exact supported

-- Deletions inside the stratum, followed up to those of the last two iterations.
structure Iterated (I : Interpretation D) (rules : List Rule) (s : Stratum)
    (derived : String → Prop) (start : Tables D) (k : Int) (db : Tables D) : Prop where
  confined : Confined .deletion (targets s derived) start db
  stamps : ∀ name ∈ s.relations, ∀ e ∈ db name .deletion, ∃ j, e.stamp = some j ∧ j < k
  followed : Followed I rules s db fun source e =>
    insideStratum s source = true → ∀ j, e.stamp = some j → j + 1 < k

theorem iterated_seed (divided : Divided edited derived rules) (stamped : Stamped catalog s)
    (recursive : s.recursive = true) (empty : ∀ name ∈ s.relations, start name .deletion = ∅) :
    Iterated I rules s derived start 1
      (Rule.runRules I catalog 0 (changeGroup deleting rules s false) start).1 where
  confined := @changeGroup_confined _ I catalog 0 _ _ _ s start deleting false divided
  stamps := by
    intro name inside e stored
    rcases deletionGroup_stamps divided stamped recursive stored with old | new
    · rw [empty name inside] at old
      cases old
    · exact ⟨0, new, by decide⟩
  followed := by
    intro r member own θ supported a joined source reads e stored same which
    have confined := @changeGroup_confined _ I catalog 0 _ _ _ s start deleting false divided
    rw [confined.facts_base nofun] at supported
    have outside : insideStratum s source = false := by
      by_contra within
      have within : insideStratum s source = true := by simpa using within
      have inside := (insideStratum_iff.mp within).2
      rcases deletionGroup_stamps divided stamped recursive stored with old | new
      · rw [empty source inside] at old
        cases old
      · exact absurd (which within 0 new) (by decide)
    have old : e ∈ start source .deletion := by
      rwa [confined source .deletion ?_] at stored
      rintro ⟨-, inside, -⟩
      cases outside.symm.trans (insideStratum_iff.mpr ⟨recursive, inside⟩)
    exact deletionGroup_follows divided member own supported joined reads outside old same nofun

theorem iterated_step (divided : Divided edited derived rules) (stamped : Stamped catalog s)
    (recursive : s.recursive = true) (iterated : Iterated I rules s derived start k db) :
    Iterated I rules s derived start (k + 1)
      (Rule.runRules I catalog k (changeGroup deleting rules s true) db).1 where
  confined := confined_runRules (changeGroup_writes divided) iterated.confined
  stamps := by
    intro name inside e stored
    rcases deletionGroup_stamps divided stamped recursive stored with old | new
    · obtain ⟨j, stamp, early⟩ := iterated.stamps name inside e old
      exact ⟨j, stamp, by omega⟩
    · exact ⟨k, new, by omega⟩
  followed := by
    intro r member own θ supported a joined source reads e stored same which
    have confined := @changeGroup_confined _ I catalog k _ _ _ s db deleting true divided
    rw [confined.facts_base nofun] at supported
    have grown {t : List D} (there : t ∈ db.facts .deletion r.headRelation) :
        t ∈ (Rule.runRules I catalog k (changeGroup deleting rules s true) db).1.facts .deletion
          r.headRelation := by
      obtain ⟨e, stored, tuple⟩ := there
      exact ⟨e, grows_runRules (changeGroup_action divided) _ _ e stored, tuple⟩
    rcases deletionGroup_stamps divided stamped recursive stored with old | new
    · by_cases within : insideStratum s source = true
      · have inside := (insideStratum_iff.mp within).2
        obtain ⟨j, stamp, early⟩ := iterated.stamps source inside e old
        -- Deletions of the last iteration are followed now, those before it were.
        by_cases last : j = k - 1
        · exact deletionGroup_follows divided member own supported joined reads within old same
            fun _ => by rw [stamp, last]
        · refine grown (iterated.followed r member own θ supported a joined source reads e old same ?_)
          intro _ i stamp'
          cases stamp.symm.trans stamp'
          omega
      · exact grown (iterated.followed r member own θ supported a joined source reads e old same
          fun flag => absurd flag within)
    · by_cases within : insideStratum s source = true
      · exact absurd (which within k new) (by omega)
      · refine grown (iterated.followed r member own θ supported a joined source reads e ?_ same
          fun flag => absurd flag within)
        rwa [confined source .deletion] at stored
        rintro ⟨-, inside, -⟩
        exact within (insideStratum_iff.mpr ⟨recursive, inside⟩)

theorem fixpoint_overDeletes (divided : Divided edited derived rules) (stamped : Stamped catalog s)
    (recursive : s.recursive = true) {index : Nat} {before after : Running (Tables D)}
    (iterated : Iterated I rules s derived start 1 before.state)
    (ended : Run.Ends ((I.machine catalog limit).fixpoint index 1
      ((I.machine catalog limit).runGroup (changeGroup deleting rules s true))) before () after) :
    Confined .deletion (targets s derived) start after.state ∧
      Followed I rules s after.state fun _ _ => True := by
  obtain ⟨last, previous, holds, stable⟩ := Running.untilStable_ends
    (fun k db => Iterated I rules s derived start k db)
    (fun k s t changed holds ran _ => by
      rw [← (Interpretation.ends_runGroup.mp ran).1]
      exact iterated_step divided stamped recursive holds) _ 1 iterated ended
  obtain ⟨rfl, none⟩ := Interpretation.ends_runGroup.mp stable
  have next := iterated_step divided stamped recursive holds
  have same := (Rule.runRules_unchanged none).1
  simp only [same] at next ⊢
  refine ⟨next.confined, ?_⟩
  intro r member own θ supported a joined source reads e stored tuple _
  refine next.followed r member own θ supported a joined source reads e stored tuple ?_
  intro within j stamp
  obtain ⟨i, stamp', early⟩ := holds.stamps source (insideStratum_iff.mp within).2 e stored
  cases stamp.symm.trans stamp'
  omega

theorem seed_overDeletes (divided : Divided edited derived rules) (layer : Layer rules below s)
    (flat : s.recursive = false) :
    Followed I rules s (Rule.runRules I catalog 0 (changeGroup deleting rules s false) start).1
      fun _ _ => True := by
  intro r member own θ supported a joined source reads e stored tuple _
  have confined := @changeGroup_confined _ I catalog 0 _ _ _ s start deleting false divided
  rw [confined.facts_base nofun] at supported
  have lower : below source := by
    rcases layer.reads r member own a joined source reads with lower | ⟨recursive, -⟩
    · exact lower
    · rw [flat] at recursive
      cases recursive
  rw [confined source .deletion fun both => layer.fresh source both.2.1 lower] at stored
  refine deletionGroup_follows divided member own supported joined reads ?_ stored tuple nofun
  rw [insideStratum, flat]
  rfl

end OverDeletion

def survivors (I : Interpretation D) (rules : List Rule) (edited : String → Prop)
    (start : Tables D) : Facts D :=
  leastModel I rules (given edited fun name => start.facts .base name \ start.facts .deletion name)

def Consistent (I : Interpretation D) (rules : List Rule) (edited derived : String → Prop)
    (start : Tables D) : Prop :=
  ∀ name, derived name →
    start.facts .base name = leastModel I rules (given edited (start.facts .base)) name

-- The tables while deletions are carried from below upwards: what is to be deleted is exactly what
-- does not survive.
structure Deleted (I : Interpretation D) (rules : List Rule) (edited derived : String → Prop)
    (start : Tables D) (below : String → Prop) (db : Tables D) : Prop where
  others : ∀ name kind, kind ≠ .deletion → db name kind = start name kind
  edits : ∀ name, ¬ derived name → db name .deletion = start name .deletion
  empty : ∀ name, derived name → ¬ below name → db name .deletion = ∅
  exact_ : ∀ name, below name → edited name ∨ derived name → ∀ t ∈ start.facts .base name,
    t ∉ db.facts .deletion name ↔ t ∈ survivors I rules edited start name

section Rederivation

variable {prev : Tables D} {name : String} {t : List D}

theorem Consistent.base_eq (consistent : Consistent I rules edited derived start)
    (divided : Divided edited derived rules) (known : edited name ∨ derived name) :
    start.facts .base name = leastModel I rules (given edited (start.facts .base)) name := by
  rcases known with edits | derives
  · exact (divided.leastModel_edited edits).symm
  · exact consistent name derives

theorem survivors_subset (consistent : Consistent I rules edited derived start)
    (divided : Divided edited derived rules) (known : edited name ∨ derived name) :
    survivors I rules edited start name ⊆ start.facts .base name := by
  rw [consistent.base_eq divided known]
  exact leastModel_mono fun _ _ inside => ⟨inside.1, inside.2.1⟩

theorem Deleted.facts_base (deleted : Deleted I rules edited derived start below prev)
    (confined : Confined .deletion (targets s derived) prev db) :
    db.facts .base = start.facts .base := by
  funext other
  rw [confined.facts_base nofun]
  exact Tables.facts_congr (deleted.others other .base nofun)

theorem Deleted.exact_lower (deleted : Deleted I rules edited derived start below prev)
    (divided : Divided edited derived rules) (layer : Layer rules below s)
    (confined : Confined .deletion (targets s derived) prev db) (known : edited name ∨ derived name)
    (lower : below name ∨ edited name) (stored : t ∈ start.facts .base name) :
    t ∉ db.facts .deletion name ↔ t ∈ survivors I rules edited start name := by
  have outside : ¬ targets s derived name := by
    rintro ⟨inside, derives⟩
    rcases lower with below | edits
    · exact layer.fresh name inside below
    · exact divided.separate name edits derives
  rw [Tables.facts_congr (confined name .deletion fun both => outside both.2)]
  rcases Classical.em (edited name) with edits | other
  · rw [Tables.facts_congr (deleted.edits name (divided.separate name edits)), survivors,
      divided.leastModel_edited edits]
    exact ⟨fun kept => ⟨stored, kept⟩, fun kept => kept.2⟩
  · exact deleted.exact_ name (lower.resolve_right other) known t stored

theorem followed_sound (divided : Divided edited derived rules) (layer : Layer rules below s)
    (consistent : Consistent I rules edited derived start)
    (deleted : Deleted I rules edited derived start below prev)
    (confined : Confined .deletion (targets s derived) prev db)
    (followed : Followed I rules s db fun _ _ => True) (inside : name ∈ s.relations)
    (derives : derived name) (stored : t ∈ start.facts .base name)
    (kept : t ∉ db.facts .deletion name) : t ∈ survivors I rules edited start name := by
  have base := deleted.facts_base confined
  rw [consistent name derives] at stored
  have either := divided.induct (fun other => {t |
      t ∈ leastModel I rules (given edited (start.facts .base)) other ∧
        (other ∈ s.relations → derived other →
          t ∈ survivors I rules edited start other ∨ t ∈ db.facts .deletion other)}) ?_ ?_ stored
  · exact (either.2 inside derives).resolve_right kept
  · intro other t member
    exact ⟨given_subset_leastModel member, fun _ derives => absurd derives (divided.separate other member.1)⟩
  · intro r member θ supported
    have inModel : r.Supports I (leastModel I rules (given edited (start.facts .base))) θ :=
      supported.mono fun _ _ _ _ both => both.1
    refine ⟨divided.closed member inModel, fun own _ => ?_⟩
    have inBase : r.Supports I (start.facts .base) θ := by
      refine inModel.mono fun a joined source reads inside => ?_
      rw [consistent.base_eq divided (divided.reads r member a joined source reads)]
      exact inside
    by_cases lost : ∃ a ∈ r.body, ∃ source, a.relation? = some source ∧
        a.tuple I θ ∈ db.facts .deletion source
    · obtain ⟨a, joined, source, reads, e, there, same⟩ := lost
      rw [← base] at inBase
      exact .inr (followed r member own θ inBase a joined source reads e there same trivial)
    · left
      refine divided.closed member (supported.mono fun a joined source reads both => ?_)
      have remains : a.tuple I θ ∉ db.facts .deletion source :=
        fun there => lost ⟨a, joined, source, reads, there⟩
      have known := divided.reads r member a joined source reads
      rcases layer.reads r member own a joined source reads with lower | ⟨recursive, within⟩
      · exact (deleted.exact_lower divided layer confined known (.inl lower)
          (inBase.joined a joined source reads)).mp remains
      · obtain ⟨r', given', rfl⟩ := layer.headed recursive source within
        exact (both.2 within (divided.heads r' given')).resolve_right remains

-- What is not to be deleted survives, in the stratum and below it.
structure SoundlyDeleted (I : Interpretation D) (rules : List Rule) (s : Stratum)
    (edited derived : String → Prop) (start prev db : Tables D) : Prop where
  confined : Confined .deletion (targets s derived) prev db
  sound : ∀ name ∈ s.relations, derived name → ∀ t ∈ start.facts .base name,
    t ∉ db.facts .deletion name → t ∈ survivors I rules edited start name

theorem rederiveRule_derives {r : Rule} {kind : TableKind} {e : Entry D} (simple : r.Simple) :
    (rederiveRule r).Derives I catalog db k name kind e ↔ name = r.headRelation ∧ kind = .deletion ∧
      ∃ θ, (r.Supports I (db.facts .base) θ ∧ ∀ a ∈ r.body, ∀ source, a.relation? = some source →
        a.tuple I θ ∉ db.facts .deletion source) ∧
        e = ⟨r.headTuple I θ, (rederiveRule r).headStamp catalog k r.headRelation .deletion⟩ := by
  obtain ⟨head, heads, named, -⟩ := simple.single
  have named' : (head.withKind .deletion).relation? = some r.headRelation := named
  rw [Rule.derives_single (rederiveRule_head heads) named']
  simp only [rederiveRule_matches simple.plain heads, Rule.headTuple_single heads]
  rfl

theorem rederiveRule_writes {r : Rule} {kind : TableKind} (simple : r.Simple) :
    (rederiveRule r).Writes name kind ↔ name = r.headRelation ∧ kind = .deletion := by
  obtain ⟨head, heads, named, -⟩ := simple.single
  exact @Rule.writes_single _ (head.withKind .deletion) _ _ _ (rederiveRule_head heads) named

variable (divided : Divided edited derived rules) (layer : Layer rules below s)
  (consistent : Consistent I rules edited derived start)
  (deleted : Deleted I rules edited derived start below prev)

include divided in
theorem rederive_writes : ∀ changed ∈ (ownRules rules s).map rederiveRule, ∀ name other,
    changed.Writes name other → other = .deletion ∧ targets s derived name := by
  intro changed member name other written
  obtain ⟨r, own, rfl⟩ := List.mem_map.mp member
  obtain ⟨given, inside⟩ := mem_ownRules.mp own
  obtain ⟨rfl, rfl⟩ := (rederiveRule_writes (divided.simple r given)).mp written
  exact ⟨rfl, inside, divided.heads r given⟩

include divided layer deleted in
theorem rederive_sound (sound : SoundlyDeleted I rules s edited derived start prev db) :
    SoundlyDeleted I rules s edited derived start prev
      (Rule.runRules I catalog k ((ownRules rules s).map rederiveRule) db).1 := by
  refine Rule.runRules_keeps (SoundlyDeleted I rules s edited derived start prev) ?_ sound
  intro changed member next sound
  refine ⟨confined_runOn (rederive_writes divided changed member) sound.confined, ?_⟩
  intro name inside derives t stored gone
  by_cases before : t ∈ next.facts .deletion name
  · obtain ⟨r, own, rfl⟩ := List.mem_map.mp member
    obtain ⟨given, -⟩ := mem_ownRules.mp own
    obtain ⟨e, there, rfl⟩ := before
    -- The tuple was taken back, so a body that does not meet deletions derives it.
    have taken : ∃ back, (rederiveRule r).Derives I catalog next k name .deletion back ∧
        back.tuple = e.tuple := by
      by_contra none
      refine gone ⟨e, (Rule.runOn_retract rfl).mpr ⟨there, fun back made same => ?_⟩, rfl⟩
      exact none ⟨back, made, same⟩
    obtain ⟨back, made, same⟩ := taken
    obtain ⟨rfl, -, θ, ⟨supported, clear⟩, rfl⟩ :=
      (rederiveRule_derives (divided.simple r given)).mp made
    rw [← same]
    have base := deleted.facts_base sound.confined
    refine divided.closed given (supported.mono fun a joined source reads held => ?_)
    rw [base] at held
    have remains := clear a joined source reads
    rcases layer.reads r given inside a joined source reads with lower | ⟨recursive, within⟩
    · exact (deleted.exact_lower divided layer sound.confined
        (divided.reads r given a joined source reads) (.inl lower) held).mp remains
    · obtain ⟨r', given', rfl⟩ := layer.headed recursive source within
      exact sound.sound _ within (divided.heads r' given') _ held remains
  · exact sound.sound name inside derives t stored before

def Rederived (I : Interpretation D) (rules : List Rule) (s : Stratum) (db : Tables D) : Prop :=
  ∀ r ∈ rules, r.headRelation ∈ s.relations → ∀ θ, r.Supports I (db.facts .base) θ →
    (∀ a ∈ r.body, ∀ source, a.relation? = some source → a.tuple I θ ∉ db.facts .deletion source) →
      r.headTuple I θ ∉ db.facts .deletion r.headRelation

theorem rederive_removes {r : Rule} {θ : Valuation D} (simple : r.Simple)
    (supported : r.Supports I (db.facts .base) θ)
    (clear : ∀ a ∈ r.body, ∀ source, a.relation? = some source →
      a.tuple I θ ∉ db.facts .deletion source) :
    r.headTuple I θ ∉ ((rederiveRule r).runOn I catalog k db).facts .deletion r.headRelation := by
  rintro ⟨e, there, same⟩
  obtain ⟨-, kept⟩ := (Rule.runOn_retract rfl).mp there
  exact kept _ ((rederiveRule_derives simple).mpr ⟨rfl, rfl, θ, ⟨supported, clear⟩, rfl⟩) same.symm

include divided in
theorem rederived_of_stable (stable : ∀ changed ∈ (ownRules rules s).map rederiveRule,
    changed.runOn I catalog k db = db) : Rederived I rules s db := by
  intro r member own θ supported clear
  have removed := @rederive_removes _ I catalog k db _ _ (divided.simple r member) supported clear
  rwa [stable _ (List.mem_map.mpr ⟨r, mem_ownRules.mpr ⟨member, own⟩, rfl⟩)] at removed

include divided layer in
theorem rederived_of_flat (flat : s.recursive = false) :
    Rederived I rules s (Rule.runRules I catalog k ((ownRules rules s).map rederiveRule) db).1 := by
  intro r member own θ supported clear
  have confined : Confined .deletion (targets s derived) db
      (Rule.runRules I catalog k ((ownRules rules s).map rederiveRule) db).1 :=
    confined_runRules (rederive_writes divided) confined_refl
  have lower (a : Atom) (joined : a ∈ r.body) (source : String) (reads : a.relation? = some source) :
      ¬ targets s derived source := by
    rintro ⟨inside, -⟩
    rcases layer.reads r member own a joined source reads with below | ⟨recursive, -⟩
    · exact layer.fresh source inside below
    · rw [flat] at recursive
      cases recursive
  refine Rule.runRules_brings (Confined .deletion (targets s derived) db)
    (fun next => r.headTuple I θ ∉ next.facts .deletion r.headRelation)
    (fun changed inGroup next => confined_runOn (rederive_writes divided changed inGroup)) ?_
    (List.mem_map.mpr ⟨r, mem_ownRules.mpr ⟨member, own⟩, rfl⟩) ?_ confined_refl
  · rintro changed inGroup next - absent ⟨e, there, same⟩
    obtain ⟨r', -, rfl⟩ := List.mem_map.mp inGroup
    exact absent ⟨e, ((Rule.runOn_retract rfl).mp there).1, same⟩
  · intro next kept
    refine rederive_removes (divided.simple r member) ?_ fun a joined source reads => ?_
    · rw [kept.facts_base nofun, ← confined.facts_base nofun]
      exact supported
    · have clear := clear a joined source reads
      rw [Tables.facts_congr (confined source .deletion fun both => lower a joined source reads both.2)]
        at clear
      rw [Tables.facts_congr (kept source .deletion fun both => lower a joined source reads both.2)]
      exact clear

include divided layer consistent deleted in
theorem rederived_complete (sound : SoundlyDeleted I rules s edited derived start prev db)
    (rederived : Rederived I rules s db) (inside : name ∈ s.relations) (derives : derived name)
    (survives : t ∈ survivors I rules edited start name) : t ∉ db.facts .deletion name := by
  have base := deleted.facts_base sound.confined
  have both := divided.induct (fun other => {t | t ∈ survivors I rules edited start other ∧
      (other ∈ s.relations → derived other → t ∉ db.facts .deletion other)}) ?_ ?_ survives
  · exact both.2 inside derives
  · intro other t member
    exact ⟨given_subset_leastModel member, fun _ derives => absurd derives (divided.separate other member.1)⟩
  · intro r member θ supported
    have surviving : r.Supports I (survivors I rules edited start) θ :=
      supported.mono fun _ _ _ _ both => both.1
    refine ⟨divided.closed member surviving, fun own _ => ?_⟩
    have inBase (a : Atom) (joined : a ∈ r.body) (source : String) (reads : a.relation? = some source) :
        a.tuple I θ ∈ start.facts .base source :=
      survivors_subset consistent divided (divided.reads r member a joined source reads)
        (surviving.joined a joined source reads)
    refine rederived r member own θ ?_ fun a joined source reads => ?_
    · rw [base]
      exact surviving.mono fun a joined source reads _ => inBase a joined source reads
    · rcases layer.reads r member own a joined source reads with lower | ⟨recursive, within⟩
      · exact (deleted.exact_lower divided layer sound.confined
          (divided.reads r member a joined source reads) (.inl lower)
          (inBase a joined source reads)).mpr (surviving.joined a joined source reads)
      · obtain ⟨r', given', rfl⟩ := layer.headed recursive source within
        exact (supported.joined a joined _ reads).2 within (divided.heads r' given')

include divided layer consistent deleted in
theorem deleted_of_rederived (sound : SoundlyDeleted I rules s edited derived start prev db)
    (rederived : Rederived I rules s db) :
    Deleted I rules edited derived start (fun name => below name ∨ name ∈ s.relations) db where
  others name kind other :=
    (sound.confined name kind fun both => other both.1).trans (deleted.others name kind other)
  edits name other :=
    (sound.confined name .deletion fun both => other both.2.2).trans (deleted.edits name other)
  empty name derives outside := by
    rw [sound.confined name .deletion fun both => outside (.inr both.2.1)]
    exact deleted.empty name derives fun lower => outside (.inl lower)
  exact_ name place known t stored := by
    rcases place with lower | inside
    · exact deleted.exact_lower divided layer sound.confined known (.inl lower) stored
    · rcases known with edits | derives
      · exact deleted.exact_lower divided layer sound.confined (.inl edits) (.inr edits) stored
      · exact ⟨sound.sound name inside derives t stored,
          rederived_complete divided layer consistent deleted sound rederived inside derives⟩

include divided layer consistent in
theorem runDeletion_deleted (stamped : Stamped catalog s) {index : Nat}
    {before after : Running (Tables D)}
    (deleted : Deleted I rules edited derived start below before.state)
    (ended : Run.Ends ((I.machine catalog limit).runDeletion
      (deletionStratum (ownRules rules s) index s)) before () after) :
    Deleted I rules edited derived start (fun name => below name ∨ name ∈ s.relations) after.state := by
  obtain ⟨_, seeded, seeding, rest⟩ := Run.ends_bind.mp ended
  obtain ⟨_, ran⟩ := Run.ends_discard.mp seeding
  obtain ⟨seedState, -⟩ := Interpretation.ends_runGroup.mp ran
  have seedGroup : (deletionStratum (ownRules rules s) index s).seed =
      changeGroup deleting rules s false := (changeGroup_eq deleting rules s).1
  have iterateGroup : (deletionStratum (ownRules rules s) index s).iterate =
      changeGroup deleting rules s true := (changeGroup_eq deleting rules s).2
  rw [seedGroup] at seedState
  rw [iterateGroup] at rest
  split at rest
  · rename_i recursive
    obtain ⟨_, closed, closing, rest⟩ := Run.ends_bind.mp rest
    have start_ : Iterated I rules s derived before.state 1 seeded.state := by
      rw [← seedState]
      exact iterated_seed divided stamped recursive fun name inside => by
        obtain ⟨r, given, rfl⟩ := layer.headed recursive name inside
        exact deleted.empty _ (divided.heads r given) (layer.fresh _ inside)
    obtain ⟨confined, followed⟩ := fixpoint_overDeletes divided stamped recursive start_ closing
    obtain ⟨last, previous, sound, stable⟩ := Running.untilStable_ends
      (fun _ db => SoundlyDeleted I rules s edited derived start before.state db)
      (fun k s t changed sound ran _ => by
        rw [← (Interpretation.ends_runGroup.mp ran).1]
        exact rederive_sound divided layer deleted sound) _ 0
      ⟨confined, fun name inside derives t => followed_sound divided layer consistent deleted confined
        followed inside derives⟩ rest
    obtain ⟨rfl, none⟩ := Interpretation.ends_runGroup.mp stable
    obtain ⟨same, each⟩ := Rule.runRules_unchanged none
    have final : Deleted I rules edited derived start (fun name => below name ∨ name ∈ s.relations)
        previous.state :=
      deleted_of_rederived divided layer consistent deleted sound (rederived_of_stable divided each)
    rw [← same] at final
    exact final
  · rename_i flat
    have flat : s.recursive = false := Bool.eq_false_iff.mpr flat
    obtain ⟨_, iterated, iterating, rest⟩ := Run.ends_bind.mp rest
    obtain ⟨_, ran⟩ := Run.ends_discard.mp iterating
    obtain ⟨iterateState, -⟩ := Interpretation.ends_runGroup.mp ran
    obtain ⟨_, ran⟩ := Run.ends_discard.mp rest
    obtain ⟨finalState, -⟩ := Interpretation.ends_runGroup.mp ran
    rw [changeGroup_inside_nil divided flat] at iterateState
    have same : iterated.state = seeded.state := by rw [← iterateState]; rfl
    rw [← finalState]
    have confined : Confined .deletion (targets s derived) before.state iterated.state := by
      rw [same, ← seedState]
      exact @changeGroup_confined _ I catalog 0 _ _ _ s before.state deleting false divided
    have followed : Followed I rules s iterated.state fun _ _ => True := by
      rw [same, ← seedState]
      exact seed_overDeletes divided layer flat
    refine deleted_of_rederived divided layer consistent deleted
      (rederive_sound divided layer deleted ⟨confined, fun name inside derives t =>
        followed_sound divided layer consistent deleted confined followed inside derives⟩) ?_
    exact rederived_of_flat divided layer flat

end Rederivation

theorem runDeletions_deleted (divided : Divided edited derived rules)
    (consistent : Consistent I rules edited derived start) {strata : List Stratum}
    {parts : List DeletionStratum} (layers : Layers rules below strata)
    (stamped : ∀ s ∈ strata, Stamped catalog s)
    (shape : List.Forall₂ (fun s part => ∃ index, part = deletionStratum (ownRules rules s) index s)
      strata parts) {before after : Running (Tables D)}
    (deleted : Deleted I rules edited derived start below before.state)
    (ended : Run.Ends (parts.forM (I.machine catalog limit).runDeletion) before () after) :
    Deleted I rules edited derived start (fun name => below name ∨ ∃ s ∈ strata, name ∈ s.relations)
      after.state := by
  induction shape generalizing below before with
  | nil =>
    cases Run.ends_forM_nil.mp ended
    simpa using deleted
  | @cons s part rest parts same _ ih =>
    obtain ⟨index, rfl⟩ := same
    obtain ⟨middle, one, more⟩ := Run.ends_forM_cons.mp ended
    have next := runDeletion_deleted divided layers.1 consistent (stamped s List.mem_cons_self) deleted one
    have final := ih layers.2 (fun s' member => stamped s' (List.mem_cons_of_mem _ member)) next more
    simpa only [List.mem_cons, exists_eq_or_imp, or_assoc] using final

end Maintenance

end PeerExchange
