import Mathlib.Data.Set.Card
import PeerExchange.Proofs.Exactness
import PeerExchange.Proofs.MaintenanceNames
import PeerExchange.Proofs.ValuePools

namespace PeerExchange

namespace Run

variable {σ α β : Type} {holds : σ → Prop}

def Stays (holds : σ → Prop) (act : Run σ α) : Prop :=
  ∀ s, holds s → ∃ a t, Ends act s a t ∧ holds t

theorem stays_pure (a : α) : Stays holds (pure a : Run σ α) := fun s start => ⟨a, s, rfl, start⟩

theorem stays_bind {act : Run σ α} {f : α → Run σ β} (first : Stays holds act)
    (second : ∀ a, Stays holds (f a)) : Stays holds (act >>= f) := by
  intro s start
  obtain ⟨a, middle, ended, between⟩ := first s start
  obtain ⟨b, t, rest, final⟩ := second a middle between
  exact ⟨b, t, ends_bind.mpr ⟨a, middle, ended, rest⟩, final⟩

theorem stays_discard {act : Run σ α} (stays : Stays holds act) : Stays holds (discard act) := by
  intro s start
  obtain ⟨a, t, ended, final⟩ := stays s start
  exact ⟨(), t, ends_discard.mpr ⟨a, ended⟩, final⟩

theorem stays_forM {f : α → Run σ Unit} {items : List α} (each : ∀ a ∈ items, Stays holds (f a)) :
    Stays holds (items.forM f) := by
  induction items with
  | nil => exact fun s start => ⟨(), s, rfl, start⟩
  | cons first rest ih =>
    exact stays_bind (each first List.mem_cons_self) fun _ =>
      ih fun a member => each a (List.mem_cons_of_mem _ member)

end Run

namespace Running

variable {σ : Type} {step : Int → Run (Running σ) Nat} {stratum limit : Nat} {holds : σ → Prop}

def Lowers (holds : σ → Prop) (size : σ → Nat) (step : Int → Run (Running σ) Nat) : Prop :=
  ∀ k s, holds s.state → ∃ changed t, Run.Ends (step k) s changed t ∧ holds t.state ∧
    (changed ≠ 0 → size t.state < size s.state)

theorem untilStable_lowers {size : σ → Nat} (lowers : Lowers holds size step) {left : Nat} {k : Int}
    {s : Running σ} (start : holds s.state) (enough : size s.state < left) :
    ∃ t, Run.Ends (untilStable stratum limit step left k) s () t ∧ holds t.state := by
  induction left generalizing k s with
  | zero => exact absurd enough (Nat.not_lt_zero _)
  | succ left ih =>
    let counted : Running σ := { s with cycle := { s.cycle with iterations := s.cycle.iterations + 1 } }
    obtain ⟨changed, t, ended, after, smaller⟩ := lowers k counted start
    by_cases stable : changed = 0
    · refine ⟨t, Run.ends_bind.mpr ⟨(), counted, rfl, Run.ends_bind.mpr ⟨changed, t, ended, ?_⟩⟩, after⟩
      rw [if_pos stable]
      rfl
    · obtain ⟨last, rest, final⟩ := ih (k := k + 1) after
        (Nat.lt_of_lt_of_le (smaller stable) (Nat.le_of_lt_succ enough))
      refine ⟨last, Run.ends_bind.mpr ⟨(), counted, rfl, Run.ends_bind.mpr ⟨changed, t, ended, ?_⟩⟩, final⟩
      rw [if_neg stable]
      exact rest

end Running

namespace Machine

variable {σ : Type} {m : Machine σ} {holds : σ → Prop}

theorem fixpoint_stays {stratum : Nat} {k : Int} {step : Int → Run (Running σ) Nat} {size : σ → Nat}
    (lowers : Running.Lowers holds size step) (enough : ∀ s, size s < m.limit) :
    Run.Stays (fun running => holds running.state) (m.fixpoint stratum k step) := by
  intro s start
  obtain ⟨t, ended, final⟩ := Running.untilStable_lowers lowers start (enough s.state)
  exact ⟨(), t, ended, final⟩

end Machine

variable {D : Type} {I : Interpretation D} {catalog marked : Catalog} {k : Int} {limit : Nat}
  {db start : Tables D} {pool : Set (List D)}

namespace Rule

variable {r : Rule} {rules : List Rule}

-- What every rule that changes something brings about and the others keep, a group that changes
-- something brings about.
theorem runRules_moved (holds brought : Tables D → Prop)
    (kept : ∀ r ∈ rules, ∀ db, holds db → holds (r.runOn I catalog k db))
    (lasts : ∀ r ∈ rules, ∀ db, holds db → brought db → brought (r.runOn I catalog k db))
    (brings : ∀ r ∈ rules, ∀ db, holds db → r.runOn I catalog k db ≠ db →
      brought (r.runOn I catalog k db))
    (start : holds db) (moved : (runRules I catalog k rules db).2 ≠ 0) :
    brought (runRules I catalog k rules db).1 := by
  induction rules generalizing db with
  | nil => exact absurd rfl moved
  | cons first rest ih =>
    obtain ⟨keptHere, keptRest⟩ := List.forall_mem_cons.mp kept
    obtain ⟨-, lastsRest⟩ := List.forall_mem_cons.mp lasts
    obtain ⟨bringsHere, bringsRest⟩ := List.forall_mem_cons.mp brings
    rw [runRules_cons]
    by_cases same : first.runOn I catalog k db = db
    · refine ih keptRest lastsRest bringsRest (keptHere db start) fun none => moved ?_
      exact Nat.add_eq_zero_iff.mpr ⟨if_pos same, none⟩
    · exact (runRules_keeps (fun db => holds db ∧ brought db)
        (fun r inside db both => ⟨keptRest r inside db both.1, lastsRest r inside db both.1 both.2⟩)
        ⟨keptHere db start, bringsHere db start same⟩).2

theorem exists_new (action : r.action = .derive) (changes : r.runOn I catalog k db ≠ db) :
    ∃ name kind e, r.Derives I catalog db k name kind e := by
  by_contra none
  push Not at none
  refine changes (funext fun name => funext fun kind => Set.ext fun e => ?_)
  rw [runOn_derive action, or_iff_left (none name kind e)]

theorem exists_gone (action : r.action = .retract) (changes : r.runOn I catalog k db ≠ db) :
    ∃ name kind gone, r.Derives I catalog db k name kind gone ∧ gone.tuple ∈ db.facts kind name := by
  by_contra none
  push Not at none
  refine changes (funext fun name => funext fun kind => Set.ext fun e => ?_)
  rw [runOn_retract action, and_iff_left_of_imp]
  intro there gone derived same
  exact none name kind gone derived ⟨e, there, same.symm⟩

end Rule

section Groups

variable {holds : Tables D → Prop} {size : Tables D → Nat} {group : List Rule}

theorem stays_runGroup (kept : ∀ r ∈ group, ∀ k db, holds db → holds (r.runOn I catalog k db)) :
    Run.Stays (fun running => holds running.state) ((I.machine catalog limit).runGroup group k) :=
  fun _ start => ⟨_, _, Interpretation.ends_runGroup.mpr ⟨rfl, rfl⟩,
    Rule.runRules_keeps holds (fun r member db => kept r member k db) start⟩

theorem lowers_runGroup (kept : ∀ r ∈ group, ∀ k db, holds db → holds (r.runOn I catalog k db))
    (smaller : ∀ r ∈ group, ∀ k db, holds db → r.runOn I catalog k db ≠ db →
      size (r.runOn I catalog k db) < size db) (numbers : Int → Int) :
    Running.Lowers holds size fun k => (I.machine catalog limit).runGroup group (numbers k) := by
  intro k s start
  refine ⟨_, _, Interpretation.ends_runGroup.mpr ⟨rfl, rfl⟩,
    Rule.runRules_keeps holds (fun r member db => kept r member _ db) start, ?_⟩
  have never (r : Rule) (member : r ∈ group) (db : Tables D) (inside : holds db) :
      size (r.runOn I catalog (numbers k) db) ≤ size db := by
    by_cases same : r.runOn I catalog (numbers k) db = db
    · rw [same]
    · exact Nat.le_of_lt (smaller r member _ db inside same)
  refine Rule.runRules_moved (fun db => holds db ∧ size db ≤ size s.state)
    (fun db => size db < size s.state) ?_ ?_ ?_ ⟨start, Nat.le_refl _⟩
  · exact fun r member db both =>
      ⟨kept r member _ db both.1, Nat.le_trans (never r member db both.1) both.2⟩
  · exact fun r member db both less => Nat.lt_of_le_of_lt (never r member db both.1) less
  · exact fun r member db both changes => Nat.lt_of_lt_of_le (smaller r member _ db both.1 changes) both.2

end Groups

namespace Maintenance

variable {rules : List Rule} {edited derived : String → Prop} {s : Stratum}
  {relations : List (String × Relation)} {r changed : Rule} {name : String} {kind : TableKind}
  {e : Entry D}

section Counting

def places (rules : List Rule) (pool : Set (List D)) : Set (String × List D) :=
  {place | (∃ r ∈ rules, r.headRelation = place.1) ∧ place.2 ∈ pool}

theorem finite_places (finite : pool.Finite) : (places rules pool).Finite := by
  refine ((rules.map Rule.headRelation).finite_toSet.prod finite).subset ?_
  rintro ⟨name, t⟩ ⟨⟨r, member, rfl⟩, inside⟩
  exact ⟨show r.headRelation ∈ rules.map Rule.headRelation from List.mem_map_of_mem member, inside⟩

noncomputable def countPlaces (rules : List Rule) (pool : Set (List D))
    (counts : String → List D → Prop) : Nat :=
  {place ∈ places rules pool | counts place.1 place.2}.ncard

theorem countPlaces_le (finite : pool.Finite) {counts : String → List D → Prop} :
    countPlaces rules pool counts ≤ (places rules pool).ncard :=
  Set.ncard_le_ncard (Set.sep_subset _ _) (finite_places finite)

theorem countPlaces_lt (finite : pool.Finite) {fewer counts : String → List D → Prop}
    (within : ∀ name t, fewer name t → counts name t) (member : r ∈ rules) {t : List D}
    (inside : t ∈ pool) (counted : counts r.headRelation t) (lost : ¬ fewer r.headRelation t) :
    countPlaces rules pool fewer < countPlaces rules pool counts := by
  refine Set.ncard_lt_ncard ⟨fun place both => ⟨both.1, within _ _ both.2⟩, fun all => lost ?_⟩
    ((finite_places finite).subset (Set.sep_subset _ _))
  exact (@all (r.headRelation, t) ⟨⟨⟨r, member, rfl⟩, inside⟩, counted⟩).2

end Counting

section Pooled

theorem within_retract (action : r.action = .retract) (within : db.Within pool) :
    (r.runOn I catalog k db).Within pool :=
  fun name kind e there => within name kind e ((Rule.runOn_retract action).mp there).1

theorem within_derive (action : r.action = .derive) (within : db.Within pool)
    (pooled : ∀ name kind e, r.Derives I catalog db k name kind e → e.tuple ∈ pool) :
    (r.runOn I catalog k db).Within pool := by
  intro name kind e there
  rcases (Rule.runOn_derive action).mp there with old | new
  · exact within name kind e old
  · exact pooled name kind e new

theorem Tables.Within.supports {d : Direction} {θ : Valuation D} (within : db.Within pool)
    (supported : r.Supports I (fun name => db.facts .base name ∪ db.facts d.kind name) θ) :
    r.Supports I (fun _ => pool) θ := by
  refine supported.mono fun a _ name _ held => ?_
  rcases held with ⟨e, there, same⟩ | ⟨e, there, same⟩ <;> exact same ▸ within _ _ e there

theorem change_new {d : Direction} {inside : Bool} (divided : Divided edited derived rules)
    (pools : IsPool I rules pool) (member : changed ∈ changeGroup d rules s inside)
    (within : db.Within pool) (made : changed.Derives I catalog db k name kind e) :
    ∃ r ∈ rules, r.headRelation ∈ s.relations ∧ name = r.headRelation ∧ kind = d.kind ∧
      e.tuple ∈ pool ∧ ∃ head θ, r.head = [head] ∧ head.relation? = some r.headRelation ∧
        head.kind = .base ∧ e.tuple = head.tuple I θ ∧
        ∀ x ∈ exclusion d head inside, ¬ x.Holds I db θ none := by
  obtain ⟨r, given, own, group⟩ := mem_changeGroup.mp member
  have simple := divided.simple r given
  obtain ⟨rfl, rfl, -, θ, supported, same⟩ := changesOf_sound simple group made
  refine ⟨r, given, own, rfl, rfl, ?_, ?_⟩
  · rw [same]
    exact pools r given θ (Tables.Within.supports within supported)
  · obtain ⟨head, heads, named, base⟩ := simple.single
    obtain ⟨position, a, found, positive, flagged⟩ := (mem_changesOf heads).mp group
    obtain ⟨source, reads⟩ := Option.isSome_iff_exists.mp (Bool.and_eq_true _ _ ▸ positive : _ ∧ _).2
    cases congrArg Prod.fst flagged
    obtain ⟨-, -, η, matched, rfl⟩ :=
      (@Rule.derives_single _ I catalog db k _ (head.withKind d.kind) _ _ _ _ rfl named).mp made
    have kept := ((changeRule_matches simple.plain found heads named reads).mp matched).2.2.2
    rw [congrArg Prod.snd flagged] at kept
    exact ⟨head, η, heads, named, base, rfl, kept⟩

theorem change_within {d : Direction} {inside : Bool} (divided : Divided edited derived rules)
    (pools : IsPool I rules pool) : ∀ changed ∈ changeGroup d rules s inside, ∀ k db,
      db.Within pool → (changed.runOn I catalog k db).Within pool := by
  intro changed member k db within
  refine within_derive (changeGroup_action divided changed member) within fun name kind e made => ?_
  obtain ⟨_, -, -, -, -, pooled, -⟩ := change_new divided pools member within made
  exact pooled

theorem rederive_within : ∀ changed ∈ (ownRules rules s).map rederiveRule, ∀ k (db : Tables D),
    db.Within pool → (changed.runOn I catalog k db).Within pool := by
  intro changed member k db within
  obtain ⟨r, -, rfl⟩ := List.mem_map.mp member
  exact within_retract rfl within

theorem removal_within {suffix : String} {head body : TableKind} :
    ∀ changed ∈ removalGroup suffix head body relations, ∀ k (db : Tables D),
      db.Within pool → (changed.runOn I catalog k db).Within pool := by
  intro changed member k db within
  obtain ⟨entry, -, rfl⟩ := List.mem_map.mp member
  exact within_retract rfl within

theorem merge_within {recursive : Bool} : ∀ changed ∈ mergeGroup relations recursive,
    ∀ k (db : Tables D), db.Within pool → (changed.runOn I catalog k db).Within pool := by
  intro changed member k db within
  obtain ⟨entry, -, rfl⟩ := List.mem_map.mp member
  refine within_derive mergeRule_action within fun name kind e made => ?_
  obtain ⟨-, -, stored, there, -, -, rfl⟩ := mergeRule_derives.mp made
  exact within _ _ stored there

end Pooled

section Deletions

theorem deletion_lowers (divided : Divided edited derived rules) (pools : IsPool I rules pool)
    (finite : pool.Finite) (member : changed ∈ changeGroup deleting rules s true)
    (within : db.Within pool) (changes : changed.runOn I catalog k db ≠ db) :
    countPlaces rules pool (fun name t => t ∉ (changed.runOn I catalog k db).facts .deletion name) <
      countPlaces rules pool fun name t => t ∉ db.facts .deletion name := by
  have action := changeGroup_action divided changed member
  obtain ⟨name, kind, e, made⟩ := Rule.exists_new action changes
  obtain ⟨r, given, -, rfl, rfl, pooled, head, θ, -, named, -, same, excluded⟩ :=
    change_new divided pools member within made
  refine countPlaces_lt finite (fun name t absent there => absent ?_) given pooled ?_ fun absent => absent ?_
  · obtain ⟨old, stored, tuple⟩ := there
    exact ⟨old, (Rule.runOn_derive action).mpr (.inl stored), tuple⟩
  · have out := excluded _ (List.mem_singleton_self _)
    have named' : ((head.withKind .deletion).negate).relation? = some r.headRelation := named
    rwa [Atom.holds_unguarded named', Atom.tuple_negate, Atom.tuple_withKind, ← same] at out
  · exact ⟨e, (Rule.runOn_derive action).mpr (.inr made), rfl⟩

theorem rederive_lowers (divided : Divided edited derived rules) (finite : pool.Finite)
    (member : changed ∈ (ownRules rules s).map rederiveRule) (within : db.Within pool)
    (changes : changed.runOn I catalog k db ≠ db) :
    countPlaces rules pool (fun name t => t ∈ (changed.runOn I catalog k db).facts .deletion name) <
      countPlaces rules pool fun name t => t ∈ db.facts .deletion name := by
  obtain ⟨r, own, rfl⟩ := List.mem_map.mp member
  have given := (mem_ownRules.mp own).1
  obtain ⟨name, kind, gone, made, there⟩ := Rule.exists_gone rfl changes
  obtain ⟨rfl, rfl, -⟩ := (rederiveRule_derives (divided.simple r given)).mp made
  refine countPlaces_lt finite (fun name t left => ?_) given ?_ there ?_
  · obtain ⟨old, stored, tuple⟩ := left
    exact ⟨old, ((Rule.runOn_retract rfl).mp stored).1, tuple⟩
  · obtain ⟨old, stored, tuple⟩ := there
    exact tuple ▸ within _ _ old stored
  · rintro ⟨old, stored, tuple⟩
    exact ((Rule.runOn_retract rfl).mp stored).2 gone made tuple.symm

theorem runDeletion_stays (divided : Divided edited derived rules) (pools : IsPool I rules pool)
    (finite : pool.Finite) (enough : (places rules pool).ncard < limit) {index : Nat} :
    Run.Stays (fun running => running.state.Within pool)
      ((I.machine catalog limit).runDeletion (deletionStratum (ownRules rules s) index s)) := by
  have seedGroup : (deletionStratum (ownRules rules s) index s).seed =
      changeGroup deleting rules s false := (changeGroup_eq deleting rules s).1
  have iterateGroup : (deletionStratum (ownRules rules s) index s).iterate =
      changeGroup deleting rules s true := (changeGroup_eq deleting rules s).2
  have rederived := @rederive_within _ I catalog pool rules s
  have deleting_ : Running.Lowers (Tables.Within pool)
      (fun db => countPlaces rules pool fun name t => t ∉ db.facts .deletion name)
      ((I.machine catalog limit).runGroup (changeGroup deleting rules s true)) :=
    lowers_runGroup (change_within divided pools)
      (fun changed member k db within => deletion_lowers divided pools finite member within) id
  have rederiving : Running.Lowers (Tables.Within pool)
      (fun db => countPlaces rules pool fun name t => t ∈ db.facts .deletion name)
      fun _ => (I.machine catalog limit).runGroup ((ownRules rules s).map rederiveRule) 0 :=
    lowers_runGroup rederived
      (fun changed member k db within => rederive_lowers divided finite member within) fun _ => 0
  have few {counts : Tables D → String → List D → Prop} (db : Tables D) :
      countPlaces rules pool (counts db) < limit := Nat.lt_of_le_of_lt (countPlaces_le finite) enough
  unfold Machine.runDeletion
  rw [seedGroup, iterateGroup]
  refine Run.stays_bind (Run.stays_discard (stays_runGroup (change_within divided pools))) fun _ => ?_
  split
  · exact Run.stays_bind (Machine.fixpoint_stays deleting_ few) fun _ =>
      Machine.fixpoint_stays rederiving few
  · exact Run.stays_bind (Run.stays_discard (stays_runGroup (change_within divided pools))) fun _ =>
      Run.stays_discard (stays_runGroup rederived)

end Deletions

section Insertions

variable {part : InsertionStratum} (divided : Divided edited derived rules)
  (pools : IsPool I rules pool) (finite : pool.Finite) (stamped : Stamped catalog s)
  (resolved : Resolved catalog s relations)
  (fits : ∀ r ∈ rules, ∀ relation, catalog.relations.get? r.headRelation = some relation →
    ∀ a ∈ r.head, a.args.length = relation.arity)

include divided pools in
theorem insertionRound_stays (iterate : part.iterate = changeGroup inserting rules s true)
    (merge : part.merge = mergeGroup relations s.recursive) :
    Run.Stays (fun running => running.state.Within pool)
      ((I.machine catalog limit).insertionRound part k) := by
  unfold Machine.insertionRound
  rw [iterate, merge]
  refine Run.stays_bind (stays_runGroup (change_within divided pools)) fun changed => ?_
  split
  · exact Run.stays_bind (Run.stays_discard (stays_runGroup merge_within)) fun _ => Run.stays_pure _
  · exact Run.stays_pure _

def Awaited (catalog : Catalog) (rules : List Rule) (s : Stratum) (pool : Set (List D))
    (before : Tables D) (k : Int) (db : Tables D) : Prop :=
  ∃ r ∈ rules, r.headRelation ∈ s.relations ∧ ∃ e ∈ db r.headRelation .insertion,
    e.stamp = some (k + 1) ∧ e.tuple ∈ pool ∧ e.tuple ∉ before.facts .base r.headRelation ∧
      ∀ relation, catalog.relations.get? r.headRelation = some relation →
        e.tuple.length = relation.arity

include divided pools stamped fits in
theorem iterate_awaited (recursive : s.recursive = true) (within : start.Within pool)
    (moved : (Rule.runRules I catalog k (changeGroup inserting rules s true) start).2 ≠ 0) :
    Awaited catalog rules s pool start k
      (Rule.runRules I catalog k (changeGroup inserting rules s true) start).1 := by
  refine Rule.runRules_moved
    (fun db => db.Within pool ∧ Confined .insertion (targets s derived) start db)
    (Awaited catalog rules s pool start k) ?_ ?_ ?_ ⟨within, confined_refl⟩ moved
  · exact fun changed member db both => ⟨change_within divided pools changed member k db both.1,
      confined_runOn (changeGroup_writes divided changed member) both.2⟩
  · rintro changed member db - ⟨r, given, own, e, there, awaits⟩
    exact ⟨r, given, own, e,
      (Rule.runOn_derive (changeGroup_action divided changed member)).mpr (.inl there), awaits⟩
  · rintro changed member db ⟨within, confined⟩ changes
    have action := changeGroup_action divided changed member
    obtain ⟨name, kind, e, made⟩ := Rule.exists_new action changes
    have stamp := changeGroup_stamp divided stamped recursive (by decide) member made
    obtain ⟨r, given, own, rfl, rfl, pooled, head, θ, heads, named, base, same, excluded⟩ :=
      change_new divided pools member within made
    refine ⟨r, given, own, e, (Rule.runOn_derive action).mpr (.inr made), stamp, pooled, ?_, ?_⟩
    · have out := excluded _ (List.mem_singleton_self _)
      have named' : head.negate.relation? = some r.headRelation := named
      rw [Atom.holds_unguarded named', Atom.tuple_negate, ← same,
        show head.negate.kind = .base from base, confined.facts_base (by decide)] at out
      exact out
    · intro relation found
      rw [same, Atom.tuple, List.length_map]
      exact fits r given relation found head (by simp [heads])

include divided pools finite stamped resolved fits in
theorem insertionRound_lowers (recursive : s.recursive = true)
    (iterate : part.iterate = changeGroup inserting rules s true)
    (merge : part.merge = mergeGroup relations s.recursive) :
    Running.Lowers (Tables.Within pool)
      (fun db => countPlaces rules pool fun name t => t ∉ db.facts .base name)
      ((I.machine catalog limit).insertionRound part) := by
  intro k before within
  obtain ⟨changed, after, ended, pooled⟩ :=
    insertionRound_stays divided pools iterate merge before within
  refine ⟨changed, after, ended, pooled, fun moved => ?_⟩
  obtain ⟨middle, iterated, merged⟩ := ends_insertionRound ended
  rw [if_pos (Nat.pos_of_ne_zero moved)] at merged
  obtain ⟨_, merging⟩ := merged
  obtain ⟨rfl, rfl⟩ := Interpretation.ends_runGroup.mp iterated
  obtain ⟨rfl, -⟩ := Interpretation.ends_runGroup.mp merging
  rw [iterate] at moved ⊢
  rw [merge]
  obtain ⟨r, given, own, e, there, stamp, inPool, absent, length⟩ :=
    iterate_awaited divided pools stamped fits recursive within moved
  refine countPlaces_lt finite (fun name t out inside => out ?_) given inPool absent fun out => out ?_
  · have confined := @changeGroup_confined _ I catalog k _ _ _ s before.state inserting true divided
    rw [← confined.facts_base (by decide)] at inside
    obtain ⟨old, stored, same⟩ := inside
    exact ⟨old, mergeGroup_grows name .base old stored, same⟩
  · exact mergeGroup_brings resolved own length there fun _ => stamp

include divided pools finite stamped resolved fits in
theorem runInsertion_stays (enough : (places rules pool).ncard < limit)
    {pruned : List (String × Relation)} {index : Nat} :
    Run.Stays (fun running => running.state.Within pool) ((I.machine catalog limit).runInsertion
      (insertionStratum (ownRules rules s) relations pruned index s)) := by
  have seedGroup : (insertionStratum (ownRules rules s) relations pruned index s).seed =
      changeGroup inserting rules s false ++ removalGroup "_prune" .insertion .base pruned := by
    rw [← (changeGroup_eq inserting rules s).1]
    rfl
  have iterateGroup : (insertionStratum (ownRules rules s) relations pruned index s).iterate =
      changeGroup inserting rules s true := (changeGroup_eq inserting rules s).2
  have seeded : Run.Stays (fun running => running.state.Within pool)
      ((I.machine catalog limit).runGroup
        (insertionStratum (ownRules rules s) relations pruned index s).seed 0) := by
    rw [seedGroup]
    exact stays_runGroup fun r member => (List.mem_append.mp member).elim
      (change_within divided pools r) (removal_within r)
  have merged (k : Int) : Run.Stays (fun running => running.state.Within pool)
      ((I.machine catalog limit).runGroup (mergeGroup relations s.recursive) k) :=
    stays_runGroup merge_within
  refine Run.stays_bind (Run.stays_discard seeded) fun _ => ?_
  split
  · rename_i recursive
    exact Run.stays_bind (Run.stays_discard (merged 0)) fun _ => Machine.fixpoint_stays
      (insertionRound_lowers divided pools finite stamped resolved fits recursive iterateGroup rfl)
      fun _ => Nat.lt_of_le_of_lt (countPlaces_le finite) enough
  · rw [iterateGroup]
    exact Run.stays_bind (Run.stays_discard (stays_runGroup (change_within divided pools))) fun _ =>
      Run.stays_discard (merged 0)

end Insertions

end Maintenance

-- Safe rules into one relation each, with bodies of joined atoms and built-ins, that invent nothing.
structure Exchange.IsSkolemFree (x : Exchange) (catalog : Catalog) : Prop where
  heads : ∀ r ∈ x.rules, ∃ head name, r.head = [head] ∧ head.relation? = some name ∧
    head.kind = .base ∧
    ∀ relation, catalog.relations.get? name = some relation → head.args.length = relation.arity
  bodies : ∀ r ∈ x.rules, ∀ a ∈ r.body, a.negated = false ∧ a.optional = false ∧
    (a.relation?.isSome = true → a.kind = .base)
  safe : ∀ r ∈ x.rules, r.checkSafety = .ok ()
  free : ∀ r ∈ x.rules, r.SkolemFree

namespace Maintenance

section Program

variable {x : Exchange} {program : Maintenance}

theorem divided_of_skolemFree (plain : x.IsSkolemFree catalog) (recursive : List String) :
    Divided (fun _ => False) (fun _ => True) (markedRules x.rules recursive) where
  simple := by
    intro r member
    obtain ⟨old, given, rfl⟩ := List.mem_map.mp member
    obtain ⟨head, name, heads, named, kind, -⟩ := plain.heads old given
    refine ⟨fun a joined => ?_, head, heads, ?_, kind⟩
    · obtain ⟨positive, -, base⟩ := plain.bodies old given a joined
      exact ⟨positive, base⟩
    · rw [named]
      exact congrArg some (Rule.headRelation_of_head (congrArg List.head? heads) named).symm
  heads _ _ := trivial
  reads _ _ _ _ _ _ := .inr trivial
  separate _ edits := edits.elim

theorem skolemFree_fits (plain : x.IsSkolemFree catalog)
    (marks : markStratified (recursiveNames x) catalog = (marked, .ok ())) (recursive : List String) :
    ∀ r ∈ markedRules x.rules recursive, ∀ relation,
      marked.relations.get? r.headRelation = some relation →
        ∀ a ∈ r.head, a.args.length = relation.arity := by
  intro r member relation found a inHead
  obtain ⟨old, given, rfl⟩ := List.mem_map.mp member
  obtain ⟨head, name, heads, named, -, arity⟩ := plain.heads old given
  obtain ⟨before, present, columns, -⟩ := markStratified_get marks found
  have same : old.headRelation = name := Rule.headRelation_of_head (congrArg List.head? heads) named
  change a ∈ old.head at inHead
  rw [heads] at inHead
  cases List.mem_singleton.mp inHead
  change catalog.relations.get? old.headRelation = some before at present
  rw [same] at present
  rw [arity before present, Relation.arity, Relation.arity, columns]

theorem skolemFree_pool (selects : I.Selects) (plain : x.IsSkolemFree catalog) (finite : start.IsFinite)
    (recursive : List String) :
    ∃ pool : Set (List D), pool.Finite ∧ IsPool I (markedRules x.rules recursive) pool ∧
      start.Within pool := by
  refine exists_pool selects ?_ (divided_of_skolemFree plain recursive).simple ?_ finite
  · intro r member
    obtain ⟨old, given, rfl⟩ := List.mem_map.mp member
    exact ⟨(plain.free old given).inventions, (plain.free old given).flat, (plain.free old given).unmarked⟩
  · intro r member
    obtain ⟨old, given, rfl⟩ := List.mem_map.mp member
    exact plain.safe old given

theorem runProgram_stays (plain : x.IsSkolemFree catalog)
    (built : build x catalog = (marked, .ok program))
    (pools : IsPool I (markedRules x.rules (recursiveNames x)) pool) (finite : pool.Finite)
    (enough : (places (markedRules x.rules (recursiveNames x)) pool).ncard < limit) :
    Run.Stays (fun running => running.state.Within pool)
      ((I.machine marked limit).runProgram program) := by
  obtain ⟨marks, parts, each, deletion, apply, insertion, -⟩ := build_parts built
  have divided := divided_of_skolemFree plain (recursiveNames x)
  unfold Machine.runProgram
  rw [deletion, apply, insertion]
  refine Run.stays_bind (Run.stays_forM ?_) fun _ => Run.stays_bind ?_ fun _ =>
    Run.stays_bind (Run.stays_forM ?_) fun _ => Run.stays_forM fun name _ s within => ?_
  · intro stratum member
    obtain ⟨part, listed, rfl⟩ := List.mem_map.mp member
    obtain ⟨s, -, index, made⟩ := Compiled.forall₂_source each listed
    obtain ⟨-, -, same, -⟩ := stratumProgram_parts made
    rw [same]
    exact runDeletion_stays divided pools finite enough
  · obtain ⟨relations, group, -⟩ := apply_parts each
    rw [group]
    exact Run.stays_discard (stays_runGroup removal_within)
  · intro stratum member
    obtain ⟨part, listed, rfl⟩ := List.mem_map.mp member
    obtain ⟨s, present, index, made⟩ := Compiled.forall₂_source each listed
    obtain ⟨relations, resolved, -, same, -⟩ := stratumProgram_parts made
    rw [same]
    exact runInsertion_stays divided pools finite (stamped_of_made marks present made) resolved
      (skolemFree_fits plain marks _) enough
  · exact ⟨(), _, Interpretation.ends_clearPending.mpr rfl,
      fun other kind e stored => within other kind e stored.1⟩

-- Over a finite database, consistent or not, there is a number of steps from which on no loop of a
-- cycle is ever taken to have diverged: the cycle ends.
theorem maintenance_converges {D : Type} (I : Interpretation D) (selects : I.Selects) {x : Exchange}
    {catalog marked : Catalog} {program : Maintenance} (plain : x.IsSkolemFree catalog)
    (built : Maintenance.build x catalog = (marked, .ok program)) (start : Tables D)
    (finite : start.IsFinite) :
    ∃ bound, ∀ limit, bound ≤ limit → ∀ cycle,
      ∃ after, Run.Ends ((I.machine marked limit).runProgram program) ⟨start, cycle⟩ () after := by
  obtain ⟨pool, few, pools, within⟩ := skolemFree_pool selects plain finite (recursiveNames x)
  refine ⟨(places (markedRules x.rules (recursiveNames x)) pool).ncard + 1, fun limit enough cycle => ?_⟩
  obtain ⟨_, after, ended, -⟩ := runProgram_stays plain built pools few enough ⟨start, cycle⟩ within
  exact ⟨after, ended⟩

end Program

section Reaching

-- Paths along edges, with ends that are cut off at a constant.
def reachCatalog : Catalog where
  relations := .ofList [
    ("P", { name := "P", columns := [⟨"a", .integer, false⟩, ⟨"b", .integer, false⟩] }),
    ("E", { name := "E", columns := [⟨"a", .integer, false⟩, ⟨"b", .integer, false⟩] })]

def reachExchange : Exchange where
  localRules := [
    .ofHead "edge" (.ofRelation "P" [.var "x", .var "y"]) [.ofRelation "E" [.var "x", .var "y"]],
    .ofHead "path" (.ofRelation "P" [.var "x", .var "m"]) [.ofRelation "P" [.var "x", .var "y"],
      .ofRelation "E" [.var "y", .var "z"], .ofBuiltin .least [.var "m", .var "z", .lit (.integer 5)]]]
  edb := .ofNames ["E"]
  idb := .ofNames ["P"]

def ordered : Interpretation Int where
  constant _ value := match value with | .integer n => n | _ => 0
  invented _ _ := 0
  holds op args := match op, args with
    | .eq, [a, b] => a = b
    | .least, [c, a, b] => c = min a b
    | _, _ => False

theorem ordered_selects : ordered.Selects where
  equal left right more held := by
    cases more with
    | nil => exact held
    | cons _ _ => exact held.elim
  selected op function output inputs held := by
    match op, inputs, held with
    | .least, [a, b], held =>
      rw [show output = min a b from held]
      rcases min_choice a b with same | same <;> simp [same]

-- There is a path that no edge leads to.
def reachTables : Tables Int := fun name kind =>
  match kind with
  | .base => {e | name = "E" ∧ e = ⟨[1, 2], none⟩ ∨ name = "E" ∧ e = ⟨[2, 9], none⟩ ∨
      name = "P" ∧ e = ⟨[7, 7], none⟩}
  | .deletion => {e | name = "E" ∧ e = ⟨[1, 2], none⟩}
  | .insertion => {e | name = "E" ∧ e = ⟨[9, 2], none⟩}

theorem reach_finite : reachTables.IsFinite := by
  refine Set.Finite.subset (s := {("E", .base, ⟨[1, 2], none⟩), ("E", .base, ⟨[2, 9], none⟩),
    ("P", .base, ⟨[7, 7], none⟩), ("E", .deletion, ⟨[1, 2], none⟩),
    ("E", .insertion, ⟨[9, 2], none⟩)}) (Set.toFinite _) ?_
  rintro ⟨name, kind, e⟩ stored
  cases kind with
  | base => rcases stored with ⟨rfl, rfl⟩ | ⟨rfl, rfl⟩ | ⟨rfl, rfl⟩ <;> simp
  | deletion => obtain ⟨rfl, rfl⟩ := stored; simp
  | insertion => obtain ⟨rfl, rfl⟩ := stored; simp

theorem reach_skolemFree : reachExchange.IsSkolemFree reachCatalog where
  heads := by
    intro r member
    rcases List.mem_pair.mp member with rfl | rfl
    all_goals
      refine ⟨_, "P", rfl, rfl, rfl, fun relation found => ?_⟩
      cases found
      rfl
  bodies := by decide
  safe r member := by
    rcases List.mem_pair.mp member with rfl | rfl <;> rfl
  free r member := by
    rcases List.mem_pair.mp member with rfl | rfl
    · exact ⟨rfl, by decide, by decide⟩
    · exact ⟨rfl, by decide, by decide⟩

theorem reach_builds : ∃ program, build reachExchange reachCatalog =
      ((build reachExchange reachCatalog).1, .ok program) ∧
    ∃ s ∈ program.insertion, s.recursive = true := by
  have flat : (build reachExchange reachCatalog).2.toOption.map (fun m =>
      m.insertion.any (·.recursive)) = some true := by cbv
  rcases made : build reachExchange reachCatalog with ⟨marked, cause | program⟩
  · rw [made] at flat
    cases flat
  · rw [made] at flat
    simp only [Except.toOption, Option.map_some, Option.some.injEq, List.any_eq_true] at flat
    exact ⟨program, rfl, flat⟩

-- The paths are recursive, and their maintenance ends though they are not those of the edges.
theorem maintenance_converges_reach : ∃ program bound, build reachExchange reachCatalog =
      ((build reachExchange reachCatalog).1, .ok program) ∧
    (∃ s ∈ program.insertion, s.recursive = true) ∧ ∀ limit, bound ≤ limit → ∀ cycle, ∃ after,
      Run.Ends ((ordered.machine (build reachExchange reachCatalog).1 limit).runProgram program)
        ⟨reachTables, cycle⟩ () after := by
  obtain ⟨program, built, recursive⟩ := reach_builds
  obtain ⟨bound, ends⟩ := maintenance_converges ordered ordered_selects reach_skolemFree built
    reachTables reach_finite
  exact ⟨program, bound, built, recursive, ends⟩

end Reaching

end Maintenance

end PeerExchange
