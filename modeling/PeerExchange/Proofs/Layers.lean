import PeerExchange.Proofs.MaintenanceRules

namespace PeerExchange

namespace Maintenance

variable {D : Type} {I : Interpretation D} {catalog : Catalog} {k : Int} {limit : Nat}
  {rules : List Rule} {edited derived below : String → Prop} {s : Stratum} {db start : Tables D}
  {N : Facts D}

-- Edits go to some relations, and rules derive others from both.
structure Divided (edited derived : String → Prop) (rules : List Rule) : Prop where
  simple : ∀ r ∈ rules, r.Simple
  heads : ∀ r ∈ rules, derived r.headRelation
  reads : ∀ r ∈ rules, ∀ a ∈ r.body, ∀ name, a.relation? = some name → edited name ∨ derived name
  separate : ∀ name, edited name → ¬ derived name

-- A stratum reads what is below it and, when it is recursive, itself.
structure Layer (rules : List Rule) (below : String → Prop) (s : Stratum) : Prop where
  reads : ∀ r ∈ rules, r.headRelation ∈ s.relations → ∀ a ∈ r.body, ∀ name, a.relation? = some name →
    below name ∨ (s.recursive = true ∧ name ∈ s.relations)
  fresh : ∀ name ∈ s.relations, ¬ below name
  headed : s.recursive = true → ∀ name ∈ s.relations, ∃ r ∈ rules, r.headRelation = name

def Layers (rules : List Rule) : (String → Prop) → List Stratum → Prop
  | _, [] => True
  | below, s :: rest => Layer rules below s ∧ Layers rules (fun name => below name ∨ name ∈ s.relations) rest

def Stamped (catalog : Catalog) (s : Stratum) : Prop :=
  s.recursive = true → ∀ name ∈ s.relations, ∃ relation,
    catalog.relations.get? name = some relation ∧ relation.stratified = true

def given (edited : String → Prop) (facts : Facts D) : Facts D := fun name =>
  {t | edited name ∧ t ∈ facts name}

namespace Divided

variable {facts : Facts D} {r : Rule} {θ : Valuation D} {name : String}

theorem plain (divided : Divided edited derived rules) : ∀ r ∈ rules, r.Plain :=
  fun r member => (divided.simple r member).plain

theorem closed (divided : Divided edited derived rules) (member : r ∈ rules)
    (supported : r.Supports I (leastModel I rules facts) θ) :
    r.headTuple I θ ∈ leastModel I rules facts r.headRelation := by
  obtain ⟨head, heads, named, -⟩ := (divided.simple r member).single
  rw [Rule.headTuple_single heads]
  exact leastModel_closed divided.plain member supported (by rw [heads]; exact List.mem_singleton.mpr rfl)
    named

theorem induct (divided : Divided edited derived rules) (M : Facts D)
    (larger : ∀ other, facts other ⊆ M other)
    (step : ∀ r ∈ rules, ∀ θ, r.Supports I M θ → r.headTuple I θ ∈ M r.headRelation) :
    leastModel I rules facts name ⊆ M name := by
  refine leastModel_subset larger (isModel_of_supports divided.plain ?_)
  intro r member θ supported a inHead target names
  obtain ⟨head, heads, named, -⟩ := (divided.simple r member).single
  rw [heads] at inHead
  cases List.mem_singleton.mp inHead
  cases named.symm.trans names
  rw [← Rule.headTuple_single heads]
  exact step r member θ supported

theorem leastModel_edited (divided : Divided edited derived rules) (edits : edited name) :
    leastModel I rules (given edited facts) name = facts name := by
  refine Set.Subset.antisymm ?_ fun t inside => given_subset_leastModel ⟨edits, inside⟩
  intro t inside
  have only := divided.induct (fun other => {t | edited other → t ∈ facts other})
    (fun other t stored _ => stored.2)
    (fun r member θ _ edits => absurd (divided.heads r member) (divided.separate _ edits)) inside
  exact only edits

end Divided

def Confined (kind : TableKind) (targets : String → Prop) (start db : Tables D) : Prop :=
  ∀ name other, ¬ (other = kind ∧ targets name) → db name other = start name other

section Groups

variable {kind : TableKind} {targets : String → Prop} {r : Rule} {group : List Rule}

theorem confined_refl : Confined kind targets start start := fun _ _ _ => rfl

theorem confined_runOn (writes : ∀ name other, r.Writes name other → other = kind ∧ targets name)
    (confined : Confined kind targets start db) :
    Confined kind targets start (r.runOn I catalog k db) := by
  intro name other outside
  rw [Rule.runOn_frame fun written => outside (writes name other written)]
  exact confined name other outside

theorem confined_runRules
    (writes : ∀ r ∈ group, ∀ name other, r.Writes name other → other = kind ∧ targets name)
    (confined : Confined kind targets start db) :
    Confined kind targets start (Rule.runRules I catalog k group db).1 :=
  Rule.runRules_keeps (Confined kind targets start)
    (fun r member _ kept => confined_runOn (writes r member) kept) confined

theorem Confined.facts_base (confined : Confined kind targets start db) (pending : kind ≠ .base) :
    db.facts .base = start.facts .base := by
  funext name
  exact Tables.facts_congr (confined name .base fun both => pending both.1.symm)

def Grows (start db : Tables D) : Prop := ∀ name kind e, e ∈ start name kind → e ∈ db name kind

theorem grows_runOn (action : r.action = .derive) (grows : Grows start db) :
    Grows start (r.runOn I catalog k db) :=
  fun name kind e there => (Rule.runOn_derive action).mpr (.inl (grows name kind e there))

theorem grows_runRules (actions : ∀ r ∈ group, r.action = .derive) :
    Grows db (Rule.runRules I catalog k group db).1 :=
  Rule.runRules_keeps (Grows db) (fun r member _ grows => grows_runOn (actions r member) grows)
    fun _ _ _ there => there

theorem headStamp_stamped (stamped : Stamped catalog s) (recursive : s.recursive = true)
    {name : String} (inside : name ∈ s.relations) (pending : kind ≠ .base) :
    r.headStamp catalog k name kind = some (r.stampAt k) := by
  obtain ⟨relation, found, marked⟩ := stamped recursive name inside
  unfold Rule.headStamp
  rw [found]
  simp [Relation.hasStratum, marked, pending]

def ownRules (rules : List Rule) (s : Stratum) : List Rule :=
  rules.filter fun r => s.relations.contains r.headRelation

theorem mem_ownRules : r ∈ ownRules rules s ↔ r ∈ rules ∧ r.headRelation ∈ s.relations := by
  simp [ownRules]

def changeGroup (d : Direction) (rules : List Rule) (s : Stratum) (inside : Bool) : List Rule :=
  (ownRules rules s).flatMap (changesOf d s.relations s.recursive inside)

theorem changeGroup_eq (d : Direction) (rules : List Rule) (s : Stratum) :
    ((ownRules rules s).map (changeRules d s.relations s.recursive)).flatMap Prod.fst =
        changeGroup d rules s false ∧
      ((ownRules rules s).map (changeRules d s.relations s.recursive)).flatMap Prod.snd =
        changeGroup d rules s true := by
  rw [List.flatMap_map, List.flatMap_map]
  exact ⟨rfl, rfl⟩

theorem mem_changeGroup {d : Direction} {inside : Bool} {changed : Rule} :
    changed ∈ changeGroup d rules s inside ↔
      ∃ r ∈ rules, r.headRelation ∈ s.relations ∧ changed ∈ changesOf d s.relations s.recursive inside r := by
  simp only [changeGroup, List.mem_flatMap, mem_ownRules, and_assoc]

section Changes

variable {d : Direction} {inside : Bool} {changed : Rule}

theorem changeGroup_action (divided : Divided edited derived rules) :
    ∀ changed ∈ changeGroup d rules s inside, changed.action = .derive := by
  intro changed member
  obtain ⟨r, given, -, group⟩ := mem_changeGroup.mp member
  exact changesOf_action (divided.simple r given) group

theorem changeGroup_writes (divided : Divided edited derived rules) :
    ∀ changed ∈ changeGroup d rules s inside, ∀ name other, changed.Writes name other →
      other = d.kind ∧ name ∈ s.relations ∧ derived name := by
  intro changed member name other written
  obtain ⟨r, given, own, group⟩ := mem_changeGroup.mp member
  obtain ⟨rfl, rfl⟩ := (changesOf_writes (divided.simple r given) group).mp written
  exact ⟨rfl, own, divided.heads r given⟩

theorem changeGroup_stamp (divided : Divided edited derived rules) (stamped : Stamped catalog s)
    (recursive : s.recursive = true) (pending : d.kind ≠ .base)
    (member : changed ∈ changeGroup d rules s inside) {name : String} {kind : TableKind} {e : Entry D}
    (made : changed.Derives I catalog db k name kind e) :
    e.stamp = some (if inside then k + d.stampOffset else 0) := by
  obtain ⟨r, given, own, group⟩ := mem_changeGroup.mp member
  obtain ⟨-, -, same, -⟩ := changesOf_sound (divided.simple r given) group made
  rw [same, headStamp_stamped stamped recursive own pending,
    changesOf_stampAt (divided.simple r given) group]

theorem changeGroup_confined (divided : Divided edited derived rules) :
    Confined d.kind (fun name => name ∈ s.relations ∧ derived name) db
      (Rule.runRules I catalog k (changeGroup d rules s inside) db).1 :=
  confined_runRules (changeGroup_writes divided) confined_refl

theorem changeGroup_stamps (divided : Divided edited derived rules) (stamped : Stamped catalog s)
    (recursive : s.recursive = true) (pending : d.kind ≠ .base) {name : String} {kind : TableKind}
    {e : Entry D}
    (stored : e ∈ (Rule.runRules I catalog k (changeGroup d rules s inside) db).1 name kind) :
    e ∈ db name kind ∨ e.stamp = some (if inside then k + d.stampOffset else 0) := by
  refine Rule.runRules_keeps (fun next : Tables D => ∀ e ∈ next name kind,
    e ∈ db name kind ∨ e.stamp = some (if inside then k + d.stampOffset else 0)) ?_
    (fun _ there => .inl there) e stored
  intro changed member next old e stored
  rcases (Rule.runOn_derive (changeGroup_action divided changed member)).mp stored with there | made
  · exact old e there
  · exact .inr (changeGroup_stamp divided stamped recursive pending member made)

theorem changeGroup_inside_nil (divided : Divided edited derived rules)
    (flat : s.recursive = false) : changeGroup d rules s true = [] := by
  refine List.eq_nil_iff_forall_not_mem.mpr fun changed member => ?_
  obtain ⟨r, given, own, group⟩ := mem_changeGroup.mp member
  obtain ⟨head, heads, -, -⟩ := (divided.simple r given).single
  obtain ⟨position, a, -, -, same⟩ := (mem_changesOf heads).mp group
  have flag : (s.recursive && s.relations.contains a.relationName) = true := congrArg Prod.snd same
  rw [flat] at flag
  cases flag

end Changes

end Groups

section Removal

variable {relation : Relation} {suffix name other : String} {head body kind : TableKind}
  {relations : List (String × Relation)} {e : Entry D}

theorem removal_derives :
    (tableRule relation name suffix .retract head body).Derives I catalog db k other kind e ↔
      other = name ∧ kind = head ∧ ∃ stored ∈ db name body, stored.tuple.length = relation.arity ∧
        e = ⟨stored.tuple,
          (tableRule relation name suffix .retract head body).headStamp catalog k name head⟩ := by
  have shape := @tableRule_derives _ I catalog db k relation name other suffix .retract head body kind
    (tableRule relation name suffix .retract head body) e rfl rfl rfl
  have guarded (stored : Entry D) : (∀ n,
      (tableRule relation name suffix .retract head body).guardStamp k 0 = some n →
        stored.stamp = some n) ↔ True := ⟨fun _ => trivial, fun _ => nofun⟩
  simpa only [guarded, true_and] using shape

theorem tableRule_writes {action : Action}
    (written : (tableRule relation name suffix action head body).Writes other kind) :
    kind = head ∧ other = name := by
  obtain ⟨a, member, named, same⟩ := written
  cases List.mem_singleton.mp member
  exact ⟨same.symm, Option.some.inj named.symm⟩

def removalGroup (suffix : String) (head body : TableKind) (relations : List (String × Relation)) :
    List Rule :=
  relations.map fun entry => tableRule entry.2 entry.1 suffix .retract head body

theorem removalGroup_confined {targets : String → Prop} (listed : ∀ entry ∈ relations, targets entry.1) :
    Confined head targets db
      (Rule.runRules I catalog k (removalGroup suffix head body relations) db).1 := by
  refine confined_runRules ?_ confined_refl
  intro rule member name other written
  obtain ⟨entry, inside, rfl⟩ := List.mem_map.mp member
  obtain ⟨rfl, rfl⟩ := tableRule_writes written
  exact ⟨rfl, listed entry inside⟩

theorem removalGroup_shrinks :
    Grows (Rule.runRules I catalog k (removalGroup suffix head body relations) db).1 db := by
  refine Rule.runRules_keeps (fun next => Grows next db) ?_ fun _ _ _ there => there
  intro rule member next shrinks name kind e there
  obtain ⟨entry, -, rfl⟩ := List.mem_map.mp member
  exact shrinks name kind e ((Rule.runOn_retract rfl).mp there).1

theorem removalGroup_keeps (differ : body ≠ head) (there : e ∈ db name head)
    (new : e.tuple ∉ db.facts body name) :
    e ∈ (Rule.runRules I catalog k (removalGroup suffix head body relations) db).1 name head := by
  have kept := @Rule.runRules_keeps _ I catalog k db (removalGroup suffix head body relations)
    (fun next => e ∈ next name head ∧ next name body = db name body) ?_ ⟨there, rfl⟩
  · exact kept.1
  · rintro rule member next ⟨there, same⟩
    obtain ⟨entry, -, rfl⟩ := List.mem_map.mp member
    refine ⟨(Rule.runOn_retract rfl).mpr ⟨there, fun gone made tuple => new ?_⟩, ?_⟩
    · obtain ⟨rfl, -, stored, inBody, -, rfl⟩ := removal_derives.mp made
      rw [same] at inBody
      exact ⟨stored, inBody, tuple⟩
    · exact (Rule.runOn_frame fun written => differ (tableRule_writes written).1).trans same

theorem removalGroup_removes (differ : body ≠ head) (listed : (name, relation) ∈ relations)
    (fits : e.tuple.length = relation.arity) (stored : e.tuple ∈ db.facts body name) :
    e ∉ (Rule.runRules I catalog k (removalGroup suffix head body relations) db).1 name head := by
  refine Rule.runRules_brings (fun next : Tables D => next name body = db name body)
    (fun next => e ∉ next name head) ?_ ?_ (List.mem_map.mpr ⟨(name, relation), listed, rfl⟩) ?_ rfl
  · intro rule member next same
    obtain ⟨entry, -, rfl⟩ := List.mem_map.mp member
    exact (Rule.runOn_frame fun written => differ (tableRule_writes written).1).trans same
  · intro rule member next _ absent there
    obtain ⟨entry, -, rfl⟩ := List.mem_map.mp member
    exact absent ((Rule.runOn_retract rfl).mp there).1
  · intro next same there
    obtain ⟨gone, inBody, tuple⟩ := stored
    rw [← same] at inBody
    exact ((Rule.runOn_retract rfl).mp there).2 _
      (removal_derives.mpr ⟨rfl, rfl, gone, inBody, by rw [tuple]; exact fits, rfl⟩) tuple

end Removal

end Maintenance

end PeerExchange
