import Mathlib.Data.Set.Basic
import PeerExchange.Proofs.Running
import PeerExchange.Skolem

namespace PeerExchange

-- Values stay abstract: what constants, invented values and built-ins mean is given.
structure Interpretation (D : Type) where
  constant : Option ColumnType → Literal → D
  invented : String → List D → D
  holds : Builtin → List D → Prop

abbrev Valuation (D : Type) := String → D

-- A stored tuple, with its stamp where the table has a stratum column.
structure Entry (D : Type) where
  tuple : List D
  stamp : Option Int

abbrev Tables (D : Type) := String → TableKind → Set (Entry D)

abbrev Facts (D : Type) := String → Set (List D)

variable {D : Type}

namespace Term

mutual

def denote (I : Interpretation D) (θ : Valuation D) : Term → D
  | .variable v => θ v.name
  | .constant type value => I.constant type value
  | .skolem function args => I.invented function (denoteAll I θ args)

def denoteAll (I : Interpretation D) (θ : Valuation D) : List Term → List D
  | [] => []
  | a :: rest => denote I θ a :: denoteAll I θ rest

end

end Term

namespace Tables

def facts (db : Tables D) (kind : TableKind) : Facts D := fun name =>
  {t | ∃ e ∈ db name kind, e.tuple = t}

def ofFacts (M : Facts D) : Tables D := fun name kind => {e | kind = .base ∧ e.tuple ∈ M name}

def withoutPending (db : Tables D) (name : String) : Tables D := fun other kind =>
  {e | e ∈ db other kind ∧ (other = name → kind = .base)}

end Tables

namespace Atom

def tuple (I : Interpretation D) (θ : Valuation D) (a : Atom) : List D :=
  a.args.map (Term.denote I θ)

def Holds (I : Interpretation D) (db : Tables D) (θ : Valuation D) (stamp : Option Int)
    (a : Atom) : Prop :=
  match a.predicate with
  | .relation name =>
    ∃ e ∈ db name a.kind, e.tuple = a.tuple I θ ∧ ∀ n, stamp = some n → e.stamp = some n
  | .builtin op => I.holds op (a.tuple I θ)

end Atom

namespace Rule

def guardStamp (r : Rule) (k : Int) (position : Nat) : Option Int :=
  match r.guard with
  | some g => if g.position = position then some (k + g.offset) else none
  | none => none

def Invents (I : Interpretation D) (r : Rule) (θ : Valuation D) : Prop :=
  ∀ v ∈ r.neededVariables, v.name ∉ r.boundNames → ∀ t, v.skolem.bind r.invention? = some t →
    θ v.name = t.denote I θ

def Matches (I : Interpretation D) (db : Tables D) (k : Int) (r : Rule) (θ : Valuation D) : Prop :=
  r.Invents I θ ∧ ∀ (position : Nat) (a : Atom), r.body[position]? = some a →
    if a.negated then ¬ a.Holds I db θ none else a.Holds I db θ (r.guardStamp k position)

def stampAt (r : Rule) (k : Int) : Int :=
  match r.stamp with
  | some (.fixed n) => n
  | some (.iteration offset) => k + offset
  | none => 0

def headStamp (catalog : Catalog) (k : Int) (r : Rule) (name : String) (kind : TableKind) :
    Option Int :=
  match catalog.relations.get? name with
  | some relation => if relation.hasStratum kind then some (r.stampAt k) else none
  | none => none

def Derives (I : Interpretation D) (catalog : Catalog) (db : Tables D) (k : Int) (r : Rule)
    (name : String) (kind : TableKind) (e : Entry D) : Prop :=
  ∃ θ, r.Matches I db k θ ∧ ∃ a ∈ r.head, a.relation? = some name ∧ a.kind = kind ∧
    e = ⟨a.tuple I θ, r.headStamp catalog k name kind⟩

def Writes (r : Rule) (name : String) (kind : TableKind) : Prop :=
  ∃ a ∈ r.head, a.relation? = some name ∧ a.kind = kind

def runOn (I : Interpretation D) (catalog : Catalog) (k : Int) (r : Rule) (db : Tables D) :
    Tables D := fun name kind =>
  match r.action with
  | .derive => {e | e ∈ db name kind ∨ r.Derives I catalog db k name kind e}
  | .retract =>
    {e | e ∈ db name kind ∧ ∀ gone, r.Derives I catalog db k name kind gone → gone.tuple ≠ e.tuple}
  | .replace =>
    {e | r.Derives I catalog db k name kind e ∨ (e ∈ db name kind ∧ ¬ r.Writes name kind)}
  | .view => db name kind

open Classical in
noncomputable def runRules (I : Interpretation D) (catalog : Catalog) (k : Int) :
    List Rule → Tables D → Tables D × Nat
  | [], db => (db, 0)
  | r :: rest, db =>
    let next := r.runOn I catalog k db
    let (last, changed) := runRules I catalog k rest next
    (last, (if next = db then 0 else 1) + changed)

end Rule

-- Carries out a maintenance program on sets of tuples.
noncomputable def Interpretation.machine (I : Interpretation D) (catalog : Catalog) (limit : Nat) :
    Machine (Tables D) where
  runGroup rules k := do
    let running ← get
    let (next, changed) := Rule.runRules I catalog k rules running.state
    set { running with state := next }
    return changed
  clearPending name := modify fun running =>
    { running with state := running.state.withoutPending name }
  limit := limit

-- Every match of a rule has its head tuples among the facts.
def IsModel (I : Interpretation D) (rules : List Rule) (M : Facts D) : Prop :=
  ∀ r ∈ rules, ∀ θ, r.Matches I (.ofFacts M) 0 θ → ∀ a ∈ r.head, ∀ name, a.relation? = some name →
    a.tuple I θ ∈ M name

def leastModel (I : Interpretation D) (rules : List Rule) (given : Facts D) : Facts D := fun name =>
  {t | ∀ M, (∀ other, given other ⊆ M other) → IsModel I rules M → t ∈ M name}

namespace Term

@[simp] theorem denoteAll_eq_map (I : Interpretation D) (θ : Valuation D) (args : List Term) :
    denoteAll I θ args = args.map (denote I θ) := by
  induction args with
  | nil => rfl
  | cons a rest ih => simp [denoteAll, ih]

end Term

namespace Tables

variable {db : Tables D} {name : String} {kind : TableKind} {t : List D}

theorem mem_facts_of_mem {e : Entry D} (stored : e ∈ db name kind) :
    e.tuple ∈ db.facts kind name := ⟨e, stored, rfl⟩

theorem facts_congr {db db' : Tables D} (same : db name kind = db' name kind) :
    db.facts kind name = db'.facts kind name := by
  unfold facts
  rw [same]

theorem facts_ofFacts (M : Facts D) : (ofFacts M).facts .base = M := by
  funext name
  ext t
  constructor
  · rintro ⟨e, ⟨-, inside⟩, rfl⟩
    exact inside
  · intro inside
    exact ⟨⟨t, none⟩, ⟨rfl, inside⟩, rfl⟩

end Tables

namespace Atom

variable {I : Interpretation D} {θ : Valuation D} {a : Atom} {name : String}

@[simp] theorem tuple_withKind (kind : TableKind) :
    (a.withKind kind).tuple I θ = a.tuple I θ := rfl

@[simp] theorem tuple_negate : a.negate.tuple I θ = a.tuple I θ := rfl

theorem predicate_of_relation (named : a.relation? = some name) : a.predicate = .relation name := by
  unfold relation? at named
  split at named
  · rename_i other same
    rw [same, Option.some.inj named]
  · cases named

theorem predicate_of_builtin {op : Builtin} (called : a.builtin? = some op) :
    a.predicate = .builtin op := by
  unfold builtin? at called
  split at called
  · cases called
  · rename_i other same
    rw [same, Option.some.inj called]

theorem holds_relation (named : a.relation? = some name) {db : Tables D} {stamp : Option Int} :
    a.Holds I db θ stamp ↔
      ∃ e ∈ db name a.kind, e.tuple = a.tuple I θ ∧ ∀ n, stamp = some n → e.stamp = some n := by
  unfold Holds
  rw [predicate_of_relation named]

theorem holds_unguarded (named : a.relation? = some name) {db : Tables D} :
    a.Holds I db θ none ↔ a.tuple I θ ∈ db.facts a.kind name := by
  rw [holds_relation named]
  constructor
  · rintro ⟨e, stored, same, -⟩
    exact ⟨e, stored, same⟩
  · rintro ⟨e, stored, same⟩
    exact ⟨e, stored, same, nofun⟩

theorem holds_builtin {op : Builtin} (called : a.builtin? = some op) {db : Tables D}
    {stamp : Option Int} : a.Holds I db θ stamp ↔ I.holds op (a.tuple I θ) := by
  unfold Holds
  rw [predicate_of_builtin called]

end Atom

namespace Rule

variable {I : Interpretation D} {catalog : Catalog} {k : Int} {r : Rule} {db : Tables D}
  {name : String} {kind : TableKind} {e : Entry D}

-- Every body atom that is joined is among the facts, and every built-in holds.
structure Supports (I : Interpretation D) (M : Facts D) (r : Rule) (θ : Valuation D) : Prop where
  invents : r.Invents I θ
  joined : ∀ a ∈ r.body, ∀ name, a.relation? = some name → a.tuple I θ ∈ M name
  tested : ∀ a ∈ r.body, ∀ op, a.builtin? = some op → I.holds op (a.tuple I θ)

theorem Supports.mono {M N : Facts D} {θ : Valuation D} (supported : r.Supports I M θ)
    (larger : ∀ a ∈ r.body, ∀ name, a.relation? = some name → a.tuple I θ ∈ M name →
      a.tuple I θ ∈ N name) : r.Supports I N θ where
  invents := supported.invents
  joined a member name named := larger a member name named (supported.joined a member name named)
  tested := supported.tested

def Plain (r : Rule) : Prop :=
  ∀ a ∈ r.body, a.negated = false ∧ (a.relation?.isSome = true → a.kind = .base)

theorem relation_or_builtin (a : Atom) :
    (∃ name, a.relation? = some name) ∨ ∃ op, a.builtin? = some op := by
  unfold Atom.relation? Atom.builtin?
  cases a.predicate with
  | relation name => exact .inl ⟨name, rfl⟩
  | builtin op => exact .inr ⟨op, rfl⟩

theorem Plain.kind_eq (plain : r.Plain) {a : Atom} (member : a ∈ r.body)
    (named : a.relation? = some name) : a.kind = .base :=
  (plain a member).2 (by rw [named]; rfl)

theorem supports_iff_holds (plain : r.Plain) {θ : Valuation D} :
    r.Supports I (db.facts .base) θ ↔ r.Invents I θ ∧ ∀ a ∈ r.body, a.Holds I db θ none := by
  constructor
  · intro supported
    refine ⟨supported.invents, fun a member => ?_⟩
    rcases relation_or_builtin a with ⟨name, named⟩ | ⟨op, called⟩
    · rw [Atom.holds_unguarded named, plain.kind_eq member named]
      exact supported.joined a member name named
    · exact (Atom.holds_builtin called).mpr (supported.tested a member op called)
  · rintro ⟨invents, held⟩
    refine ⟨invents, fun a member name named => ?_, fun a member op called => ?_⟩
    · rw [← plain.kind_eq member named]
      exact (Atom.holds_unguarded named).mp (held a member)
    · exact (Atom.holds_builtin called).mp (held a member)

theorem matches_ofFacts (plain : r.Plain) {M : Facts D} {θ : Valuation D} :
    r.Matches I (.ofFacts M) k θ ↔ r.Supports I M θ := by
  constructor
  · rintro ⟨invents, each⟩
    refine ⟨invents, ?_, ?_⟩
    · intro a member name named
      obtain ⟨position, found⟩ := List.mem_iff_getElem?.mp member
      have held := each position a found
      rw [(plain a member).1, if_neg Bool.false_ne_true, Atom.holds_relation named] at held
      obtain ⟨e, ⟨-, inside⟩, same, -⟩ := held
      rw [← same]
      exact inside
    · intro a member op called
      obtain ⟨position, found⟩ := List.mem_iff_getElem?.mp member
      have held := each position a found
      rw [(plain a member).1, if_neg Bool.false_ne_true, Atom.holds_builtin called] at held
      exact held
  · intro supported
    refine ⟨supported.invents, ?_⟩
    intro position a found
    have member : a ∈ r.body := List.mem_of_getElem? found
    rw [(plain a member).1, if_neg Bool.false_ne_true]
    rcases relation_or_builtin a with ⟨name, named⟩ | ⟨op, called⟩
    · rw [Atom.holds_relation named]
      exact ⟨⟨a.tuple I θ, r.guardStamp k position⟩,
        ⟨plain.kind_eq member named, supported.joined a member name named⟩, rfl, fun _ same => same⟩
    · rw [Atom.holds_builtin called]
      exact supported.tested a member op called

theorem runOn_derive (action : r.action = .derive) :
    e ∈ r.runOn I catalog k db name kind ↔
      e ∈ db name kind ∨ r.Derives I catalog db k name kind e := by
  simp only [runOn, action]
  rfl

theorem runOn_retract (action : r.action = .retract) :
    e ∈ r.runOn I catalog k db name kind ↔ e ∈ db name kind ∧
      ∀ gone, r.Derives I catalog db k name kind gone → gone.tuple ≠ e.tuple := by
  simp only [runOn, action]
  rfl

theorem Derives.writes (derived : r.Derives I catalog db k name kind e) : r.Writes name kind := by
  obtain ⟨_, -, a, member, named, same, -⟩ := derived
  exact ⟨a, member, named, same⟩

theorem runOn_frame (other : ¬ r.Writes name kind) :
    r.runOn I catalog k db name kind = db name kind := by
  ext e
  unfold runOn
  split
  · exact or_iff_left fun derived => other derived.writes
  · exact and_iff_left fun gone derived => absurd derived.writes other
  · constructor
    · rintro (derived | old)
      · exact absurd derived.writes other
      · exact old.1
    · exact fun old => .inr ⟨old, other⟩
  · rfl

theorem runRules_cons {rest : List Rule} :
    (runRules I catalog k (r :: rest) db).1 =
      (runRules I catalog k rest (r.runOn I catalog k db)).1 := rfl

theorem runRules_append {first second : List Rule} :
    (runRules I catalog k (first ++ second) db).1 =
      (runRules I catalog k second (runRules I catalog k first db).1).1 := by
  induction first generalizing db with
  | nil => rfl
  | cons r rest ih =>
    rw [List.cons_append, runRules_cons, ih]
    rfl

theorem runRules_keeps {rules : List Rule} (holds : Tables D → Prop)
    (kept : ∀ r ∈ rules, ∀ db, holds db → holds (r.runOn I catalog k db)) (start : holds db) :
    holds (runRules I catalog k rules db).1 := by
  induction rules generalizing db with
  | nil => exact start
  | cons first rest ih =>
    rw [runRules_cons]
    exact ih (fun r member => kept r (List.mem_cons_of_mem _ member))
      (kept first List.mem_cons_self db start)

theorem runRules_brings {rules : List Rule} (holds brought : Tables D → Prop)
    (kept : ∀ r ∈ rules, ∀ db, holds db → holds (r.runOn I catalog k db))
    (lasts : ∀ r ∈ rules, ∀ db, holds db → brought db → brought (r.runOn I catalog k db))
    (member : r ∈ rules) (brings : ∀ db, holds db → brought (r.runOn I catalog k db))
    (start : holds db) : brought (runRules I catalog k rules db).1 := by
  induction rules generalizing db with
  | nil => cases member
  | cons first rest ih =>
    have keptRest := fun r inside => kept r (List.mem_cons_of_mem first inside)
    have lastsRest := fun r inside => lasts r (List.mem_cons_of_mem first inside)
    have next := kept first List.mem_cons_self db start
    rw [runRules_cons]
    rcases List.mem_cons.mp member with rfl | later
    · exact (runRules_keeps (fun db => holds db ∧ brought db)
        (fun r inside db both => ⟨keptRest r inside db both.1, lastsRest r inside db both.1 both.2⟩)
        ⟨next, brings db start⟩).2
    · exact ih keptRest lastsRest later next

theorem runRules_unchanged {rules : List Rule}
    (none : (runRules I catalog k rules db).2 = 0) :
    (runRules I catalog k rules db).1 = db ∧ ∀ r ∈ rules, r.runOn I catalog k db = db := by
  induction rules generalizing db with
  | nil => exact ⟨rfl, List.forall_mem_nil _⟩
  | cons first rest ih =>
    obtain ⟨here, later⟩ := Nat.add_eq_zero_iff.mp none
    have same : first.runOn I catalog k db = db := by
      apply Classical.byContradiction
      intro moved
      rw [if_neg moved] at here
      cases here
    have after := ih later
    rw [same] at after
    refine ⟨by rw [runRules_cons, same]; exact after.1, ?_⟩
    intro r member
    rcases List.mem_cons.mp member with rfl | inside
    · exact same
    · exact after.2 r inside

end Rule

namespace Interpretation

variable {I : Interpretation D} {catalog : Catalog} {limit : Nat} {s t : Running (Tables D)}

theorem ends_runGroup {rules : List Rule} {k : Int} {changed : Nat} :
    Run.Ends ((I.machine catalog limit).runGroup rules k) s changed t ↔
      { s with state := (Rule.runRules I catalog k rules s.state).1 } = t ∧
        (Rule.runRules I catalog k rules s.state).2 = changed := by
  constructor
  · intro ended
    have equal : ((.ok (Rule.runRules I catalog k rules s.state).2 : Except RunError Nat),
      { s with state := (Rule.runRules I catalog k rules s.state).1 }) = (.ok changed, t) := ended
    exact ⟨congrArg Prod.snd equal, Except.ok.inj (congrArg Prod.fst equal)⟩
  · rintro ⟨rfl, rfl⟩
    rfl

theorem ends_clearPending {name : String} {u : Unit} :
    Run.Ends ((I.machine catalog limit).clearPending name) s u t ↔
      { s with state := s.state.withoutPending name } = t := by
  constructor
  · intro ended
    exact congrArg Prod.snd (show ((.ok () : Except RunError Unit),
      { s with state := s.state.withoutPending name }) = (.ok u, t) from ended)
  · rintro rfl
    rfl

theorem onlyDiverges_runGroup (rules : List Rule) (k : Int) :
    Run.OnlyDiverges ((I.machine catalog limit).runGroup rules k) := by
  intro s cause t failed
  cases congrArg Prod.fst failed

theorem onlyDiverges_clearPending (name : String) :
    Run.OnlyDiverges ((I.machine catalog limit).clearPending name) := by
  intro s cause t failed
  cases congrArg Prod.fst failed

end Interpretation

section Models

variable {I : Interpretation D} {rules : List Rule} {given : Facts D} {name : String} {t : List D}

theorem given_subset_leastModel : given name ⊆ leastModel I rules given name :=
  fun _ inside _ larger _ => larger name inside

theorem leastModel_subset {M : Facts D} (larger : ∀ other, given other ⊆ M other)
    (model : IsModel I rules M) : leastModel I rules given name ⊆ M name :=
  fun _ inside => inside M larger model

theorem leastModel_mono {less : Facts D} (below : ∀ other, less other ⊆ given other) :
    leastModel I rules less name ⊆ leastModel I rules given name :=
  fun _ inside M larger model => inside M (fun other => (below other).trans (larger other)) model

theorem leastModel_closed (plain : ∀ r ∈ rules, r.Plain) {r : Rule} (member : r ∈ rules)
    {θ : Valuation D} (supported : r.Supports I (leastModel I rules given) θ) {a : Atom}
    (head : a ∈ r.head) (named : a.relation? = some name) :
    a.tuple I θ ∈ leastModel I rules given name := by
  intro M larger model
  have inM : r.Supports I M θ :=
    supported.mono fun _ _ _ _ inside => leastModel_subset larger model inside
  exact model r member θ ((Rule.matches_ofFacts (plain r member)).mpr inM) a head name named

theorem isModel_of_supports (plain : ∀ r ∈ rules, r.Plain) {M : Facts D}
    (closed : ∀ r ∈ rules, ∀ θ, r.Supports I M θ → ∀ a ∈ r.head, ∀ name, a.relation? = some name →
      a.tuple I θ ∈ M name) : IsModel I rules M :=
  fun r member θ matched => closed r member θ ((Rule.matches_ofFacts (plain r member)).mp matched)

end Models

end PeerExchange
