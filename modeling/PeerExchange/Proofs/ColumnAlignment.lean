import PeerExchange.Proofs.ColumnNames
import PeerExchange.Proofs.RuleTypes

namespace PeerExchange

open Provenance

namespace ProvenanceColumn

-- A column later on. What it was made with stays, and so does what rules put into it.
structure Extends (c d : ProvenanceColumn) : Prop where
  key : d.key = c.key
  name : d.name = c.name
  type : d.type = c.type
  contributions : c.contributions <+: d.contributions

theorem Extends.refl (c : ProvenanceColumn) : c.Extends c := ⟨rfl, rfl, rfl, List.prefix_refl _⟩

theorem Extends.trans {b c d : ProvenanceColumn} (first : b.Extends c) (later : c.Extends d) :
    b.Extends d where
  key := later.key.trans first.key
  name := later.name.trans first.name
  type := later.type.trans first.type
  contributions := first.contributions.trans later.contributions

end ProvenanceColumn

namespace ProvenanceRelation

variable {catalog : Catalog} {p q : ProvenanceRelation} {rule : Rule} {members : List Rule}
  {index : Nat} {e : Provenance.Entry} {es : List Provenance.Entry} {columns columns' : List ProvenanceColumn}

-- Columns later on: each at its position, and new ones after them.
def Extend (columns columns' : List ProvenanceColumn) : Prop :=
  ∀ (i : Nat) c, columns[i]? = some c → ∃ d, columns'[i]? = some d ∧ c.Extends d

theorem Extend.trans {columns'' : List ProvenanceColumn} (first : Extend columns columns')
    (later : Extend columns' columns'') : Extend columns columns'' := by
  intro i c here
  obtain ⟨d, there, extends_⟩ := first i c here
  obtain ⟨e, last, further⟩ := later i d there
  exact ⟨e, last, extends_.trans further⟩

theorem Extend.cons {c d : ProvenanceColumn} (first : c.Extends d) (rest : Extend columns columns') :
    Extend (c :: columns) (d :: columns') := by
  intro i b here
  cases i with
  | zero => exact ⟨d, rfl, Option.some.inj here ▸ first⟩
  | succ i => exact rest i b here

theorem extend_append (added : List ProvenanceColumn) : Extend columns (columns ++ added) := by
  intro i c here
  obtain ⟨bound, -⟩ := List.getElem?_eq_some_iff.mp here
  exact ⟨c, (List.getElem?_append_left bound).trans here, .refl c⟩

theorem extend_map {f : ProvenanceColumn → ProvenanceColumn} (each : ∀ c : ProvenanceColumn, c.Extends (f c)) :
    Extend columns (columns.map f) := by
  intro i c here
  exact ⟨f c, by rw [List.getElem?_map, here, Option.map_some], each c⟩

theorem extend_refl (columns : List ProvenanceColumn) : Extend columns columns :=
  fun _ c here => ⟨c, here, .refl c⟩

theorem extend_fill (ran : fill rule index e columns = .ok columns') : Extend columns columns' := by
  induction columns generalizing columns' with
  | nil => exact nofun
  | cons c rest ih =>
    unfold fill at ran
    split at ran
    · split at ran
      · cases ran
      · split at ran
        · cases ran
          exact .cons ⟨rfl, rfl, rfl, List.prefix_append ..⟩ (extend_refl rest)
        · cases ran
    · obtain ⟨others, later, ran⟩ := Compiled.bind_ok.mp ran
      cases ran
      exact .cons (.refl c) (ih later)

theorem extend_addEntries (ran : addEntries rule es p = (q, .ok ())) :
    Extend p.columns q.columns ∧ q.rules = p.rules := by
  induction es generalizing p with
  | nil =>
    cases ran
    exact ⟨extend_refl _, rfl⟩
  | cons e rest ih =>
    obtain ⟨added, extended, rules, -⟩ := key_withColumn (p := p) (e := e)
    unfold addEntries at ran
    dsimp only at ran
    split at ran
    · rename_i columns placed
      obtain ⟨later, same⟩ := ih ran
      refine ⟨?_, same.trans rules⟩
      exact (extended ▸ extend_append added).trans ((extend_fill placed).trans later)
    · cases congrArg Prod.snd ran

theorem extend_addRule (ran : p.addRule catalog rule = (q, .ok ())) :
    Extend p.columns q.columns ∧ q.rules = p.rules ++ [rule.id] := by
  unfold addRule at ran
  split at ran
  · cases congrArg Prod.snd ran
  · split at ran
    · cases congrArg Prod.snd ran
    · rename_i filled added
      cases ran
      obtain ⟨extend, rules⟩ := extend_addEntries added
      refine ⟨extend.trans (extend_map fun c => ?_), congrArg (· ++ [rule.id]) rules⟩
      unfold padTo
      split
      · exact ⟨rfl, rfl, rfl, List.prefix_append ..⟩
      · exact .refl c

theorem extend_addRules (ran : addRules catalog members p = .ok q) :
    Extend p.columns q.columns ∧ q.rules = p.rules ++ members.map Rule.id := by
  induction members generalizing p with
  | nil =>
    cases ran
    exact ⟨extend_refl _, (List.append_nil _).symm⟩
  | cons rule rest ih =>
    unfold addRules at ran
    split at ran
    · rename_i middle first
      obtain ⟨extend, rules⟩ := extend_addRule first
      obtain ⟨later, all⟩ := ih ran
      exact ⟨extend.trans later, by rw [all, rules, List.append_assoc]; rfl⟩
    · cases ran

section Running

-- A value that a column takes from the rule at an index.
structure Takes (index : Nat) (c : ProvenanceColumn) (e : Provenance.Entry) : Prop where
  room : c.contributions.length ≤ index
  type : c.type = e.column.type

theorem fill_runs (takes : ∀ c ∈ columns, c.key = e.key → Takes index c e) :
    ∃ columns', fill rule index e columns = .ok columns' ∧
      ∀ d ∈ columns', d ∈ columns ∨ d.key = e.key := by
  induction columns with
  | nil => exact ⟨[], rfl, nofun⟩
  | cons c rest ih =>
    obtain ⟨here, others⟩ := List.forall_mem_cons.mp takes
    unfold fill
    by_cases same : c.key = e.key
    · obtain ⟨room, type⟩ := here same
      rw [if_pos same, if_neg (Nat.not_lt.mpr room), if_pos type]
      refine ⟨_, rfl, List.forall_mem_cons.mpr ⟨.inr same, fun d inside => ?_⟩⟩
      exact .inl (List.mem_cons_of_mem _ inside)
    · obtain ⟨filled, ran, origin⟩ := ih others
      rw [if_neg same, ran]
      refine ⟨_, rfl, List.forall_mem_cons.mpr ⟨.inl List.mem_cons_self, fun d inside => ?_⟩⟩
      exact (origin d inside).imp_left (List.mem_cons_of_mem _)

theorem takes_withColumn (takes : ∀ c ∈ p.columns, c.key = e.key → Takes p.rules.length c e) :
    (∀ c ∈ (p.withColumn e).columns, c.key = e.key → Takes p.rules.length c e) ∧
      ∀ c ∈ (p.withColumn e).columns, c ∈ p.columns ∨ c.key = e.key := by
  unfold withColumn
  split
  · exact ⟨takes, fun c inside => .inl inside⟩
  · refine ⟨List.forall_mem_append.mpr ⟨takes, List.forall_mem_singleton.mpr fun _ => ?_⟩,
      List.forall_mem_append.mpr ⟨fun c inside => .inl inside, List.forall_mem_singleton.mpr
        (.inr rfl)⟩⟩
    exact ⟨(List.length_replicate ..).le, rfl⟩

theorem addEntries_runs (distinct : (es.map Provenance.Entry.key).Nodup)
    (takes : ∀ e ∈ es, ∀ c ∈ p.columns, c.key = e.key → Takes p.rules.length c e) :
    ∃ q, addEntries rule es p = (q, .ok ()) := by
  induction es generalizing p with
  | nil => exact ⟨p, rfl⟩
  | cons e rest ih =>
    obtain ⟨new, distinct⟩ := List.nodup_cons.mp distinct
    obtain ⟨here, others⟩ := List.forall_mem_cons.mp takes
    have rules : (p.withColumn e).rules = p.rules := (key_withColumn (p := p) (e := e)).choose_spec.2.1
    obtain ⟨own, made⟩ := takes_withColumn here
    rw [← rules] at own
    obtain ⟨columns, ran, origin⟩ := @fill_runs rule _ _ _ own
    unfold addEntries
    dsimp only
    rw [ran]
    refine ih (p := { p.withColumn e with columns := columns }) distinct fun d listed c inside same => ?_
    rw [rules]
    -- The columns of other keys are those from before.
    have apart : c.key ≠ e.key := fun equal => new (List.mem_map.mpr ⟨d, listed, same.symm.trans equal⟩)
    have old : c ∈ p.columns := (made c ((origin c inside).resolve_right apart)).resolve_right apart
    exact others d listed c old same

theorem addRule_runs (made : entries catalog rule = .ok es) (distinct : (es.map Provenance.Entry.key).Nodup)
    (takes : ∀ e ∈ es, ∀ c ∈ p.columns, c.key = e.key → Takes p.rules.length c e) :
    ∃ q, p.addRule catalog rule = (q, .ok ()) := by
  obtain ⟨q, ran⟩ := @addEntries_runs p rule _ distinct takes
  unfold addRule
  rw [made]
  dsimp only
  rw [ran]
  exact ⟨_, rfl⟩

end Running

end ProvenanceRelation

namespace Catalog

variable {c : Catalog}

-- Catalogs that relations were added to one by one. Mappings may change in between.
inductive Built : Catalog → Prop
  | empty : Built .empty
  | addRelation {c c' : Catalog} {r : Relation} (before : Built c) (added : c.addRelation r = .ok c') :
      Built c'
  | mappings {c : Catalog} (before : Built c) (mappings : List Rule) : Built { c with mappings }

theorem Built.isNamed (built : c.Built) : c.IsNamed := by
  induction built with
  | empty => exact nofun
  | addRelation before added named => exact named.insert (addRelation_ok added).2.1
  | mappings before mappings named => exact named

def HasDistinctColumns (c : Catalog) : Prop :=
  ∀ name r, c.relations.get? name = some r → (r.columns.map Column.name).Nodup

theorem distinctColumns_of_entries
    (distinct : ∀ e ∈ c.relations.entries, (e.2.columns.map Column.name).Nodup) :
    c.HasDistinctColumns := fun name r found => distinct (name, r) (NameMap.mem_of_lookup found)

def ofRelations (relations : List Relation) : Catalog :=
  relations.foldl (fun c r => ((c.addRelation r).toOption).getD c) .empty

theorem built_ofRelations (relations : List Relation) : (ofRelations relations).Built := by
  refine List.foldlRecOn relations _ .empty fun c built r _ => ?_
  cases added : c.addRelation r with
  | ok c' => exact built.addRelation added
  | error cause => exact built

end Catalog

namespace ColumnKey

def ref : ColumnKey → ColumnRef
  | target relation column => ⟨relation, column⟩
  | source relation column _ => ⟨relation, column⟩

end ColumnKey

namespace Provenance

variable {catalog : Catalog} {rule : Rule} {atoms : List Atom} {a : Atom} {found read : List AtomPlace}
  {e : Provenance.Entry} {es : List Provenance.Entry} {place : AtomPlace} {passed : List String}
  {taken : List ColumnRef}

theorem places_run (known : ∀ a ∈ atoms, ∃ r, catalog.relation a.relationName = .ok r) :
    ∃ found, places catalog atoms = .ok found := by
  induction atoms with
  | nil => exact ⟨[], rfl⟩
  | cons a rest ih =>
    obtain ⟨⟨r, here⟩, others⟩ := List.forall_mem_cons.mp known
    obtain ⟨found, later⟩ := ih others
    exact ⟨placesOf r a ++ found, Compiled.bind_ok.mpr ⟨r, here, Compiled.bind_ok.mpr ⟨found, later, rfl⟩⟩⟩

theorem column_of_place (named : catalog.IsNamed) (made : places catalog atoms = .ok found)
    (inside : place ∈ found) : ∃ a ∈ atoms, a.relationName = place.relation ∧
      ∃ r, catalog.relations.get? place.relation = some r ∧ place.column ∈ r.columns := by
  obtain ⟨a, member, r, known, placed⟩ := (places_ok made).2 place inside
  have stored := Catalog.relation_ok.mp known
  have own : a.relationName = place.relation :=
    (named _ _ stored).symm.trans (relation_of_place placed).symm
  obtain ⟨pair, zipped, rfl⟩ := List.mem_map.mp placed
  exact ⟨a, member, own, r, own ▸ stored, (List.of_mem_zip zipped).2⟩

theorem nodup_refs (named : catalog.IsNamed) (columns : catalog.HasDistinctColumns)
    (distinct : (atoms.map Atom.relationName).Nodup)
    (arity : ∀ a ∈ atoms, ∀ r, catalog.relation a.relationName = .ok r → a.args.length = r.arity)
    (made : places catalog atoms = .ok found) : (found.map AtomPlace.ref).Nodup := by
  induction atoms generalizing found with
  | nil =>
    cases made
    exact .nil
  | cons a rest ih =>
    obtain ⟨r, known, made⟩ := Compiled.bind_ok.mp made
    obtain ⟨others, later, made⟩ := Compiled.bind_ok.mp made
    cases made
    obtain ⟨new, distinct⟩ := List.nodup_cons.mp distinct
    obtain ⟨length, lengths⟩ := List.forall_mem_cons.mp arity
    have stored := Catalog.relation_ok.mp known
    have own : (placesOf r a).map AtomPlace.ref = (r.columns.map Column.name).map (⟨r.name, ·⟩) := by
      have zipped : (a.args.zip r.columns).map Prod.snd = r.columns :=
        List.map_snd_zip (length r known).ge
      conv_rhs => rw [← zipped]
      simp [placesOf, AtomPlace.ref]
    rw [List.map_append, List.nodup_append, own]
    refine ⟨(columns _ _ stored).map fun x y same => (ColumnRef.mk.inj same).2,
      ih distinct lengths later, ?_⟩
    rintro _ here _ there rfl
    obtain ⟨name, -, same⟩ := List.mem_map.mp here
    obtain ⟨place, listed, rfl⟩ := List.mem_map.mp there
    obtain ⟨b, member, called, -⟩ := column_of_place named later listed
    refine new (List.mem_map.mpr ⟨b, member, ?_⟩)
    rw [called, ← named _ _ stored]
    exact (ColumnRef.mk.inj same).1.symm

theorem ordinal_sourceEntries (member : e ∈ sourceEntries read passed taken found) :
    ∃ place ∈ found, e.column = place.column ∧
      ∃ n, e.key = .source place.relation place.column.name n ∧ taken.count place.ref ≤ n := by
  induction found generalizing passed taken with
  | nil => cases member
  | cons place rest ih =>
    have later {passed : List String} {taken' : List ColumnRef}
        (more : ∀ ref, taken.count ref ≤ taken'.count ref)
        (member : e ∈ sourceEntries read passed taken' rest) :
        ∃ p ∈ place :: rest, e.column = p.column ∧
          ∃ n, e.key = .source p.relation p.column.name n ∧ taken.count p.ref ≤ n := by
      obtain ⟨p, listed, column, n, key, enough⟩ := ih member
      exact ⟨p, List.mem_cons_of_mem _ listed, column, n, key, (more _).trans enough⟩
    unfold sourceEntries at member
    split at member
    · split at member
      · exact later (fun _ => Nat.le_refl _) member
      · rcases List.mem_cons.mp member with rfl | member
        · exact ⟨place, List.mem_cons_self, rfl, _, rfl, Nat.le_refl _⟩
        · exact later (fun ref => List.count_le_count_cons) member
    · exact later (fun _ => Nat.le_refl _) member

theorem nodup_sourceEntries :
    ((sourceEntries read passed taken found).map Provenance.Entry.key).Nodup := by
  induction found generalizing passed taken with
  | nil => exact .nil
  | cons place rest ih =>
    unfold sourceEntries
    split
    · split
      · exact ih
      · refine List.nodup_cons.mpr ⟨fun repeated => ?_, ih⟩
        obtain ⟨e, member, same⟩ := List.mem_map.mp repeated
        obtain ⟨other, -, -, n, key, enough⟩ := ordinal_sourceEntries member
        obtain ⟨relation, column, ordinal⟩ := ColumnKey.source.inj (key.symm.trans same)
        have ref : other.ref = place.ref := by
          rw [AtomPlace.ref, AtomPlace.ref, relation, column]
        rw [ref, ordinal, List.count_cons_self] at enough
        omega
    · exact ih

theorem entries_run (known : ∀ a ∈ rule.head ++ rule.body.filter Atom.isPositive,
    ∃ r, catalog.relation a.relationName = .ok r) : ∃ es, entries catalog rule = .ok es := by
  obtain ⟨heads, joined⟩ := List.forall_mem_append.mp known
  obtain ⟨read, reads⟩ := places_run joined
  obtain ⟨written, writes⟩ := places_run heads
  exact ⟨_, Compiled.bind_ok.mpr ⟨read, reads, Compiled.bind_ok.mpr ⟨written, writes, rfl⟩⟩⟩

theorem nodup_entries (named : catalog.IsNamed) (columns : catalog.HasDistinctColumns)
    (distinct : (rule.head.map Atom.relationName).Nodup)
    (arity : ∀ a ∈ rule.head, ∀ r, catalog.relation a.relationName = .ok r → a.args.length = r.arity)
    (made : entries catalog rule = .ok es) : (es.map Provenance.Entry.key).Nodup := by
  obtain ⟨read, reads, made⟩ := Compiled.bind_ok.mp made
  obtain ⟨written, writes, made⟩ := Compiled.bind_ok.mp made
  cases made
  have targets : (written.map (targetEntry read)).map Provenance.Entry.key =
      (written.map AtomPlace.ref).map fun ref => .target ref.relation ref.column := by
    simp [targetEntry, AtomPlace.ref]
  rw [List.map_append, List.nodup_append, targets]
  refine ⟨(nodup_refs named columns distinct arity writes).map fun x y same => ?_,
    nodup_sourceEntries, ?_⟩
  · obtain ⟨relation, column⟩ := ColumnKey.target.inj same
    exact congr (congrArg ColumnRef.mk relation) column
  · rintro _ here _ there rfl
    obtain ⟨ref, -, same⟩ := List.mem_map.mp here
    obtain ⟨e, member, key⟩ := List.mem_map.mp there
    exact key_sourceEntries member (key.trans same.symm)

theorem column_of_entry (named : catalog.IsNamed) (made : entries catalog rule = .ok es)
    (member : e ∈ es) : ∃ r, catalog.relations.get? e.key.ref.relation = some r ∧
      e.column ∈ r.columns ∧ e.column.name = e.key.ref.column := by
  obtain ⟨read, reads, made⟩ := Compiled.bind_ok.mp made
  obtain ⟨written, writes, made⟩ := Compiled.bind_ok.mp made
  cases made
  rcases List.mem_append.mp member with head | source
  · obtain ⟨place, listed, rfl⟩ := List.mem_map.mp head
    obtain ⟨-, -, -, r, stored, column⟩ := column_of_place named writes listed
    exact ⟨r, stored, column, rfl⟩
  · obtain ⟨place, listed, same, n, key, -⟩ := ordinal_sourceEntries source
    obtain ⟨-, -, -, r, stored, column⟩ := column_of_place named reads listed
    rw [key, same]
    exact ⟨r, stored, column, rfl⟩

theorem type_of_key {first second : Provenance.Entry} {other : Rule} {es' : List Provenance.Entry}
    (named : catalog.IsNamed) (columns : catalog.HasDistinctColumns)
    (made : entries catalog rule = .ok es) (member : first ∈ es)
    (made' : entries catalog other = .ok es') (member' : second ∈ es')
    (same : first.key = second.key) : first.column.type = second.column.type := by
  obtain ⟨r, stored, inside, name⟩ := column_of_entry named made member
  obtain ⟨s, stored', inside', name'⟩ := column_of_entry named made' member'
  rw [same] at stored name
  obtain rfl : r = s := Option.some.inj (stored.symm.trans stored')
  exact congrArg Column.type (List.inj_on_of_nodup_map (columns _ _ stored) inside inside'
    (name.trans name'.symm))

end Provenance

namespace ProvenanceRelation

variable {catalog : Catalog} {p q : ProvenanceRelation} {rule : Rule} {members : List Rule}
  {name : String} {kind : GroupKind} {peer : Option String}

-- Columns of a relation that rules were added to: one contribution of each rule in each column,
-- and columns that are told apart by what they are about and by their names.
structure IsAlignedOver (members : List Rule) (p : ProvenanceRelation) : Prop where
  rules : p.rules = members.map Rule.id
  aligned : p.isAligned = true
  keys : (p.columns.map ProvenanceColumn.key).Nodup
  names : (p.columns.map ProvenanceColumn.name).Nodup

theorem aligned_addRules (ran : addRules catalog members ⟨name, kind, peer, [], [], .empty, false⟩ = .ok p) :
    p.IsAlignedOver members := by
  obtain ⟨rows, recorded, -⟩ := recorded_addRules rfl rfl ran
  have rules : p.rules = members.map Rule.id := by
    simpa using (extend_addRules ran).2
  have nothing : Named [] := ⟨.nil, List.forall_mem_nil _⟩
  refine ⟨rules, ?_, recorded.columns.keys, (nothing.addRules ran).nodup⟩
  refine List.all_eq_true.mpr fun c inside => decide_eq_true ?_
  rw [recorded.columns.contributions c inside, rules]
  simp [recorded.entries.length_eq]

theorem addRules_concat {start : ProvenanceRelation} (ran : addRules catalog members start = .ok p)
    (more : p.addRule catalog rule = (q, .ok ())) :
    addRules catalog (members ++ [rule]) start = .ok q := by
  induction members generalizing start with
  | nil =>
    cases ran
    rw [List.nil_append, addRules, more]
    rfl
  | cons first rest ih =>
    unfold addRules at ran
    rw [List.cons_append, addRules]
    split at ran
    · exact ih ran
    · cases ran

-- A checked rule into different relations.
structure IsAddable (catalog : Catalog) (rule : Rule) : Prop where
  valid : catalog.validateRule rule = .ok ()
  related : ∀ a ∈ rule.head, a.relation?.isSome = true
  distinct : (rule.head.map Atom.relationName).Nodup

theorem IsAddable.known {a : Atom} (addable : IsAddable catalog rule)
    (inside : a ∈ rule.head ++ rule.body.filter Atom.isPositive) :
    ∃ r, catalog.relation a.relationName = .ok r ∧ a.args.length = r.arity := by
  obtain ⟨uses, checked⟩ := Catalog.validateRule_types addable.valid
  have part : a ∈ rule.head ++ rule.body ∧ a.relation?.isSome = true := by
    rcases List.mem_append.mp inside with head | joined
    · exact ⟨List.mem_append_left _ head, addable.related a head⟩
    · obtain ⟨body, positive⟩ := List.mem_filter.mp joined
      exact ⟨List.mem_append_right _ body, (Bool.and_eq_true_iff.mp positive).2⟩
  obtain ⟨name, named⟩ := Option.isSome_iff_exists.mp part.2
  obtain ⟨r, found, length⟩ := (checked a part.1).known name named
  refine ⟨r, Catalog.relation_ok.mpr ?_, length⟩
  rwa [Atom.relationName_of_relation named]

theorem IsAddable.runs {rows : List (List Provenance.Entry)} (addable : IsAddable catalog rule)
    (named : catalog.IsNamed) (columns : catalog.HasDistinctColumns)
    (recorded : p.Recorded catalog members rows) (rules : p.rules = members.map Rule.id) :
    ∃ q, p.addRule catalog rule = (q, .ok ()) := by
  obtain ⟨es, made⟩ := entries_run fun a inside =>
    (addable.known inside).imp fun r known => known.1
  refine addRule_runs made (nodup_entries named columns addable.distinct ?_ made) ?_
  · intro a head r found
    obtain ⟨s, known, length⟩ := addable.known (List.mem_append_left _ head)
    cases found.symm.trans known
    exact length
  · intro e member c inside same
    constructor
    · rw [recorded.columns.contributions c inside, rules]
      simp [recorded.entries.length_eq]
    · obtain ⟨d, none | ⟨row, listed, placed⟩, key⟩ := recorded.columns.needed c inside
      · cases none
      obtain ⟨other, -, filled⟩ := Compiled.forall₂_source recorded.entries listed
      rw [recorded.types row listed d placed c inside key.symm]
      exact type_of_key named columns filled placed made member (key.trans same)

-- However rules are added, columns stay aligned and told apart, each further rule leaves them where
-- they are, and checked rules into different relations are always taken.
theorem addRule_aligned
    (ran : addRules catalog members ⟨name, kind, peer, [], [], .empty, false⟩ = .ok p) :
    p.IsAlignedOver members ∧
      (∀ rule q, p.addRule catalog rule = (q, .ok ()) →
        q.IsAlignedOver (members ++ [rule]) ∧ Extend p.columns q.columns) ∧
      (catalog.Built → catalog.HasDistinctColumns → ∀ rule, IsAddable catalog rule →
        ∃ q, p.addRule catalog rule = (q, .ok ())) := by
  have aligned := aligned_addRules ran
  refine ⟨aligned, fun rule q more => ?_, fun built columns rule addable => ?_⟩
  · exact ⟨aligned_addRules (addRules_concat ran more), (extend_addRule more).1⟩
  · obtain ⟨rows, recorded, -⟩ := recorded_addRules rfl rfl ran
    exact addable.runs built.isNamed columns recorded aligned.rules

section Union

def unionCatalog : Catalog := .ofRelations [
  { name := "R", peer := some "A", columns := [⟨"a", .integer, false⟩, ⟨"b", .integer, false⟩] },
  { name := "U", peer := some "B", columns := [⟨"a", .integer, false⟩, ⟨"b", .integer, false⟩] },
  { name := "T", peer := some "C", columns := [⟨"x", .integer, false⟩, ⟨"y", .integer, true⟩] }]

-- One relation read twice, and a rule that neither reads it nor writes all columns.
def joiningRule : Rule := .ofHead "m1" (.ofRelation "T" [.var "x", .var "y"])
  [.ofRelation "R" [.var "x", .var "z"], .ofRelation "R" [.var "y", .var "w"]]

def paddedRule : Rule := .ofHead "m2" (.ofRelation "T" [.var "x", .typedNull .integer])
  [.ofRelation "U" [.var "x", .var "w"]]

theorem addRule_aligned_union :
    ∃ p q, addRules unionCatalog [joiningRule] ⟨"P_T", .outerUnion, some "C", [], [], .empty, false⟩ =
        .ok p ∧ p.addRule unionCatalog paddedRule = (q, .ok ()) ∧
      q.IsAlignedOver [joiningRule, paddedRule] ∧ Extend p.columns q.columns := by
  have built : unionCatalog.Built := Catalog.built_ofRelations _
  have columns : unionCatalog.HasDistinctColumns := Catalog.distinctColumns_of_entries (by decide)
  have first : IsAddable unionCatalog joiningRule := ⟨rfl, by decide, by decide⟩
  have second : IsAddable unionCatalog paddedRule := ⟨rfl, by decide, by decide⟩
  have start : addRules unionCatalog [] ⟨"P_T", .outerUnion, some "C", [], [], .empty, false⟩ = .ok _ :=
    rfl
  obtain ⟨p, added⟩ := (addRule_aligned start).2.2 built columns joiningRule first
  have ran := addRules_concat start added
  obtain ⟨-, further, takes⟩ := addRule_aligned ran
  obtain ⟨q, more⟩ := takes built columns paddedRule second
  exact ⟨p, q, ran, more, further paddedRule q more⟩

end Union

end ProvenanceRelation

end PeerExchange
