import Mathlib.Data.List.Nodup
import Mathlib.Order.MinMax
import PeerExchange.Proofs.Compiled
import PeerExchange.Proofs.Stratification
import PeerExchange.Provenance.Relation

namespace PeerExchange

open Provenance

namespace ProvenanceRelation

variable {p p' : ProvenanceRelation} {rule : Rule} {index : Nat} {e : Entry} {es done : List Entry}
  {past : List (List Entry)} {columns columns' : List ProvenanceColumn} {key : ColumnKey}

def contributionOf (es : List Entry) (key : ColumnKey) : Contribution :=
  ((es.find? (·.key = key)).map Entry.contribution).getD .padding

-- The columns while a rule is added, after the rules before it and some of its entries.
structure Filling (past : List (List Entry)) (done : List Entry)
    (columns : List ProvenanceColumn) : Prop where
  keys : (columns.map ProvenanceColumn.key).Nodup
  contributions : ∀ c ∈ columns, c.contributions = past.map (contributionOf · c.key) ++
    ((done.find? (·.key = c.key)).map Entry.contribution).toList
  covered : ∀ e, (e ∈ done ∨ ∃ es ∈ past, e ∈ es) → ∃ c ∈ columns, c.key = e.key
  needed : ∀ c ∈ columns, ∃ e, (e ∈ done ∨ ∃ es ∈ past, e ∈ es) ∧ e.key = c.key
  distinct : (done.map Entry.key).Nodup

def filled (e : Entry) (c : ProvenanceColumn) : ProvenanceColumn :=
  if c.key = e.key then
    { c with
      nullable := c.nullable || e.column.nullable
      contributions := c.contributions ++ [e.contribution] }
  else c

theorem key_filled (c : ProvenanceColumn) : (filled e c).key = c.key := by
  unfold filled
  split <;> rfl

theorem fill_ok (keys : (columns.map ProvenanceColumn.key).Nodup)
    (ran : fill rule index e columns = .ok columns') :
    columns' = columns.map (filled e) ∧
      ∀ c ∈ columns, c.key = e.key → c.contributions.length ≤ index := by
  induction columns generalizing columns' with
  | nil =>
    cases ran
    exact ⟨rfl, nofun⟩
  | cons c rest ih =>
    obtain ⟨new, keysRest⟩ := List.nodup_cons.mp keys
    unfold fill at ran
    split at ran
    · rename_i same
      split at ran
      · cases ran
      · rename_i room
        split at ran
        · cases ran
          have others : ∀ d ∈ rest, d.key ≠ e.key := fun d member equal =>
            new (List.mem_map.mpr ⟨d, member, equal.trans same.symm⟩)
          refine ⟨?_, List.forall_mem_cons.mpr
            ⟨fun _ => Nat.le_of_not_lt room, fun d member equal => absurd equal (others d member)⟩⟩
          have kept : rest.map (filled e) = rest := by
            conv_rhs => rw [← List.map_id rest]
            exact List.map_congr_left fun d member => if_neg (others d member)
          rw [List.map_cons, filled, if_pos same, kept]
        · cases ran
    · rename_i differ
      obtain ⟨others, later, ran⟩ := Compiled.bind_ok.mp ran
      cases ran
      obtain ⟨rfl, room⟩ := ih keysRest later
      refine ⟨by rw [List.map_cons, filled, if_neg differ], List.forall_mem_cons.mpr
        ⟨fun equal => absurd equal differ, room⟩⟩

theorem key_withColumn : ∃ added, (p.withColumn e).columns = p.columns ++ added ∧
    (p.withColumn e).rules = p.rules ∧ ((added = [] ∧ ∃ c ∈ p.columns, c.key = e.key) ∨
      ((∀ c ∈ p.columns, c.key ≠ e.key) ∧ ∃ c, added = [c] ∧ c.key = e.key ∧
        c.contributions = List.replicate p.rules.length .padding)) := by
  unfold withColumn
  split
  · rename_i present
    obtain ⟨c, member, same⟩ := List.any_eq_true.mp present
    exact ⟨[], by simp, rfl, .inl ⟨rfl, c, member, of_decide_eq_true same⟩⟩
  · rename_i absent
    refine ⟨_, rfl, rfl, .inr ⟨fun c member same => absent ?_, _, rfl, rfl, rfl⟩⟩
    exact List.any_eq_true.mpr ⟨c, member, decide_eq_true same⟩

theorem contributionOf_none (absent : ∀ e ∈ es, e.key ≠ key) : contributionOf es key = .padding := by
  rw [contributionOf, List.find?_eq_none.mpr (by simpa using absent)]
  rfl

theorem find?_append_of_new (new : e.key ∉ done.map Entry.key) :
    (done ++ [e]).find? (·.key = key) = if e.key = key then some e else done.find? (·.key = key) := by
  rw [List.find?_append]
  by_cases same : e.key = key
  · have none : done.find? (·.key = key) = none := by
      rw [List.find?_eq_none]
      intro d member equal
      exact new (List.mem_map.mpr ⟨d, member, (of_decide_eq_true equal).trans same.symm⟩)
    simp [none, same]
  · simp [same]

theorem Filling.step (filling : Filling past done p.columns) (length : p.rules.length = past.length)
    (ran : fill rule p.rules.length e (p.withColumn e).columns = .ok columns) :
    Filling past (done ++ [e]) columns := by
  obtain ⟨added, extended, -, shape⟩ := key_withColumn (p := p) (e := e)
  rw [extended] at ran
  -- The columns with the entry's own among them, which is new or was there.
  have keys : ((p.columns ++ added).map ProvenanceColumn.key).Nodup := by
    rcases shape with ⟨rfl, -⟩ | ⟨new, c, rfl, same, -⟩
    · simpa using filling.keys
    · rw [List.map_append, List.nodup_append]
      refine ⟨filling.keys, by simp, ?_⟩
      rintro _ member _ here rfl
      obtain ⟨d, member, equal⟩ := List.mem_map.mp member
      exact new d member (equal.trans ((List.mem_singleton.mp here).trans same))
  have contributions : ∀ c ∈ p.columns ++ added, c.contributions =
      past.map (contributionOf · c.key) ++
        ((done.find? (·.key = c.key)).map Entry.contribution).toList := by
    rcases shape with ⟨rfl, -⟩ | ⟨new, c, rfl, same, padded⟩
    · simpa using filling.contributions
    · refine List.forall_mem_append.mpr ⟨filling.contributions, List.forall_mem_singleton.mpr ?_⟩
      have unseen : ∀ d, (d ∈ done ∨ ∃ es ∈ past, d ∈ es) → d.key ≠ c.key := by
        intro d seen equal
        obtain ⟨c', member, known⟩ := filling.covered d seen
        exact new c' member (known.trans (equal.trans same))
      have none : done.find? (·.key = c.key) = none :=
        List.find?_eq_none.mpr (by simpa using fun d member => unseen d (.inl member))
      rw [padded, none, length, Option.map_none, Option.toList_none, List.append_nil, eq_comm,
        List.eq_replicate_iff]
      refine ⟨by simp, fun b member => ?_⟩
      obtain ⟨es, inside, rfl⟩ := List.mem_map.mp member
      exact contributionOf_none fun d listed => unseen d (.inr ⟨es, inside, listed⟩)
  obtain ⟨rfl, room⟩ := fill_ok keys ran
  have own : ∃ c ∈ p.columns ++ added, c.key = e.key := by
    rcases shape with ⟨-, c, member, same⟩ | ⟨-, c, rfl, same, -⟩
    · exact ⟨c, List.mem_append_left _ member, same⟩
    · exact ⟨c, by simp, same⟩
  -- Its column has room, so no entry before it had the key.
  have new : e.key ∉ done.map Entry.key := by
    intro seen
    obtain ⟨d, member, equal⟩ := List.mem_map.mp seen
    obtain ⟨c, inside, same⟩ := own
    have short := room c inside same
    rw [contributions c inside, List.length_append, List.length_map, length] at short
    cases found : done.find? (·.key = c.key) with
    | none => exact List.find?_eq_none.mp found d member (by simp [equal, same])
    | some _ =>
      simp only [found, Option.map_some, Option.toList_some, List.length_singleton] at short
      omega
  refine ⟨?_, ?_, ?_, ?_, ?_⟩
  · rw [List.map_map]
    exact (List.map_congr_left fun c _ => key_filled c) ▸ keys
  · intro c member
    obtain ⟨old, inside, rfl⟩ := List.mem_map.mp member
    rw [key_filled, find?_append_of_new new]
    by_cases same : old.key = e.key
    · have none : done.find? (·.key = old.key) = none := by
        rw [List.find?_eq_none]
        intro d listed equal
        exact new (List.mem_map.mpr ⟨d, listed, (of_decide_eq_true equal).trans same⟩)
      have before := contributions old inside
      rw [none] at before
      rw [filled, if_pos same, if_pos same.symm, before]
      simp
    · rw [filled, if_neg same, if_neg (Ne.symm same), contributions old inside]
  · intro d seen
    have placed : ∃ c ∈ p.columns ++ added, c.key = d.key := by
      rcases seen with listed | before
      · rcases List.mem_append.mp listed with before | here
        · obtain ⟨c, member, same⟩ := filling.covered d (.inl before)
          exact ⟨c, List.mem_append_left _ member, same⟩
        · exact List.mem_singleton.mp here ▸ own
      · obtain ⟨c, member, same⟩ := filling.covered d (.inr before)
        exact ⟨c, List.mem_append_left _ member, same⟩
    obtain ⟨c, member, same⟩ := placed
    exact ⟨filled e c, List.mem_map_of_mem member, (key_filled c).trans same⟩
  · intro c member
    obtain ⟨old, inside, rfl⟩ := List.mem_map.mp member
    rw [key_filled]
    rcases List.mem_append.mp inside with before | here
    · obtain ⟨d, seen, same⟩ := filling.needed old before
      exact ⟨d, seen.imp_left (List.mem_append_left _), same⟩
    · rcases shape with ⟨rfl, -⟩ | ⟨-, c, rfl, same, -⟩
      · cases here
      · obtain rfl := List.mem_singleton.mp here
        exact ⟨e, .inl (by simp), same.symm⟩
  · rw [List.map_append, List.nodup_append]
    refine ⟨filling.distinct, by simp, ?_⟩
    rintro _ member _ here rfl
    exact new (List.mem_singleton.mp here ▸ member)

theorem addEntries_ok (filling : Filling past done p.columns)
    (length : p.rules.length = past.length) (ran : addEntries rule es p = (p', .ok ())) :
    Filling past (done ++ es) p'.columns ∧ p' = { p with columns := p'.columns } := by
  induction es generalizing p done with
  | nil =>
    cases ran
    exact ⟨by simpa using filling, rfl⟩
  | cons e rest ih =>
    have rules : (p.withColumn e).rules = p.rules := (key_withColumn (p := p) (e := e)).choose_spec.2.1
    have frame : ∀ columns, { p.withColumn e with columns := columns } = { p with columns := columns } := by
      intro columns
      unfold withColumn
      split <;> rfl
    unfold addEntries at ran
    dsimp only at ran
    split at ran
    · rename_i columns placed
      rw [rules] at placed
      rw [frame] at ran
      obtain ⟨filled, same⟩ := ih (p := { p with columns := columns }) (filling.step length placed)
        length ran
      exact ⟨by simpa using filled, same⟩
    · cases congrArg Prod.snd ran

section Types

def typedKey (c : ProvenanceColumn) : ColumnKey × ColumnType := (c.key, c.type)

theorem typedKey_fill (present : ∃ c ∈ columns, c.key = e.key)
    (ran : fill rule index e columns = .ok columns') :
    columns'.map typedKey = columns.map typedKey ∧ (e.key, e.column.type) ∈ columns.map typedKey := by
  induction columns generalizing columns' with
  | nil =>
    obtain ⟨_, none, -⟩ := present
    cases none
  | cons c rest ih =>
    unfold fill at ran
    split at ran
    · rename_i same
      split at ran
      · cases ran
      · split at ran
        · rename_i typed
          cases ran
          exact ⟨rfl, List.mem_map.mpr ⟨c, List.mem_cons_self, Prod.ext same typed⟩⟩
        · cases ran
    · rename_i differ
      obtain ⟨others, later, ran⟩ := Compiled.bind_ok.mp ran
      cases ran
      obtain ⟨d, inside, same⟩ := present
      have others : d ∈ rest := (List.mem_cons.mp inside).resolve_left fun first =>
        differ (first ▸ same)
      obtain ⟨kept, typed⟩ := ih ⟨d, others, same⟩ later
      exact ⟨congrArg (List.cons _) kept, List.mem_cons_of_mem _ typed⟩

theorem typedKey_addEntries (ran : addEntries rule es p = (p', .ok ())) :
    p.columns.map typedKey ⊆ p'.columns.map typedKey ∧
      ∀ e ∈ es, (e.key, e.column.type) ∈ p'.columns.map typedKey := by
  induction es generalizing p with
  | nil =>
    cases ran
    exact ⟨List.Subset.refl _, List.forall_mem_nil _⟩
  | cons e rest ih =>
    obtain ⟨added, extended, -, shape⟩ := key_withColumn (p := p) (e := e)
    have own : ∃ c ∈ (p.withColumn e).columns, c.key = e.key := by
      rw [extended]
      rcases shape with ⟨-, c, member, same⟩ | ⟨-, c, rfl, same, -⟩
      · exact ⟨c, List.mem_append_left _ member, same⟩
      · exact ⟨c, List.mem_append_right _ (List.mem_singleton_self c), same⟩
    unfold addEntries at ran
    dsimp only at ran
    split at ran
    · rename_i columns placed
      obtain ⟨kept, typed⟩ := typedKey_fill own placed
      obtain ⟨grown, each⟩ := ih ran
      refine ⟨fun entry old => grown ?_, List.forall_mem_cons.mpr ⟨grown ?_, each⟩⟩
      · rw [kept, extended, List.map_append]
        exact List.mem_append_left _ old
      · rw [kept]
        exact typed
    · cases congrArg Prod.snd ran

end Types

theorem key_padTo (length : Nat) (c : ProvenanceColumn) : (padTo length c).key = c.key := by
  unfold padTo
  split <;> rfl

theorem Filling.pad (filling : Filling past es columns) :
    Filling (past ++ [es]) [] (columns.map (padTo (past.length + 1))) where
  keys := by
    rw [List.map_map]
    exact (List.map_congr_left fun c _ => key_padTo _ c) ▸ filling.keys
  contributions := by
    intro c member
    obtain ⟨old, inside, rfl⟩ := List.mem_map.mp member
    have before := filling.contributions old inside
    rw [key_padTo, List.map_append, List.map_singleton, contributionOf]
    unfold padTo
    cases found : es.find? (·.key = old.key) with
    | none =>
      rw [found] at before
      simp [before]
    | some e =>
      rw [found] at before
      simp [before]
  covered := by
    rintro e (none | ⟨ds, listed, inside⟩)
    · cases none
    · have seen : e ∈ es ∨ ∃ ds ∈ past, e ∈ ds := by
        rcases List.mem_append.mp listed with before | here
        · exact .inr ⟨ds, before, inside⟩
        · exact .inl (List.mem_singleton.mp here ▸ inside)
      obtain ⟨c, member, same⟩ := filling.covered e seen
      exact ⟨_, List.mem_map_of_mem member, (key_padTo _ c).trans same⟩
  needed := by
    intro c member
    obtain ⟨old, inside, rfl⟩ := List.mem_map.mp member
    obtain ⟨e, seen, same⟩ := filling.needed old inside
    refine ⟨e, .inr ?_, same.trans (key_padTo _ old).symm⟩
    rcases seen with here | ⟨ds, before, listed⟩
    · exact ⟨es, by simp, here⟩
    · exact ⟨ds, List.mem_append_left _ before, listed⟩
  distinct := .nil

theorem addRule_ok {catalog : Catalog} (filling : Filling past [] p.columns)
    (length : p.rules.length = past.length) (ran : p.addRule catalog rule = (p', .ok ())) :
    ∃ es, entries catalog rule = .ok es ∧ (es.map Entry.key).Nodup ∧
      Filling (past ++ [es]) [] p'.columns ∧ p'.rules.length = (past ++ [es]).length ∧
      p'.name = p.name ∧ p'.kind = p.kind := by
  unfold addRule at ran
  split at ran
  · cases congrArg Prod.snd ran
  · rename_i es made
    split at ran
    · cases congrArg Prod.snd ran
    · rename_i middle added
      cases ran
      obtain ⟨filled, same⟩ := addEntries_ok filling length added
      rw [List.nil_append] at filled
      rw [same] at added ⊢
      refine ⟨es, made, filled.distinct, ?_, by simp [length], rfl, rfl⟩
      simpa only [length] using filled.pad

theorem addRules_ok {catalog : Catalog} {members : List Rule} (filling : Filling past [] p.columns)
    (length : p.rules.length = past.length) (ran : addRules catalog members p = .ok p') :
    ∃ added, List.Forall₂ (fun rule es => entries catalog rule = .ok es) members added ∧
      (∀ es ∈ added, (es.map Entry.key).Nodup) ∧ Filling (past ++ added) [] p'.columns ∧
      p'.name = p.name ∧ p'.kind = p.kind := by
  induction members generalizing p past with
  | nil =>
    cases ran
    exact ⟨[], .nil, nofun, by simpa using filling, rfl, rfl⟩
  | cons rule rest ih =>
    unfold addRules at ran
    split at ran
    · rename_i middle first
      obtain ⟨es, made, distinct, filled, grown, name, kind⟩ := addRule_ok filling length first
      obtain ⟨added, each, nodup, all, name', kind'⟩ := ih filled grown ran
      exact ⟨es :: added, .cons made each, List.forall_mem_cons.mpr ⟨distinct, nodup⟩,
        by simpa using all, name'.trans name, kind'.trans kind⟩
    · cases ran

theorem typedKey_addRule {catalog : Catalog} (ran : p.addRule catalog rule = (p', .ok ())) :
    p.columns.map typedKey ⊆ p'.columns.map typedKey ∧ ∀ es, entries catalog rule = .ok es →
      ∀ e ∈ es, (e.key, e.column.type) ∈ p'.columns.map typedKey := by
  unfold addRule at ran
  split at ran
  · cases congrArg Prod.snd ran
  · rename_i es made
    split at ran
    · cases congrArg Prod.snd ran
    · rename_i middle added
      cases ran
      have padded : (middle.columns.map (padTo (middle.rules.length + 1))).map typedKey =
          middle.columns.map typedKey := by
        rw [List.map_map]
        refine List.map_congr_left fun c _ => ?_
        rw [Function.comp_apply, padTo]
        split <;> rfl
      obtain ⟨grown, each⟩ := typedKey_addEntries added
      rw [padded]
      refine ⟨grown, fun es' made' => ?_⟩
      cases made.symm.trans made'
      exact each

theorem typedKey_addRules {catalog : Catalog} {members : List Rule}
    (ran : addRules catalog members p = .ok p') :
    p.columns.map typedKey ⊆ p'.columns.map typedKey ∧
      ∀ rule ∈ members, ∀ es, entries catalog rule = .ok es →
        ∀ e ∈ es, (e.key, e.column.type) ∈ p'.columns.map typedKey := by
  induction members generalizing p with
  | nil =>
    cases ran
    exact ⟨List.Subset.refl _, List.forall_mem_nil _⟩
  | cons rule rest ih =>
    unfold addRules at ran
    split at ran
    · rename_i middle first
      obtain ⟨kept, typed⟩ := typedKey_addRule first
      obtain ⟨grown, each⟩ := ih ran
      exact ⟨List.Subset.trans kept grown, List.forall_mem_cons.mpr
        ⟨fun es made e inside => grown (typed es made e inside), each⟩⟩
    · cases ran

end ProvenanceRelation

namespace Provenance

variable {catalog : Catalog} {rule : Rule} {a : Atom} {r : Relation} {es : List Entry}
  {place : AtomPlace} {relation column : String}

theorem places_ok {atoms : List Atom} {found : List AtomPlace}
    (made : places catalog atoms = .ok found) :
    (∀ a ∈ atoms, ∃ r, catalog.relation a.relationName = .ok r ∧ placesOf r a ⊆ found) ∧
      ∀ place ∈ found, ∃ a ∈ atoms, ∃ r, catalog.relation a.relationName = .ok r ∧
        place ∈ placesOf r a := by
  induction atoms generalizing found with
  | nil =>
    cases made
    exact ⟨nofun, nofun⟩
  | cons a rest ih =>
    obtain ⟨r, known, made⟩ := Compiled.bind_ok.mp made
    obtain ⟨others, later, made⟩ := Compiled.bind_ok.mp made
    cases made
    obtain ⟨each, origin⟩ := ih later
    constructor
    · refine List.forall_mem_cons.mpr ⟨⟨r, known, List.subset_append_left _ _⟩, ?_⟩
      intro b member
      obtain ⟨s, known, inside⟩ := each b member
      exact ⟨s, known, List.subset_append_of_subset_right _ inside⟩
    · refine List.forall_mem_append.mpr ⟨fun place inside => ⟨a, by simp, r, known, inside⟩, ?_⟩
      intro place inside
      obtain ⟨b, member, s, known, inside⟩ := origin place inside
      exact ⟨b, List.mem_cons_of_mem _ member, s, known, inside⟩

theorem key_sourceEntries {read ps : List AtomPlace} {passed : List String} {taken : List ColumnRef}
    {e : Entry} (member : e ∈ sourceEntries read passed taken ps) :
    e.key ≠ .target relation column := by
  induction ps generalizing passed taken with
  | nil => cases member
  | cons place rest ih =>
    unfold sourceEntries at member
    split at member
    · split at member
      · exact ih member
      · rcases List.mem_cons.mp member with rfl | later
        · exact nofun
        · exact ih later
    · exact ih member

theorem entries_ok (made : entries catalog rule = .ok es) :
    ∃ read written, places catalog (rule.body.filter Atom.isPositive) = .ok read ∧
      places catalog rule.head = .ok written ∧ (∀ place ∈ written, targetEntry read place ∈ es) ∧
      ∀ e ∈ es, ∀ relation column, e.key = .target relation column →
        ∃ place ∈ written, e = targetEntry read place := by
  obtain ⟨read, reads, made⟩ := Compiled.bind_ok.mp made
  obtain ⟨written, writes, made⟩ := Compiled.bind_ok.mp made
  cases made
  refine ⟨read, written, reads, writes, fun place inside => ?_, fun e inside relation column key => ?_⟩
  · exact List.mem_append_left _ (List.mem_map_of_mem inside)
  · rcases List.mem_append.mp inside with head | source
    · obtain ⟨place, listed, rfl⟩ := List.mem_map.mp head
      exact ⟨place, listed, rfl⟩
    · exact absurd key (key_sourceEntries source)

theorem relation_of_place (member : place ∈ placesOf r a) :
    place.relation = r.name := by
  obtain ⟨⟨arg, column⟩, -, rfl⟩ := List.mem_map.mp member
  rfl

theorem mem_placesOf_getElem {j : Nat} (arg : j < a.args.length) (column : j < r.columns.length) :
    ⟨r.name, r.columns[j], a.args[j]⟩ ∈ placesOf r a := by
  refine List.mem_map.mpr ⟨(a.args[j], r.columns[j]), ?_, rfl⟩
  rw [← List.getElem_zip (h := by simp [arg, column])]
  exact List.getElem_mem _

end Provenance

namespace ProvenanceRelation

variable {catalog : Catalog} {members : List Rule} {rows : List (List Entry)}
  {p p' : ProvenanceRelation} {rule : Rule} {es : List Entry} {i : Nat}

-- A relation that rules were added to, over what a catalog knew.
structure Recorded (catalog : Catalog) (members : List Rule) (rows : List (List Entry))
    (p : ProvenanceRelation) : Prop where
  entries : List.Forall₂ (fun rule es => Provenance.entries catalog rule = .ok es) members rows
  distinct : ∀ es ∈ rows, (es.map Entry.key).Nodup
  columns : Filling rows [] p.columns
  types : ∀ es ∈ rows, ∀ e ∈ es, ∀ c ∈ p.columns, c.key = e.key → c.type = e.column.type

theorem recorded_addRules (columns : p.columns = []) (rules : p.rules = [])
    (ran : addRules catalog members p = .ok p') :
    ∃ rows, p'.Recorded catalog members rows ∧ p'.name = p.name ∧ p'.kind = p.kind := by
  have start : Filling [] [] p.columns := columns ▸ ⟨.nil, nofun, by simp, nofun, .nil⟩
  obtain ⟨rows, entries, distinct, filled, name, kind⟩ := addRules_ok start (by simp [rules]) ran
  have filled : Filling rows [] p'.columns := by simpa using filled
  refine ⟨rows, ⟨entries, distinct, filled, fun es listed e member c inside same => ?_⟩, name, kind⟩
  obtain ⟨rule, ruled, made⟩ := Compiled.forall₂_source entries listed
  obtain ⟨d, other, typed⟩ := List.mem_map.mp ((typedKey_addRules ran).2 rule ruled es made e member)
  obtain ⟨key, type⟩ := Prod.ext_iff.mp typed
  rw [List.inj_on_of_nodup_map filled.keys inside other (same.trans key.symm)]
  exact type

theorem mem_targets {target : String} :
    target ∈ p.targets ↔ ∃ c ∈ p.columns, ∃ column, c.key = .target target column := by
  rw [targets, mem_distinctNames, List.mem_filterMap]
  refine exists_congr fun c => and_congr_right fun _ => ?_
  cases c.key <;> simp [eq_comm]

theorem contributionOf_of_mem {e : Entry} (distinct : (es.map Entry.key).Nodup) (member : e ∈ es) :
    contributionOf es e.key = e.contribution := by
  have found : es.find? (·.key = e.key) = some e := by
    induction es with
    | nil => cases member
    | cons d rest ih =>
      obtain ⟨new, distinct⟩ := List.nodup_cons.mp distinct
      rcases List.mem_cons.mp member with rfl | later
      · simp
      · have differ : d.key ≠ e.key := fun same => new (List.mem_map.mpr ⟨e, later, same.symm⟩)
        rw [List.find?_cons_of_neg (by simpa using differ), ih distinct later]
  rw [contributionOf, found]
  rfl

theorem Recorded.contribution_of_entry {e : Entry} {c : ProvenanceColumn}
    (recorded : p.Recorded catalog members rows) (found : rows[i]? = some es) (entry : e ∈ es)
    (inside : c ∈ p.columns) (key : c.key = e.key) : c.contributions[i]? = some e.contribution := by
  rw [recorded.columns.contributions c inside, List.find?_nil, Option.map_none, Option.toList_none,
    List.append_nil, List.getElem?_map, found, Option.map_some, key]
  exact congrArg some (contributionOf_of_mem (recorded.distinct es (List.mem_of_getElem? found)) entry)

theorem Recorded.contribution {read : List AtomPlace} {place : AtomPlace} {c : ProvenanceColumn}
    (recorded : p.Recorded catalog members rows) (found : rows[i]? = some es)
    (entry : targetEntry read place ∈ es) (inside : c ∈ p.columns)
    (key : c.key = .target place.relation place.column.name) :
    c.contributions[i]? = some (targetEntry read place).contribution :=
  recorded.contribution_of_entry found entry inside key

end ProvenanceRelation

end PeerExchange
