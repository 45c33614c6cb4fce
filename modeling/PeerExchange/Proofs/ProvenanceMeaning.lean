import Mathlib.Data.List.Permutation
import PeerExchange.Proofs.Denotation
import PeerExchange.Proofs.MaintenanceRules
import PeerExchange.Proofs.ProvenanceStages

namespace PeerExchange

open Provenance

variable {D : Type} {I : Interpretation D} {M N : Facts D} {θ η : Valuation D}

-- A null is the same value at columns of all types.
def Interpretation.HasOneNull (I : Interpretation D) : Prop :=
  ∀ s t, I.constant s .null = I.constant t .null

namespace ProvenanceRelation

variable {catalog known : Catalog} {trust : TrustPolicy} {members : List Rule}
  {rows : List (List Provenance.Entry)} {p : ProvenanceRelation} {rule : Rule}
  {es : List Provenance.Entry}
  {a : Atom} {r : Relation} {i : Nat}

theorem denote_sourceArg {read : List AtomPlace} {place : AtomPlace} {c : ProvenanceColumn}
    (one : I.HasOneNull) (recorded : p.Recorded catalog members rows) (found : rows[i]? = some es)
    (entry : targetEntry read place ∈ es) (inside : c ∈ p.columns)
    (key : c.key = .target place.relation place.column.name) :
    (sourceArg i c).denote I θ = place.arg.denote I θ := by
  rw [sourceArg, recorded.contribution found entry inside key, targetEntry]
  cases null : place.arg.isNull with
  | true =>
    cases arg : place.arg with
    | constant type value =>
      cases value with
      | null => exact one _ _
      | _ => simp [arg, Term.isNull] at null
    | _ => simp [arg, Term.isNull] at null
  | false => rfl

theorem denote_targetArgs {args : List Term} (one : I.HasOneNull)
    (recorded : p.Recorded known members rows) (rule_at : members[i]? = some rule)
    (head : a ∈ rule.head) (found : ∀ r', known.relation a.relationName = .ok r' → r = r')
    (length : a.args.length = r.arity) (made : r.columns.mapM (p.targetArg r) = .ok args)
    (row : p.bodyArgs.map (Term.denote I η) =
      (p.sourceArgs catalog trust i rule).map (Term.denote I θ)) :
    args.map (Term.denote I η) = a.args.map (Term.denote I θ) := by
  have each := Compiled.forall₂_of_mapM made
  have lengths : r.columns.length = args.length := each.length_eq
  obtain ⟨es, es_at, entries⟩ : ∃ es, rows[i]? = some es ∧ Provenance.entries known rule = .ok es := by
    obtain ⟨inside, rfl⟩ := List.getElem?_eq_some_iff.mp rule_at
    have paired := recorded.entries.get inside (recorded.entries.length_eq ▸ inside)
    exact ⟨_, List.getElem?_eq_getElem _, paired⟩
  obtain ⟨read, written, -, writes, all, -⟩ := entries_ok entries
  obtain ⟨r', found', placed⟩ := (places_ok writes).1 a head
  obtain rfl := found r' found'
  refine List.ext_getElem (by simp [← lengths, length, Relation.arity]) fun j left right => ?_
  rw [List.length_map] at left right
  rw [List.getElem_map, List.getElem_map]
  obtain ⟨position, inside, key, name⟩ := targetArg_ok (each.get (lengths ▸ left) left)
  have entry := all _ (placed (mem_placesOf_getElem right (lengths ▸ left)))
  have stored := denote_sourceArg (I := I) (θ := θ) one recorded es_at entry (List.getElem_mem inside) key
  -- The column's place in the row, seen from both sides.
  obtain ⟨before, after, parts, offset, -⟩ := sourceArgs_parts p catalog trust i rule
  have cell := congrArg (·[p.dataOffset + position]?) row
  rw [parts, ← offset, List.getElem?_map (l := _ ++ _), List.append_assoc,
    List.getElem?_append_right (Nat.le_add_right ..), Nat.add_sub_cancel_left,
    List.getElem?_append_left (by simpa using inside), offset] at cell
  have bound : p.dataOffset + position < p.dataOffset + p.columns.length + p.trust.toList.length := by
    omega
  simp only [bodyArgs, List.getElem?_map, List.getElem?_range bound, Option.map_some,
    List.getElem?_eq_getElem inside, Option.some.injEq] at cell
  exact (congrArg (Term.denote I η) name).trans (cell.trans stored)

end ProvenanceRelation

namespace Stage

variable {catalog : Catalog} {s : Stage} {name : String}

theorem fires_reading {q : Rule} {p : ProvenanceRelation}
    (body : q.body = [.ofRelation p.name p.bodyArgs]) (plain : q.inventions = []) :
    q.Fires I N η ↔ p.bodyArgs.map (Term.denote I η) ∈ N p.name := by
  have base : (Atom.ofRelation p.name p.bodyArgs).IsBase := fun _ => ⟨rfl, rfl⟩
  have row : (Atom.ofRelation p.name p.bodyArgs).Accepted I N η ↔
      p.bodyArgs.map (Term.denote I η) ∈ N p.name := Atom.accepted_relation base rfl
  constructor
  · exact fun fires => row.mp (fires.accepted _ (by simp [body]))
  · refine fun inside => ⟨fun i member => ?_, fun a member => ?_⟩
    · rw [plain] at member
      cases member
    · rw [body] at member
      exact List.mem_singleton.mp member ▸ row.mpr inside

theorem seen_of_fits {known after : Catalog} {a : Atom} {r : Relation}
    (within : known.Within catalog) (included : after.Within catalog) (fits : a.Fits catalog)
    (given : a.relation? = some name) (found : after.relation name = .ok r) :
    a.args.length = r.arity ∧ ∀ r', known.relation a.relationName = .ok r' → r = r' := by
  obtain ⟨other, r', given', found', length, -⟩ := fits
  obtain rfl : name = other := Option.some.inj (given.symm.trans given')
  have own := included _ _ (Catalog.relation_ok.mp found)
  obtain rfl : r = r' := Option.some.inj (own.symm.trans found')
  refine ⟨length, fun r' seen => ?_⟩
  have earlier := within _ _ (Catalog.relation_ok.mp seen)
  rw [Atom.relationName, given] at earlier
  exact Option.some.inj (own.symm.trans earlier)

section Exactness

variable (sound : s.Sound catalog) (named : catalog.IsNamed) (one : I.HasOneNull)
  (fits : ∀ rule ∈ s.members, ∀ a ∈ rule.head, a.Fits catalog)

include sound named one fits

theorem Sound.recovers (uniform : s.IsUniform) :
    consequences I s.targets (consequences I s.sources M) name ⊆ consequences I s.members M name := by
  obtain ⟨known, rows, within, recorded⟩ := sound.recorded
  obtain ⟨before, trust, sources⟩ := sound.sources
  obtain ⟨after, included, targets⟩ := sound.targets
  rintro t ⟨q, member, η, fires, _, first, given, rfl⟩
  obtain ⟨target, inside, made⟩ := Compiled.forall₂_source (Compiled.forall₂_of_mapM targets) member
  obtain ⟨r, args, found, mapped, heads, body, plain⟩ := ProvenanceRelation.targetRule_ok made
  rw [heads, List.mem_singleton] at first
  subst first
  obtain rfl : target = name := Option.some.inj given
  -- The row that the rule reads, and the member that recorded it.
  obtain ⟨source, listed, θ, filled, _, first, -, row⟩ := (fires_reading body plain).mp fires
  rw [sources] at listed
  obtain ⟨i, bound, rfl⟩ := List.mem_mapIdx.mp listed
  rw [ProvenanceRelation.head_sourceRule, List.mem_singleton] at first
  subst first
  obtain ⟨rule, ruled, b, derived, same⟩ := (sound.mem_targets named fits).mp inside
  have ruled' := List.getElem_mem bound
  obtain ⟨a, head, other⟩ := uniform rule ruled b derived _ ruled'
  obtain ⟨length, seen⟩ :=
    seen_of_fits within included (fits _ ruled' a head) (other.trans same) found
  exact ⟨_, ruled', θ, ⟨filled.defines, filled.accepted⟩, a, head, other.trans same,
    (ProvenanceRelation.denote_targetArgs one recorded (List.getElem?_eq_getElem bound) head seen
      length mapped row.symm).symm⟩

theorem Sound.records :
    consequences I s.members M name ⊆ consequences I s.targets (consequences I s.sources M) name := by
  obtain ⟨known, rows, within, recorded⟩ := sound.recorded
  obtain ⟨before, trust, sources⟩ := sound.sources
  obtain ⟨after, included, targets⟩ := sound.targets
  rintro t ⟨rule, ruled, θ, fires, a, head, given, rfl⟩
  have inside := (sound.mem_targets named fits).mpr ⟨rule, ruled, a, head, given⟩
  obtain ⟨q, member, made⟩ := Compiled.forall₂_result (Compiled.forall₂_of_mapM targets) inside
  obtain ⟨r, args, found, mapped, heads, body, plain⟩ := ProvenanceRelation.targetRule_ok made
  obtain ⟨length, seen⟩ := seen_of_fits within included (fits _ ruled a head) given found
  obtain ⟨i, bound, rfl⟩ := List.getElem_of_mem ruled
  -- The row that the member records, and a valuation that reads it.
  let row := (s.relation.sourceArgs before trust i s.members[i]).map (Term.denote I θ)
  have stored : row ∈ consequences I s.sources M s.relation.name :=
    ⟨s.relation.sourceRule before trust i s.members[i],
      sources ▸ List.mem_mapIdx.mpr ⟨i, bound, rfl⟩, θ, ⟨fires.defines, fires.accepted⟩, _,
      by rw [ProvenanceRelation.head_sourceRule]; exact List.mem_singleton_self _, rfl, rfl⟩
  obtain ⟨η, read⟩ := Maintenance.exists_valuation I "c" row
  have size : row.length = s.relation.dataOffset + s.relation.columns.length +
      s.relation.trust.toList.length := by
    simp [row, ProvenanceRelation.length_sourceArgs, ProvenanceRelation.bodyArgs]
  rw [size] at read
  exact ⟨q, member, η, (fires_reading body plain).mpr (read ▸ stored), _,
    by rw [heads]; exact List.mem_singleton_self _, rfl,
    ProvenanceRelation.denote_targetArgs one recorded (List.getElem?_eq_getElem bound) head seen
      length mapped read⟩

omit named one fits in
theorem Sound.reads_own (equal : M s.relation.name = N s.relation.name) :
    consequences I s.targets M name = consequences I s.targets N name := by
  obtain ⟨known, -, targets⟩ := sound.targets
  have same : ∀ q ∈ s.targets, ∀ η, q.Fires I M η ↔ q.Fires I N η := by
    intro q member η
    obtain ⟨target, -, made⟩ := Compiled.forall₂_source (Compiled.forall₂_of_mapM targets) member
    obtain ⟨-, -, -, -, -, body, plain⟩ := ProvenanceRelation.targetRule_ok made
    rw [fires_reading body plain, fires_reading body plain, equal]
  ext t
  exact exists_congr fun q => and_congr_right fun member =>
    exists_congr fun η => and_congr_left' (same q member η)

omit named one fits in
theorem Sound.writes_own {other : String} {t : List D}
    (derived : t ∈ consequences I s.sources M other) : other = s.relation.name := by
  obtain ⟨known, trust, sources⟩ := sound.sources
  obtain ⟨source, listed, θ, -, b, head, given, -⟩ := derived
  rw [sources] at listed
  obtain ⟨i, bound, rfl⟩ := List.mem_mapIdx.mp listed
  rw [ProvenanceRelation.head_sourceRule, List.mem_singleton] at head
  subst head
  exact (Option.some.inj given).symm

end Exactness

end Stage

theorem mem_consequences_flatMap {α : Type} {items : List α} {f : α → List Rule} {name : String}
    {t : List D} : t ∈ consequences I (items.flatMap f) M name ↔
      ∃ item ∈ items, t ∈ consequences I (f item) M name := by
  simp only [consequences, Set.mem_ofPred_eq, List.mem_flatMap]
  constructor
  · rintro ⟨r, ⟨item, listed, member⟩, derived⟩
    exact ⟨item, listed, r, member, derived⟩
  · rintro ⟨item, listed, r, member, derived⟩
    exact ⟨r, ⟨item, listed, member⟩, derived⟩

theorem Build.Led.exact {b b' : Build} {stages : List Stage} {name : String} (led : b.Led b' stages)
    (named : b.catalog.IsNamed) (one : I.HasOneNull)
    (fits : ∀ s ∈ stages, ∀ rule ∈ s.members, ∀ a ∈ rule.head, a.Fits b'.catalog)
    (uniform : ∀ s ∈ stages, s.IsUniform) :
    consequences I (stages.flatMap Stage.targets)
        (consequences I (stages.flatMap Stage.sources) M) name =
      consequences I (stages.flatMap Stage.members) M name := by
  have alone : ∀ s ∈ stages, consequences I (stages.flatMap Stage.sources) M s.relation.name =
      consequences I s.sources M s.relation.name := by
    intro s member
    ext row
    rw [mem_consequences_flatMap]
    constructor
    · rintro ⟨other, listed, derived⟩
      obtain rfl : s = other := List.inj_on_of_nodup_map led.distinct member listed
        ((led.sound other listed).writes_own derived)
      exact derived
    · exact fun derived => ⟨s, member, derived⟩
  ext t
  rw [mem_consequences_flatMap, mem_consequences_flatMap]
  refine exists_congr fun s => and_congr_right fun member => ?_
  have sound := led.sound s member
  rw [sound.reads_own (alone s member)]
  exact Set.Subset.antisymm_iff.mpr ⟨sound.recovers (led.named named) one (fits s member)
    (uniform s member), sound.records (led.named named) one (fits s member)⟩ ▸ Iff.rfl

namespace Synthesis

variable {catalog : Catalog} {config : Config} {trust : TrustPolicy} {rules : List Rule} {b : Build}

theorem synthesis_exact {name : String}
    (synthesized : synthesize config trust rules { catalog := catalog } = (b, .ok ()))
    (named : catalog.IsNamed) (fits : ∀ r ∈ rules, ∀ a ∈ r.head, a.Fits b.catalog)
    (single : config.provenance = .outerUnion → ∀ r ∈ rules, r.head.length = 1)
    (one : I.HasOneNull) :
    consequences I b.exchange.provenanceToTarget
        (consequences I b.exchange.sourceToProvenance M) name =
      consequences I rules M name := by
  obtain ⟨gs, grouped, stages, made, members, staged⟩ := synthesize_stages synthesized
  have uniform : ∀ s ∈ stages, s.IsUniform := by
    intro s member
    obtain ⟨g, listed, same⟩ := List.mem_map.mp (members ▸ List.mem_map_of_mem member)
    refine (open_of_groups made g listed).uniform same.symm (fun shared r inside => ?_)
      fun r inside a head => ?_
    · exact single shared r (staged.given member (same ▸ inside))
    · obtain ⟨name, -, relation, -⟩ := fits r (staged.given member (same ▸ inside)) a head
      exact Option.isSome_iff_exists.mpr ⟨name, relation⟩
  rw [staged.led.sources, staged.led.targets, List.nil_append, List.nil_append,
    staged.led.exact named one (fun s member r inside => fits r (staged.given member inside)) uniform]
  ext t
  exact exists_congr fun r => and_congr_left' (staged.members r)

section Merged

-- Terms as values, with constants told apart by their literal only.
def erasedTerms : Interpretation Term where
  constant _ := .constant none
  invented := .skolem
  holds _ _ := False

theorem erasedTerms_hasOneNull : erasedTerms.HasOneNull := fun _ _ => rfl

def integerColumn (name : String) : Column := ⟨name, .integer, false⟩

def mergedTarget : Relation where
  name := "T"
  columns := [integerColumn "a", ⟨"b", .integer, true⟩]
  key := [0]

def mergedCatalog : Catalog where
  relations := .ofList [
    ("R", { name := "R", columns := [integerColumn "a"] }),
    ("S", { name := "S", columns := [integerColumn "a", integerColumn "b"] }),
    ("T", mergedTarget)]

-- Rules into one relation: one writes a null, one reads more than it writes, one invents a value.
def mergedRules : List Rule :=
  [.ofHead "m" (.ofRelation "T" [.var "x", .lit .null]) [.ofRelation "R" [.var "x"]],
    .ofHead "n" (.ofRelation "T" [.var "y", .var "y"]) [.ofRelation "S" [.var "x", .var "y"]],
    { Rule.ofHead "k" (.ofRelation "T" [.var "x", .variable ⟨"u", true, some 0⟩])
        [.ofRelation "R" [.var "x"]] with inventions := [⟨"u", "k_u", [.var "x"]⟩] }]

def merged : Build × Compiled Unit :=
  synthesize { provenance := .outerUnion } {} mergedRules { catalog := mergedCatalog }

theorem synthesis_exact_merged : mergedCatalog.IsNamed ∧ erasedTerms.HasOneNull ∧
    (∀ r ∈ mergedRules, ∀ a ∈ r.head, a.Fits merged.1.catalog) ∧
    (∀ r ∈ mergedRules, r.head.length = 1) ∧ merged.2 = .ok () ∧
    ∀ (M : Facts Term) name,
      consequences erasedTerms merged.1.exchange.provenanceToTarget
          (consequences erasedTerms merged.1.exchange.sourceToProvenance M) name =
        consequences erasedTerms mergedRules M name := by
  have named : mergedCatalog.IsNamed := Catalog.isNamed_of_entries (by decide)
  have found : merged.1.catalog.relations.get? "T" = some mergedTarget := by cbv
  have heads : ∀ r ∈ mergedRules, ∀ a ∈ r.head,
      a.relation? = some "T" ∧ a.args.length = mergedTarget.arity := by decide
  have fits : ∀ r ∈ mergedRules, ∀ a ∈ r.head, a.Fits merged.1.catalog := fun r member a head =>
    ⟨"T", mergedTarget, (heads r member a head).1, found, (heads r member a head).2,
      List.cons_ne_nil _ _⟩
  have single : ∀ r ∈ mergedRules, r.head.length = 1 := by decide
  have ran : merged.2 = .ok () := by cbv
  exact ⟨named, erasedTerms_hasOneNull, fits, single, ran, fun M name =>
    synthesis_exact (Prod.ext rfl ran) named fits (fun _ => single) erasedTerms_hasOneNull⟩

end Merged

section Unfitting

def sourceAndTarget (target : Relation) : Catalog where
  relations := .ofList [
    ("R", { name := "R", columns := [integerColumn "a"] }),
    ("S", { name := "S", columns := [integerColumn "a"] }),
    ("T", target)]

def intoTarget (args : List Term) : Rule :=
  .ofHead "m" (.ofRelation "T" args) [.ofRelation "R" [.var "x"]]

def ledInto (target : Relation) (args : List Term) : Build × Compiled Unit :=
  synthesize {} {} [intoTarget args] { catalog := sourceAndTarget target }

def columnless : Relation where
  name := "T"
  columns := []

def oneColumn : Relation where
  name := "T"
  columns := [integerColumn "a"]

def aliased : Relation where
  name := "S"
  columns := [integerColumn "a"]

-- Whether some database shows a difference.
def Diverges (target : Relation) (args : List Term) : Prop :=
  (ledInto target args).2 = .ok () ∧ ∃ (M : Facts Term) (name : String),
    consequences erasedTerms (ledInto target args).1.exchange.provenanceToTarget
        (consequences erasedTerms (ledInto target args).1.exchange.sourceToProvenance M) name ≠
      consequences erasedTerms [intoTarget args] M name

theorem diverges_of_heads {target : Relation} {args : List Term}
    (ran : (ledInto target args).2 = .ok ())
    (heads : ∀ q ∈ (ledInto target args).1.exchange.provenanceToTarget, ∀ a ∈ q.head,
      a.relation? = some "T" → a.args.length ≠ args.length) : Diverges target args := by
  refine ⟨ran, fun name => {t | name = "R" ∧ t = [.var "x"]}, "T", fun same => ?_⟩
  have base : (Atom.ofRelation "R" [.var "x"]).IsBase := fun _ => ⟨rfl, rfl⟩
  have derived : args.map (Term.denote erasedTerms .var) ∈ consequences erasedTerms
      [intoTarget args] (fun name => {t | name = "R" ∧ t = [.var "x"]}) "T" := by
    refine ⟨_, List.mem_singleton_self _, .var, ⟨nofun, ?_⟩, _, List.mem_singleton_self _, rfl, rfl⟩
    exact List.forall_mem_singleton.mpr ((Atom.accepted_relation base rfl).mpr ⟨rfl, rfl⟩)
  rw [← same] at derived
  obtain ⟨q, member, θ, -, a, head, given, tuple⟩ := derived
  exact heads q member a head given (by simpa [Atom.tuple] using congrArg List.length tuple)

-- A target without columns, a head with more arguments than columns, and a target stored under
-- another name.
theorem unfitting_heads_diverge : Diverges columnless [] ∧
    Diverges oneColumn [.var "x", .var "x"] ∧ Diverges aliased [.var "x"] :=
  ⟨diverges_of_heads (by cbv) (by decide), diverges_of_heads (by cbv) (by decide),
    diverges_of_heads (by cbv) (by decide)⟩

end Unfitting

end Synthesis

end PeerExchange
