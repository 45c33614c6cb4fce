import PeerExchange.Document
import PeerExchange.Proofs.JsonRules

namespace PeerExchange

open Json

section Catalogs

theorem Column.recovers (c : Column) : Recovers toJson ofJson? c := by
  have type := c.type.recovers .direct
  refine recovers_record (by decide) rfl (placed_all _) ?_ fun n => ?_
  · simp [membersPlain, (recovers_str _).plain, type.plain, (recovers_bool _).plain]
  · simp [need?_eq, needD?_eq, cutMembers, type.read, (recovers_str _).read, (recovers_bool _).read,
      ite_bind, ite_and]

theorem Role.recovers (r : Role) : Recovers toJson ofJson? r := by
  cases r <;> exact recovers_shallow rfl rfl rfl

theorem recovers_names (names : List String) : Recovers strs (list? str?) names :=
  recovers_list fun name _ => recovers_str name

theorem recovers_optionalName (name : Option String) : Recovers (ofOption str) (option? str?) name :=
  recovers_option (fun name _ => recovers_str name) nofun

def Relation.InRange (r : Relation) : Prop := ∀ position ∈ r.key, IsPosition position

instance (r : Relation) : Decidable r.InRange :=
  inferInstanceAs (Decidable (∀ position ∈ r.key, IsPosition position))

theorem Relation.recovers {r : Relation} (inRange : r.InRange) : Recovers toJson ofJson? r := by
  have peer := recovers_optionalName r.peer
  have columns : Recovers (list Column.toJson) (list? Column.ofJson?) r.columns :=
    recovers_list fun c _ => c.recovers
  have key := recovers_list fun position inside => recovers_index (inRange position inside)
  refine recovers_record (by decide) rfl (placed_all _) ?_ fun n => ?_
  · simp [membersPlain, (recovers_str _).plain, (recovers_bool _).plain, peer.plain, r.role.recovers.plain,
      columns.plain, key.plain]
  · simp [need?_eq, needD?_eq, cutMembers, (recovers_str _).read, (recovers_bool _).read, peer.read,
      r.role.recovers.read, columns.read, key.read, ite_bind, ite_and]

theorem Peer.recovers (p : Peer) : Recovers toJson ofJson? p := by
  have names := recovers_names p.relations
  refine recovers_record (by decide) rfl (placed_all _) ?_ fun n => ?_
  · simp [membersPlain, (recovers_str _).plain, names.plain]
  · simp [need?_eq, cutMembers, (recovers_str _).read, names.read, ite_bind, ite_and]

structure Catalog.InRange (c : Catalog) : Prop where
  relations : ∀ entry ∈ c.relations.entries, entry.2.InRange
  mappings : ∀ m ∈ c.mappings, m.InRange

theorem Catalog.recovers {c : Catalog} (inRange : c.InRange) : Recovers toJson ofJson? c := by
  have peers : Recovers (list Peer.toJson) (list? Peer.ofJson?) c.peers := recovers_list fun p _ => p.recovers
  have relations := NameMap.recovers fun entry inside => Relation.recovers (inRange.relations entry inside)
  have mappings := recovers_list fun m inside => Rule.recovers (inRange.mappings m inside)
  refine recovers_record (by decide) rfl (placed_all _) ?_ fun n => ?_
  · simp [membersPlain, peers.plain, relations.plain, mappings.plain]
  · simp [need?_eq, cutMembers, peers.read, relations.read, mappings.read, ite_bind, ite_and]

end Catalogs

section Exchanges

theorem ColumnRef.recovers (c : ColumnRef) : Recovers toJson ofJson? c := by
  refine recovers_record (by decide) rfl (placed_all _) ?_ fun n => ?_
  · simp [membersPlain, (recovers_str _).plain]
  · simp [need?_eq, cutMembers, (recovers_str _).read, ite_bind, ite_and]

def ColumnKey.InRange : ColumnKey → Prop
  | target _ _ => True
  | source _ _ ordinal => IsPosition ordinal

instance : (k : ColumnKey) → Decidable k.InRange
  | .target _ _ => inferInstanceAs (Decidable True)
  | .source _ _ ordinal => inferInstanceAs (Decidable (IsPosition ordinal))

theorem ColumnKey.recovers {k : ColumnKey} (inRange : k.InRange) : Recovers toJson ofJson? k := by
  have plain : k.toJson.isPlain = true := by
    cases k with
    | target relation column => rfl
    | source relation column ordinal =>
      simp [toJson, isPlain, membersPlain, (recovers_index inRange).plain]
  have readable := isReadable_of_isPlain plain
  refine recovers_held plain ?_ fun j unreadable => by simp [ofJson?, tagged?_unreadable unreadable]
  cases k with
  | target relation column =>
    have placed : Placed [("relation", str relation), ("column", str column)] ["relation", "column"] :=
      placed_all _
    rw [toJson] at readable ⊢
    simp [ofJson?, tagged?_record readable placed, fields?_of_placed placed, need?_eq, (recovers_str _).whole]
  | source relation column ordinal =>
    have placed : Placed [("relation", str relation), ("column", str column), ("ordinal", nat ordinal)]
      ["relation", "column", "ordinal"] := placed_all _
    rw [toJson] at readable ⊢
    simp [ofJson?, tagged?_record readable placed, fields?_of_placed placed, need?_eq, (recovers_str _).whole,
      (recovers_index inRange).whole]

def Contribution.InRange : Contribution → Prop
  | padding | explicitNull => True
  | source _ _ arg => arg.InRange

instance : (c : Contribution) → Decidable c.InRange
  | .padding | .explicitNull => inferInstanceAs (Decidable True)
  | .source _ _ arg => inferInstanceAs (Decidable arg.InRange)

theorem Contribution.recovers {c : Contribution} (inRange : c.InRange) : Recovers toJson ofJson? c := by
  have columns (refs : List ColumnRef) : Recovers (list ColumnRef.toJson) (list? ColumnRef.ofJson?) refs :=
    recovers_list fun c _ => c.recovers
  have plain : c.toJson.isPlain = true := by
    cases c with
    | padding => rfl
    | explicitNull => rfl
    | source sources targets arg =>
      simp [toJson, isPlain, membersPlain, (columns _).plain, Term.isPlain_toJson inRange]
  have readable := isReadable_of_isPlain plain
  refine recovers_held plain ?_ fun j unreadable => by simp [ofJson?, tagged?_unreadable unreadable]
  cases c with
  | padding =>
    have placed : Placed [] [] := placed_all _
    rw [toJson] at readable ⊢
    simp [ofJson?, tagged?_record readable placed, isBare]
  | explicitNull =>
    have placed : Placed [] [] := placed_all _
    rw [toJson] at readable ⊢
    simp [ofJson?, tagged?_record readable placed, isBare]
  | source sources targets arg =>
    have term : Term.ofJson? .held arg.toJson = some arg := Term.whole inRange .held (Nat.lt_succ_self _)
    have placed : Placed [("source_columns", list ColumnRef.toJson sources),
      ("target_columns", list ColumnRef.toJson targets), ("arg", arg.toJson)]
      ["source_columns", "target_columns", "arg"] := placed_all _
    rw [toJson] at readable ⊢
    simp [ofJson?, tagged?_record readable placed, fields?_of_placed placed, need?_eq, (columns _).whole,
      term]

structure ProvenanceColumn.InRange (c : ProvenanceColumn) : Prop where
  key : c.key.InRange
  contributions : ∀ contribution ∈ c.contributions, contribution.InRange

theorem ProvenanceColumn.recovers {c : ProvenanceColumn} (inRange : c.InRange) :
    Recovers toJson ofJson? c := by
  have key := ColumnKey.recovers inRange.key
  have type := c.type.recovers .direct
  have contributions := recovers_list fun contribution inside =>
    Contribution.recovers (inRange.contributions contribution inside)
  refine recovers_record (by decide) rfl (placed_all _) ?_ fun n => ?_
  · simp [membersPlain, key.plain, type.plain, contributions.plain, (recovers_str _).plain,
      (recovers_bool _).plain]
  · simp [need?_eq, cutMembers, key.read, type.read, contributions.read, (recovers_str _).read,
      (recovers_bool _).read, ite_bind, ite_and]

theorem GroupKind.recovers (kind : GroupKind) : Recovers toJson ofJson? kind := by
  cases kind <;> exact recovers_shallow rfl rfl rfl

def ProvenanceRelation.InRange (p : ProvenanceRelation) : Prop := ∀ c ∈ p.columns, c.InRange

theorem ProvenanceRelation.recovers {p : ProvenanceRelation} (inRange : p.InRange) :
    Recovers toJson ofJson? p := by
  have peer := recovers_optionalName p.peer
  have columns := recovers_list fun c inside => ProvenanceColumn.recovers (inRange c inside)
  have rules := recovers_names p.rules
  refine recovers_record (by decide) rfl (placed_all _) ?_ fun n => ?_
  · simp [membersPlain, p.kind.recovers.plain, peer.plain, columns.plain, rules.plain,
      (NameSet.recovers p.trust).plain, (recovers_str _).plain, (recovers_bool _).plain]
  · simp [need?_eq, needD?_eq, cutMembers, p.kind.recovers.read, peer.read, columns.read, rules.read,
      (NameSet.recovers p.trust).read, (recovers_str _).read, (recovers_bool _).read, ite_bind, ite_and]

theorem OuterJoinView.recovers {v : OuterJoinView} (inRange : v.rule.InRange) :
    Recovers toJson ofJson? v := by
  have rule := Rule.recovers inRange
  have names := recovers_names v.members
  refine recovers_record (by decide) rfl (placed_all _) ?_ fun n => ?_
  · simp [membersPlain, rule.plain, names.plain, (recovers_str _).plain]
  · simp [need?_eq, cutMembers, rule.read, names.read, (recovers_str _).read, ite_bind, ite_and]

theorem DiscardedAtom.recovers {d : DiscardedAtom} (inRange : d.atom.InRange) :
    Recovers toJson ofJson? d := by
  have atom := Atom.recovers inRange
  refine recovers_record (by decide) rfl (placed_all _) ?_ fun n => ?_
  · simp [membersPlain, atom.plain, (recovers_str _).plain]
  · simp [need?_eq, cutMembers, atom.read, (recovers_str _).read, ite_bind, ite_and]

structure Exchange.InRange (x : Exchange) : Prop where
  localRules : ∀ r ∈ x.localRules, r.InRange
  sourceToProvenance : ∀ r ∈ x.sourceToProvenance, r.InRange
  provenanceToTarget : ∀ r ∈ x.provenanceToTarget, r.InRange
  provenance : ∀ p ∈ x.provenance, p.InRange
  discarded : ∀ d ∈ x.discarded, d.atom.InRange
  views : ∀ v ∈ x.views, v.rule.InRange

theorem recovers_rules {rules : List Rule} (inRange : ∀ r ∈ rules, r.InRange) :
    Recovers (list Rule.toJson) (list? Rule.ofJson?) rules :=
  recovers_list fun r inside => Rule.recovers (inRange r inside)

theorem Exchange.recovers {x : Exchange} (inRange : x.InRange) : Recovers toJson ofJson? x := by
  have localRules := recovers_rules inRange.localRules
  have sourceToProvenance := recovers_rules inRange.sourceToProvenance
  have provenanceToTarget := recovers_rules inRange.provenanceToTarget
  have provenance := recovers_list fun p inside => ProvenanceRelation.recovers (inRange.provenance p inside)
  have edb := NameSet.recovers x.edb
  have idb := NameSet.recovers x.idb
  have discarded := recovers_list fun d inside => DiscardedAtom.recovers (inRange.discarded d inside)
  have views := recovers_list fun v inside => OuterJoinView.recovers (inRange.views v inside)
  refine recovers_record (by decide) rfl (placed_all _).member.member ?_ fun n => ?_
  · simp [membersPlain, localRules.plain, sourceToProvenance.plain, provenanceToTarget.plain,
      provenance.plain, edb.plain, idb.plain, discarded.plain, views.plain]
  · have noDiscarded : (!x.discarded.isEmpty) = false → x.discarded = [] := by simp
    have noViews : (!x.views.isEmpty) = false → x.views = [] := by simp
    generalize (!x.discarded.isEmpty) = anyDiscarded at noDiscarded ⊢
    generalize (!x.views.isEmpty) = anyViews at noViews ⊢
    simp [need?_eq, needD?_eq, ite_elim, cutMembers, ite_bind, ite_and, ite_usual noDiscarded,
      ite_usual noViews, localRules.read, sourceToProvenance.read, provenanceToTarget.read,
      provenance.read, edb.read, idb.read, discarded.read, views.read]

end Exchanges

section Maintenances

structure DeletionStratum.InRange (s : DeletionStratum) : Prop where
  index : IsPosition s.index
  seed : ∀ r ∈ s.seed, r.InRange
  iterate : ∀ r ∈ s.iterate, r.InRange
  rederive : ∀ r ∈ s.rederive, r.InRange

theorem DeletionStratum.recovers {s : DeletionStratum} (inRange : s.InRange) :
    Recovers toJson ofJson? s := by
  have index := recovers_index inRange.index
  have names := recovers_names s.relations
  have seed := recovers_rules inRange.seed
  have iterate := recovers_rules inRange.iterate
  have rederive := recovers_rules inRange.rederive
  refine recovers_record (by decide) rfl (placed_all _) ?_ fun n => ?_
  · simp [membersPlain, index.plain, names.plain, (recovers_bool _).plain, seed.plain, iterate.plain,
      rederive.plain]
  · simp [need?_eq, cutMembers, index.read, names.read, (recovers_bool _).read, seed.read, iterate.read,
      rederive.read, ite_bind, ite_and]

structure InsertionStratum.InRange (s : InsertionStratum) : Prop where
  index : IsPosition s.index
  seed : ∀ r ∈ s.seed, r.InRange
  iterate : ∀ r ∈ s.iterate, r.InRange
  merge : ∀ r ∈ s.merge, r.InRange

theorem InsertionStratum.recovers {s : InsertionStratum} (inRange : s.InRange) :
    Recovers toJson ofJson? s := by
  have index := recovers_index inRange.index
  have names := recovers_names s.relations
  have seed := recovers_rules inRange.seed
  have iterate := recovers_rules inRange.iterate
  have merge := recovers_rules inRange.merge
  refine recovers_record (by decide) rfl (placed_all _) ?_ fun n => ?_
  · simp [membersPlain, index.plain, names.plain, (recovers_bool _).plain, seed.plain, iterate.plain,
      merge.plain]
  · simp [need?_eq, cutMembers, index.read, names.read, (recovers_bool _).read, seed.read, iterate.read,
      merge.read, ite_bind, ite_and]

structure Maintenance.InRange (m : Maintenance) : Prop where
  deletion : ∀ s ∈ m.deletion, s.InRange
  apply : ∀ r ∈ m.apply, r.InRange
  insertion : ∀ s ∈ m.insertion, s.InRange
  reset : ∀ r ∈ m.reset, r.InRange

theorem Maintenance.recovers {m : Maintenance} (inRange : m.InRange) : Recovers toJson ofJson? m := by
  have deletion := recovers_list fun s inside => DeletionStratum.recovers (inRange.deletion s inside)
  have apply := recovers_rules inRange.apply
  have insertion := recovers_list fun s inside => InsertionStratum.recovers (inRange.insertion s inside)
  have reset := recovers_rules inRange.reset
  have names := recovers_names m.relations
  refine recovers_record (by decide) rfl (placed_all _) ?_ fun n => ?_
  · simp [membersPlain, deletion.plain, apply.plain, insertion.plain, reset.plain, names.plain]
  · simp [need?_eq, cutMembers, deletion.read, apply.read, insertion.read, reset.read, names.read,
      ite_bind, ite_and]

end Maintenances

section Texts

structure Document.InRange (d : Document) : Prop where
  catalog : d.catalog.InRange
  exchange : ∀ x ∈ d.exchange, x.InRange
  maintenance : ∀ m ∈ d.maintenance, m.InRange

theorem Document.recovers {d : Document} (inRange : d.InRange) : Recovers toJson ofJson? d := by
  have catalog := Catalog.recovers inRange.catalog
  have exchange := recovers_option (fun x same => Exchange.recovers (inRange.exchange x same)) nofun
  have maintenance :=
    recovers_option (fun m same => Maintenance.recovers (inRange.maintenance m same)) nofun
  refine recovers_record (by decide) rfl (placed_all _).member.member ?_ fun n => ?_
  · simp [membersPlain, catalog.plain, exchange.plain, maintenance.plain]
  · simp [need?_eq, needD?_eq, ite_elim, cutMembers, ite_bind, ite_and, ite_usual, catalog.read,
      exchange.read, maintenance.read]

-- Documents and rules read back from their texts as long as their values do not nest deeper than can
-- be read, and not at all when they do.
theorem document_text_exact :
    (∀ d : Document, d.InRange → Document.ofText? d.toText =
      if d.toJson.depth ≤ nestingLimit then some d else none) ∧
    (∀ r : Rule, r.InRange → Rule.ofText? r.toText =
      if r.toJson.depth ≤ nestingLimit then some r else none) := by
  constructor
  · intro d inRange
    have recovers := Document.recovers inRange
    rw [Document.ofText?, Document.toText, parse_pretty recovers.plain, Option.bind_some]
    exact recovers.read nestingLimit
  · intro r inRange
    have recovers := Rule.recovers inRange
    rw [Rule.ofText?, Rule.toText, parse_compact recovers.plain, Option.bind_some]
    exact recovers.read nestingLimit

-- A rule with what a rule can be marked with, and a document that has it in each of its programs.
def markedRule : Rule where
  id := "m\t\"1\" \u00e9"
  head := [.ofRelation "T" [.variable ⟨"y", true, some 0⟩,
    .skolem "f" [.var "x", .constant (some .integer) (.integer (-36893488147419103232))]]]
  body := [.ofRelation "R" [.var "x"], (Atom.ofRelation "S" [.var "x"]).negate]
  parent := some "m"
  action := .replace
  guard := some ⟨0, -1⟩
  stamp := some (.iteration (-1))
  inventions := [⟨"y", "f", [.var "x"]⟩]

def markedDocument : Document where
  catalog :=
    { peers := [⟨"P", ["R"]⟩]
      relations := .ofList [("R",
        { name := "R", peer := some "P", columns := [⟨"a", .text, true⟩], key := [0] })]
      mappings := [markedRule] }
  exchange := some
    { localRules := [markedRule]
      provenance := [{ name := "P_m", kind := .single, peer := none, columns :=
        [⟨.source "R" "a" 1, "SRC_R_a", .text, true, [.padding, .source [⟨"R", "a"⟩] [] (.var "x")]⟩] }]
      discarded := [⟨"m", .ofRelation "R" [.var "x"]⟩] }
  maintenance := some
    { apply := [markedRule], deletion := [], insertion := [], reset := [], relations := ["R"] }

theorem inRange_markedRule : markedRule.InRange :=
  ⟨by decide, by decide, by decide, by decide, by decide⟩

theorem inRange_markedDocument : markedDocument.InRange where
  catalog := ⟨List.forall_mem_singleton.mpr (by decide), List.forall_mem_singleton.mpr inRange_markedRule⟩
  exchange := by
    rintro _ ⟨⟩
    exact {
      localRules := List.forall_mem_singleton.mpr inRange_markedRule
      sourceToProvenance := List.forall_mem_nil _
      provenanceToTarget := List.forall_mem_nil _
      provenance := List.forall_mem_singleton.mpr (List.forall_mem_singleton.mpr
        ⟨by decide, by decide⟩)
      discarded := by decide
      views := List.forall_mem_nil _ }
  maintenance := by
    rintro _ ⟨⟩
    exact ⟨List.forall_mem_nil _, List.forall_mem_singleton.mpr inRange_markedRule, List.forall_mem_nil _,
      List.forall_mem_nil _⟩

theorem document_text_exact_marked : markedDocument.InRange ∧ markedRule.InRange ∧
    Document.ofText? markedDocument.toText = some markedDocument ∧
      Rule.ofText? markedRule.toText = some markedRule :=
  ⟨inRange_markedDocument, inRange_markedRule,
    (document_text_exact.1 markedDocument inRange_markedDocument).trans (if_pos (by decide +kernel)),
    (document_text_exact.2 markedRule inRange_markedRule).trans (if_pos (by decide +kernel))⟩

def nestedTerm : Nat → Term
  | 0 => .var "x"
  | n + 1 => .skolem "f" [nestedTerm n]

def nestedRule (n : Nat) : Rule := .ofHead "m" (.ofRelation "T" [nestedTerm n]) [.ofRelation "R" [.var "x"]]

def nestedDocument (n : Nat) : Document := { catalog := { mappings := [nestedRule n] } }

theorem inRange_nestedRule (n : Nat) : (nestedRule n).InRange := by
  have term : (nestedTerm n).InRange := by
    induction n with
    | zero => decide
    | succ n ih => simpa [nestedTerm, Term.InRange, Term.vars] using ih
  exact ⟨List.forall_mem_singleton.mpr (List.forall_mem_singleton.mpr term),
    List.forall_mem_singleton.mpr (by decide), nofun, nofun, List.forall_mem_nil _⟩

-- Sixty Skolem terms inside each other make a document of 128 levels, and 62 make a rule of 129.
theorem deep_texts_refused : (nestedDocument 60).InRange ∧ (nestedRule 62).InRange ∧
    Document.ofText? (nestedDocument 60).toText = none ∧ Rule.ofText? (nestedRule 62).toText = none := by
  have document : (nestedDocument 60).InRange :=
    ⟨⟨List.forall_mem_nil _, List.forall_mem_singleton.mpr (inRange_nestedRule 60)⟩, nofun, nofun⟩
  have recovers := Document.recovers document
  have ruleRecovers := Rule.recovers (inRange_nestedRule 62)
  refine ⟨document, inRange_nestedRule 62, ?_, ?_⟩
  · rw [Document.ofText?, Document.toText, parse_pretty recovers.plain, Option.bind_some, recovers.read]
    exact if_neg (by decide +kernel)
  · rw [Rule.ofText?, Rule.toText, parse_compact ruleRecovers.plain, Option.bind_some, ruleRecovers.read]
    exact if_neg (by decide +kernel)

end Texts

end PeerExchange
