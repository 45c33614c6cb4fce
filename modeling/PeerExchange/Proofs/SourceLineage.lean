import PeerExchange.Proofs.ColumnAlignment
import PeerExchange.Proofs.Folding
import PeerExchange.Proofs.SafePrograms

namespace PeerExchange

open Provenance

variable {D : Type} {I : Interpretation D} {θ η : Valuation D}

theorem Term.eq_variable {t : Term} {v : Variable} (flat : ¬ t.IsSkolem) (within : v ∈ t.vars) :
    t = .variable v := by
  cases t with
  | «variable» w => rw [List.mem_singleton.mp within]
  | constant type value => cases within
  | skolem function args => exact absurd trivial flat

-- No invented values.
def Rule.IsFlat (r : Rule) : Prop := ∀ a ∈ r.head ++ r.body, ∀ t ∈ a.args, ¬ t.IsSkolem

-- Joined atoms have a column for each argument.
def Rule.IsNarrow (catalog : Catalog) (r : Rule) : Prop :=
  ∀ a ∈ r.body, a.isPositive = true → ∀ s ∈ catalog.relations.get? a.relationName,
    a.args.length ≤ s.arity

instance (r : Rule) : Decidable r.IsFlat :=
  inferInstanceAs (Decidable (∀ a ∈ r.head ++ r.body, ∀ t ∈ a.args, ¬ t.IsSkolem))

instance (catalog : Catalog) (r : Rule) : Decidable (r.IsNarrow catalog) :=
  inferInstanceAs (Decidable (∀ a ∈ r.body, a.isPositive = true →
    ∀ s ∈ catalog.relations.get? a.relationName, a.args.length ≤ s.arity))

namespace Provenance

variable {read ps : List AtomPlace} {passed : List String} {taken : List ColumnRef}
  {place : AtomPlace} {v : Variable}

theorem entry_of_read (member : place ∈ ps) (arg : place.arg = .variable v)
    (new : v.name ∉ passed) :
    ∃ e ∈ sourceEntries read passed taken ps, ∃ sources w,
      e.contribution = .source sources [] (.variable w) ∧ w.name = v.name := by
  induction ps generalizing passed taken with
  | nil => cases member
  | cons first rest ih =>
    unfold sourceEntries
    split
    · rename_i w here
      by_cases same : w.name = v.name
      · rw [if_neg (by simpa [same] using new)]
        exact ⟨_, List.mem_cons_self, _, w, by rw [here], same⟩
      · have later : place ∈ rest := by
          refine (List.mem_cons.mp member).resolve_left fun equal => same ?_
          rw [← equal, arg] at here
          exact congrArg Variable.name (Term.variable.inj here).symm
        split
        · exact ih later new
        · have unpassed : v.name ∉ w.name :: passed := by simpa [Ne.symm same] using new
          obtain ⟨e, inside, found⟩ := @ih _ (first.ref :: taken) later unpassed
          exact ⟨e, List.mem_cons_of_mem _ inside, found⟩
    · rename_i other
      refine ih ((List.mem_cons.mp member).resolve_left fun equal => ?_) new
      exact other v (equal ▸ arg)

theorem entry_of_joined {catalog : Catalog} {rule : Rule} {es : List Provenance.Entry} {a : Atom}
    (made : entries catalog rule = .ok es) (flat : rule.IsFlat) (narrow : rule.IsNarrow catalog)
    (member : a ∈ rule.body) (positive : a.isPositive = true) (within : v ∈ a.vars) :
    ∃ e ∈ es, ∃ sources targets w,
      e.contribution = .source sources targets (.variable w) ∧ w.name = v.name := by
  obtain ⟨read, reads, made⟩ := Compiled.bind_ok.mp made
  obtain ⟨written, writes, made⟩ := Compiled.bind_ok.mp made
  cases made
  by_cases mentioned : v.name ∈ (written.flatMap (·.arg.vars)).map Variable.name
  · obtain ⟨w, inside, same⟩ := List.mem_map.mp mentioned
    obtain ⟨place, listed, inside⟩ := List.mem_flatMap.mp inside
    obtain ⟨h, head, r, -, placed⟩ := (places_ok writes).2 place listed
    have arg := Term.eq_variable (flat h (List.mem_append_left _ head) _ (arg_of_place placed)) inside
    refine ⟨_, List.mem_append_left _ (List.mem_map_of_mem listed), occurrences read w.name,
      [place.ref], w, ?_, same⟩
    simp [targetEntry, arg, Term.isNull]
  · obtain ⟨t, arg, inside⟩ := List.mem_flatMap.mp within
    obtain rfl := Term.eq_variable (flat a (List.mem_append_right _ member) t arg) inside
    obtain ⟨r, known, placed⟩ := (places_ok reads).1 a (List.mem_filter.mpr ⟨member, positive⟩)
    obtain ⟨j, bound, at_⟩ := List.getElem_of_mem arg
    have column : j < r.columns.length := lt_of_lt_of_le bound
      (narrow a member positive r (Catalog.relation_ok.mp known))
    obtain ⟨e, inside, sources, w, found⟩ :=
      entry_of_read (placed (mem_placesOf_getElem bound column)) at_ mentioned
    exact ⟨e, List.mem_append_right _ inside, sources, [], w, found⟩

end Provenance

namespace ProvenanceRelation

variable {catalog known : Catalog} {trust : TrustPolicy} {p : ProvenanceRelation} {rule : Rule}
  {members : List Rule} {rows : List (List Provenance.Entry)} {i : Nat} {name : String}
  {kind : GroupKind} {peer : Option String}

theorem Recorded.mem_sourceArgs {es : List Provenance.Entry} {e : Provenance.Entry}
    {sources targets : List ColumnRef} {t : Term} (recorded : p.Recorded known members rows)
    (found : rows[i]? = some es) (entry : e ∈ es)
    (given : e.contribution = .source sources targets t) :
    t ∈ p.sourceArgs catalog trust i rule := by
  obtain ⟨c, inside, key⟩ := recorded.columns.covered e (.inr ⟨es, List.mem_of_getElem? found, entry⟩)
  have filled := recorded.contribution_of_entry found entry inside key
  rw [given] at filled
  obtain ⟨before, after, parts, -⟩ := sourceArgs_parts p catalog trust i rule
  rw [parts]
  refine List.mem_append_left _ (List.mem_append_right _ (List.mem_map.mpr ⟨c, inside, ?_⟩))
  rw [sourceArg, filled]

-- Every variable that the rule joins on stands by itself in the head of the rule that records it.
def RecordsJoined (p : ProvenanceRelation) (catalog : Catalog) (trust : TrustPolicy) (i : Nat)
    (rule : Rule) : Prop :=
  ∀ a ∈ rule.body, a.isPositive = true → ∀ v ∈ a.vars,
    ∃ h ∈ (p.sourceRule catalog trust i rule).head, ∃ w, .variable w ∈ h.args ∧ w.name = v.name

-- Whatever values mean, assignments with different tuples for a joined atom record different rows.
def SeparatesMatches (p : ProvenanceRelation) (catalog : Catalog) (trust : TrustPolicy) (i : Nat)
    (rule : Rule) : Prop :=
  ∀ (D : Type) (I : Interpretation D) (θ η : Valuation D),
    (∃ a ∈ rule.body, a.isPositive = true ∧ a.tuple I θ ≠ a.tuple I η) →
      (p.sourceRule catalog trust i rule).head.map (Atom.tuple I θ) ≠
        (p.sourceRule catalog trust i rule).head.map (Atom.tuple I η)

theorem RecordsJoined.separates (records : p.RecordsJoined catalog trust i rule)
    (flat : rule.IsFlat) : p.SeparatesMatches catalog trust i rule := by
  rintro D I θ η ⟨a, member, positive, differ⟩ same
  refine differ (List.map_congr_left fun t arg => ?_)
  cases t with
  | constant type value => rw [Term.denote, Term.denote]
  | skolem function args => exact absurd trivial (flat a (List.mem_append_right _ member) _ arg)
  | «variable» v =>
    obtain ⟨h, head, w, stands, called⟩ := records a member positive v
      (List.mem_flatMap.mpr ⟨_, arg, List.mem_singleton_self v⟩)
    have row : h.tuple I θ = h.tuple I η := List.map_inj_left.mp same h head
    have value : (Term.variable w).denote I θ = (Term.variable w).denote I η :=
      List.map_inj_left.mp row _ stands
    rw [Term.denote, Term.denote, called] at value
    rwa [Term.denote, Term.denote]

theorem Recorded.recordsJoined (recorded : p.Recorded known members rows) (bound : i < members.length)
    (flat : members[i].IsFlat) (narrow : members[i].IsNarrow known) :
    p.RecordsJoined catalog trust i members[i] := by
  intro a member positive v within
  have row : i < rows.length := recorded.entries.length_eq ▸ bound
  have made := (List.forall₂_iff_get.mp recorded.entries).2 i bound row
  obtain ⟨e, entry, sources, targets, w, given, same⟩ :=
    entry_of_joined made flat narrow member positive within
  refine ⟨_, by rw [head_sourceRule]; exact List.mem_singleton_self _, w, ?_, same⟩
  exact recorded.mem_sourceArgs (List.getElem?_eq_getElem row) entry given

-- However many rules share the columns, each records all that it joins, as long as the atoms that
-- it joins have no more arguments than their relations have columns.
theorem sourceRule_lineage
    (ran : addRules known members ⟨name, kind, peer, [], [], .empty, false⟩ = .ok p)
    (bound : i < members.length) (flat : members[i].IsFlat) (narrow : members[i].IsNarrow known) :
    p.RecordsJoined catalog trust i members[i] ∧ p.SeparatesMatches catalog trust i members[i] := by
  obtain ⟨rows, recorded, -⟩ := recorded_addRules rfl rfl ran
  have records : p.RecordsJoined catalog trust i members[i] := recorded.recordsJoined bound flat narrow
  exact ⟨records, records.separates flat⟩

-- A relation read twice, in the second of two rules with shared columns.
theorem sourceRule_lineage_union :
    ∃ p, addRules unionCatalog [paddedRule, joiningRule]
        ⟨"P_T", .outerUnion, some "C", [], [], .empty, false⟩ = .ok p ∧
      p.RecordsJoined unionCatalog {} 1 joiningRule ∧
      p.SeparatesMatches unionCatalog {} 1 joiningRule := by
  have ran : addRules unionCatalog [paddedRule, joiningRule]
      ⟨"P_T", .outerUnion, some "C", [], [], .empty, false⟩ = .ok _ := rfl
  exact ⟨_, ran, sourceRule_lineage ran (by decide) (by decide) (by decide)⟩

def unaryCatalog : Catalog := .ofRelations [
  { name := "R", peer := some "A", columns := [⟨"a", .integer, false⟩] },
  { name := "T", peer := some "A", columns := [⟨"a", .integer, false⟩] }]

-- An argument beyond the columns of its relation.
def wideRule : Rule := .ofHead "m" (.ofRelation "T" [.var "x"]) [.ofRelation "R" [.var "x", .var "y"]]

-- It is recorded nowhere, and so are matches that differ there only.
theorem wideRule_unrecorded :
    ∃ p, addRules unaryCatalog [wideRule] ⟨"P_m", .single, some "A", [], [], .empty, false⟩ = .ok p ∧
      wideRule.IsFlat ∧ ¬ p.RecordsJoined unaryCatalog {} 0 wideRule ∧
      ¬ p.SeparatesMatches unaryCatalog {} 0 wideRule := by
  obtain ⟨p, ran, heads⟩ : ∃ p, addRules unaryCatalog [wideRule]
      ⟨"P_m", .single, some "A", [], [], .empty, false⟩ = .ok p ∧
        (p.sourceRule unaryCatalog {} 0 wideRule).head =
          [.ofRelation "P_m" [.var "x", .constant (some .integer) (.integer 1)]] := ⟨_, rfl, rfl⟩
  refine ⟨p, ran, by decide, fun records => ?_, fun separates => ?_⟩
  · obtain ⟨h, head, w, stands, called⟩ := records _ List.mem_cons_self (by decide)
      ⟨"y", false, none⟩ (by decide)
    rw [heads, List.mem_singleton] at head
    subst head
    simp only [Atom.ofRelation, List.mem_cons, Term.var, Term.variable.injEq, reduceCtorEq,
      List.not_mem_nil, or_false] at stands
    subst stands
    exact absurd called (by decide)
  · let I : Interpretation Bool := ⟨fun _ _ => true, fun _ _ => true, fun _ _ => True⟩
    refine separates Bool I (fun _ => true) (fun name => name ≠ "y") ?_ (by rw [heads]; rfl)
    exact ⟨_, List.mem_cons_self, by decide, by decide⟩

end ProvenanceRelation

end PeerExchange
