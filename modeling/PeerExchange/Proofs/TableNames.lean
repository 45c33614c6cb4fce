import PeerExchange.Proofs.CompiledCatalogs

namespace PeerExchange

section Suffixes

theorem append_suffix_ne {a b s t : String} (differ : s.toList.length = t.toList.length)
    (other : s ≠ t) : a ++ s ≠ b ++ t := by
  intro same
  have lists := congrArg String.toList same
  rw [String.toList_append, String.toList_append] at lists
  exact other (String.toList_inj.mp (List.append_inj_right' lists differ))

variable {name other : String} {kind : TableKind}

theorem pending_of_ne (pending : kind ≠ .base) : kind = .insertion ∨ kind = .deletion := by
  cases kind with
  | base => exact absurd rfl pending
  | insertion => exact .inl rfl
  | deletion => exact .inr rfl

theorem append_localSuffix_ne (pending : kind ≠ .base) :
    name ++ Relation.localSuffix ≠ other ++ kind.suffix := by
  intro same
  have lists := congrArg (fun s : String => (s.toList.reverse.take 2)) same
  simp only [String.toList_append, List.reverse_append] at lists
  rcases pending_of_ne pending with rfl | rfl
  · rw [show Relation.localSuffix.toList.reverse = ['L', '_'] from rfl,
      show TableKind.insertion.suffix.toList.reverse = ['S', 'N', 'I', '_'] from rfl] at lists
    exact absurd lists (by simp)
  · rw [show Relation.localSuffix.toList.reverse = ['L', '_'] from rfl,
      show TableKind.deletion.suffix.toList.reverse = ['L', 'E', 'D', '_'] from rfl] at lists
    exact absurd lists (by simp)

theorem pending_names_ne {kind' : TableKind} (first : kind ≠ .base) (second : kind' ≠ .base)
    (differ : kind ≠ kind') : name ++ kind.suffix ≠ other ++ kind'.suffix := by
  rcases pending_of_ne first with rfl | rfl <;> rcases pending_of_ne second with rfl | rfl
  · exact absurd rfl differ
  · exact append_suffix_ne (by decide) (by decide)
  · exact append_suffix_ne (by decide) (by decide)
  · exact absurd rfl differ

end Suffixes

namespace Catalog

variable {c : Catalog} {r : Relation}

theorem hasSuffix_append (name suffix : String) : hasSuffix (name ++ suffix) suffix = true := by
  rw [hasSuffix, String.toList_append]
  simp

theorem name_ne_suffixed (valid : c.validate = .ok ()) (declared : r ∈ c.relations.values)
    (role : r.role = .peer) {suffix : String} (reserved : suffix ∈ reservedSuffixes)
    (other : String) : r.name ≠ other ++ suffix := by
  intro same
  obtain ⟨⟨⟩, each, -⟩ := Compiled.bind_ok.mp valid
  have checked := Compiled.forM_ok each r declared
  rw [checkRelation, if_pos role] at checked
  obtain ⟨⟨⟩, named, -⟩ := Compiled.bind_ok.mp checked
  have suffixed : hasSuffix r.name suffix = true := same ▸ hasSuffix_append other suffix
  unfold checkName at named
  split at named
  · cases named
  · rename_i none
    exact absurd suffixed (by simpa using List.find?_eq_none.mp none _ reserved)

theorem name_ne_of_validate (valid : c.validate = .ok ()) (declared : r ∈ c.relations.values)
    (role : r.role = .peer) {kind : TableKind} (pending : kind ≠ .base) (other : String) :
    r.name ≠ other ++ kind.suffix := by
  refine name_ne_suffixed valid declared role ?_ other
  rcases pending_of_ne pending with rfl | rfl <;> decide

-- Different tables of stored relations have different names, and views have names of their own.
def TablesDisjoint (c : Catalog) (views : List OuterJoinView) : Prop :=
  (∀ r ∈ c.relations.values, r.isStored = true → ∀ r' ∈ c.relations.values, r'.isStored = true →
    ∀ kind kind', (r, kind) ≠ (r', kind') → r.tableName kind ≠ r'.tableName kind') ∧
  ∀ v ∈ views, ∀ r ∈ c.relations.values, r.isStored = true → ∀ kind, v.name ≠ r.tableName kind

end Catalog

namespace Build

variable {declared : Catalog} {b : Build}

theorem Tracks.named {r : Relation} (tracks : Tracks declared b)
    (member : r ∈ b.catalog.relations.values) : b.catalog.relations.get? r.name = some r := by
  obtain ⟨name, found⟩ := NameMap.mem_values.mp member
  obtain ⟨rfl, -⟩ := tracks.origin name r found
  exact found

theorem Tracks.recorded_of_clash {r : Relation} (tracks : Tracks declared b)
    (own : declared.IsDeclared) (valid : declared.validate = .ok ())
    (member : r ∈ b.catalog.relations.values) (stored : r.isStored = true) {other : String}
    {kind : TableKind} (pending : kind ≠ .base) (same : r.name = other ++ kind.suffix) :
    ∃ p ∈ b.exchange.provenance, p.name = r.name := by
  obtain ⟨-, origin⟩ := tracks.origin r.name r (tracks.named member)
  cases origin with
  | declared found =>
    exact absurd same (Catalog.name_ne_of_validate valid (NameMap.mem_values.mpr ⟨_, found⟩)
      (own.relations _ r found).2.1 pending other)
  | @provenance p recorded => exact ⟨p, recorded, rfl⟩
  | view shown named role => simp [Relation.isStored, role] at stored
  | localEdits found materialized => exact absurd same (append_localSuffix_ne pending)

theorem Tracks.disjoint_iff (tracks : Tracks declared b) (own : declared.IsDeclared)
    (valid : declared.validate = .ok ()) :
    b.catalog.TablesDisjoint b.exchange.views ↔
      ∀ name ∈ b.exchange.provenance.map ProvenanceRelation.name ++
          b.exchange.views.map OuterJoinView.name,
        ∀ r ∈ b.catalog.relations.values, r.isStored = true →
          name ≠ r.tableName .insertion ∧ name ≠ r.tableName .deletion := by
  constructor
  · rintro ⟨tables, views⟩ name made r member stored
    rcases List.mem_append.mp made with recorded | shown
    · obtain ⟨p, listed, rfl⟩ := List.mem_map.mp recorded
      have known := NameMap.mem_values.mpr ⟨_, tracks.recorded p listed⟩
      have base : p.name = p.relation.tableName .base := (String.append_empty).symm
      rw [base]
      exact ⟨tables _ known rfl r member stored .base .insertion (by simp),
        tables _ known rfl r member stored .base .deletion (by simp)⟩
    · obtain ⟨v, listed, rfl⟩ := List.mem_map.mp shown
      exact ⟨views v listed r member stored .insertion, views v listed r member stored .deletion⟩
  · intro apart
    have pendingFree : ∀ name ∈ b.exchange.provenance.map ProvenanceRelation.name ++
        b.exchange.views.map OuterJoinView.name, ∀ r ∈ b.catalog.relations.values,
        r.isStored = true → ∀ kind ≠ .base, name ≠ r.tableName kind := by
      intro name made r member stored kind pending
      rcases pending_of_ne pending with rfl | rfl
      · exact (apart name made r member stored).1
      · exact (apart name made r member stored).2
    -- A base table never has the name of a pending one.
    have baseFree : ∀ r ∈ b.catalog.relations.values, r.isStored = true →
        ∀ r' ∈ b.catalog.relations.values, r'.isStored = true → ∀ kind ≠ .base,
        r.name ≠ r'.tableName kind := by
      intro r member stored r' member' stored' kind pending same
      obtain ⟨p, recorded, named⟩ := tracks.recorded_of_clash own valid member stored pending same
      exact pendingFree p.name (List.mem_append_left _ (List.mem_map_of_mem recorded)) r' member'
        stored' kind pending (named.trans same)
    have base : ∀ r : Relation, r.tableName .base = r.name := fun r => String.append_empty
    constructor
    · intro r member stored r' member' stored' kind kind' differ same
      by_cases kinds : kind = kind'
      · subst kinds
        have names : r.name = r'.name := (String.append_left_inj _).mp same
        have equal := tracks.named member
        rw [names, tracks.named member'] at equal
        cases equal
        exact differ rfl
      · by_cases first : kind = .base
        · subst first
          rw [base] at same
          exact baseFree r member stored r' member' stored' kind' (Ne.symm kinds) same
        · by_cases second : kind' = .base
          · subst second
            rw [base] at same
            exact baseFree r' member' stored' r member stored kind first same.symm
          · exact pending_names_ne first second kinds same
    · intro v shown r member stored kind same
      by_cases pending : kind = .base
      · subst pending
        rw [base] at same
        obtain ⟨view, found, role⟩ := tracks.shown v shown
        rw [same, tracks.named member] at found
        cases found
        simp [Relation.isStored, role] at stored
      · exact pendingFree v.name (List.mem_append_right _ (List.mem_map_of_mem shown)) r member stored
          kind pending same

end Build

namespace Compilation

variable {text : String} {program : Program} {config : Config} {trust : TrustPolicy}
  {c compiled : Compilation}

-- Names that a compilation makes up: of provenance relations and of views.
def madeNames (x : Exchange) : List String :=
  x.provenance.map ProvenanceRelation.name ++ x.views.map OuterJoinView.name

theorem tables_disjoint_iff (parsed : Program.parse text = .ok program)
    (created : ofCatalog program.catalog config = .ok c)
    (made : c.exchangeUnder trust = .ok compiled) :
    ∃ x, compiled.exchange = some x ∧
      (compiled.catalog.TablesDisjoint x.views ↔
        ∀ name ∈ madeNames x, ∀ r ∈ compiled.catalog.relations.values, r.isStored = true →
          name ≠ r.tableName .insertion ∧ name ≠ r.tableName .deletion) := by
  obtain ⟨b, built, catalog, exchange, -, valid⟩ := exchangeUnder_ok made
  have own := ofCatalog_declared parsed created
  rw [catalog]
  exact ⟨b.exchange, exchange, (Build.tracks_ofCatalog own built).disjoint_iff own valid⟩

section Copies

-- Mappings of a relation to itself, under the given names.
def copyText (ids : List String) : String :=
  "relation R(a: int);" ++ String.join (ids.map fun id => "mapping " ++ id ++ ": R(x) :- R(x).")

def copyCatalog (ids : List String) : Catalog where
  relations := NameMap.empty.insert "R" { name := "R", columns := [⟨"a", .integer, false⟩] }
  mappings := ids.map fun id =>
    .ofHeads id [.ofRelation "R" [.var "x"]] [.ofRelation "R" [.var "x"]]

def storedNames (compiled : Compilation) : List String :=
  (compiled.catalog.relations.values.filter Relation.isStored).map Relation.name

def copyNames (ids : List String) : Option (List String × List String) :=
  (compile? { provenance := .outerJoin } (copyCatalog ids)).bind fun compiled =>
    compiled.exchange.map fun x => (storedNames compiled, madeNames x)

theorem copyNames_parts {ids stored names : List String}
    (parses : Program.parsesTo (copyText ids) (copyCatalog ids) = true)
    (found : copyNames ids = some (stored, names)) :
    ∃ program c compiled x, Program.parse (copyText ids) = .ok program ∧
      ofCatalog program.catalog { provenance := .outerJoin } = .ok c ∧
      c.exchangeUnder {} = .ok compiled ∧ compiled.exchange = some x ∧
      storedNames compiled = stored ∧ madeNames x = names := by
  obtain ⟨compiled, found, named⟩ := Option.bind_eq_some_iff.mp found
  obtain ⟨x, exchange, same⟩ := Option.map_eq_some_iff.mp named
  obtain ⟨c, created, made⟩ := compile?_parts found
  obtain ⟨program, parsed, catalog⟩ := Program.parsesTo_parts parses
  cases same
  exact ⟨program, c, compiled, x, parsed, catalog ▸ created, made, exchange, rfl, rfl⟩

theorem tables_disjoint_copy : ∃ program c compiled x,
    Program.parse (copyText ["m"]) = .ok program ∧
    ofCatalog program.catalog { provenance := .outerJoin } = .ok c ∧
    c.exchangeUnder {} = .ok compiled ∧ compiled.exchange = some x ∧
    madeNames x = ["P_m", "J_R"] ∧ compiled.catalog.TablesDisjoint x.views := by
  have named : copyNames ["m"] = some (["P_m", "R", "R_L"], ["P_m", "J_R"]) := by cbv
  obtain ⟨program, c, compiled, x, parsed, created, made, exchange, stored, names⟩ :=
    copyNames_parts (by decide +kernel) named
  refine ⟨program, c, compiled, x, parsed, created, made, exchange, names, ?_⟩
  obtain ⟨y, same, disjoint⟩ := tables_disjoint_iff parsed created made
  cases exchange.symm.trans same
  refine disjoint.mpr fun name listed r member isStored => ?_
  have listedName : r.name ∈ storedNames compiled :=
    List.mem_map_of_mem (List.mem_filter.mpr ⟨member, isStored⟩)
  rw [stored] at listedName
  rw [names] at listed
  have apart : ∀ r ∈ ["P_m", "R", "R_L"], ∀ name ∈ ["P_m", "J_R"],
      name ≠ r ++ TableKind.insertion.suffix ∧ name ≠ r ++ TableKind.deletion.suffix := by decide
  exact apart r.name listedName name listed

-- A mapping whose name ends as that of a pending table shares a table with another mapping.
theorem pending_table_shared : ∃ program c compiled x,
    Program.parse (copyText ["m", "m_INS"]) = .ok program ∧
    ofCatalog program.catalog { provenance := .outerJoin } = .ok c ∧
    c.exchangeUnder {} = .ok compiled ∧ compiled.exchange = some x ∧
    ¬ compiled.catalog.TablesDisjoint x.views := by
  have named : copyNames ["m", "m_INS"] =
      some (["P_m", "P_m_INS", "R", "R_L"], ["P_m", "P_m_INS", "J_R"]) := by cbv
  obtain ⟨program, c, compiled, x, parsed, created, made, exchange, stored, -⟩ :=
    copyNames_parts (by decide +kernel) named
  refine ⟨program, c, compiled, x, parsed, created, made, exchange, ?_⟩
  have storedName : ∀ name ∈ storedNames compiled,
      ∃ r ∈ compiled.catalog.relations.values, r.isStored = true ∧ r.name = name := by
    intro name listed
    obtain ⟨r, member, rfl⟩ := List.mem_map.mp listed
    exact ⟨r, (List.mem_filter.mp member).1, (List.mem_filter.mp member).2, rfl⟩
  rw [stored] at storedName
  obtain ⟨r, member, isStored, first⟩ := storedName "P_m" (by decide)
  obtain ⟨r', member', isStored', second⟩ := storedName "P_m_INS" (by decide)
  rintro ⟨tables, -⟩
  refine tables r' member' isStored' r member isStored .base .insertion (by simp) ?_
  rw [Relation.tableName, Relation.tableName, first, second]
  decide

end Copies

end Compilation

end PeerExchange
