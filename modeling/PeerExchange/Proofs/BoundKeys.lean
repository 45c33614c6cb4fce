import PeerExchange.Proofs.LowerablePrograms
import PeerExchange.Proofs.RepeatedInsertion
import PeerExchange.Proofs.SafeMappings
import PeerExchange.Proofs.SettledBuiltins

namespace PeerExchange

open RowSemantics (Env Match Meaning builtins denote joinedPlaces schedule)
open Sql (Database Row Statement Table Value)

section Mappings

-- A rule that adds what its heads say. Marks are on variables that the body does not have.
structure Rule.IsDeriving (r : Rule) : Prop where
  derives : r.action = .derive
  unguarded : r.guard = none
  unstamped : r.stamp = none
  unblanked : (r.blankAll || r.blankNonKey) = false
  marked : ∀ a ∈ r.head, ∀ v, .variable v ∈ a.args → v.skolem ≠ none → v.name ∉ r.bodyNames

theorem Program.deriving_of_parse {text : String} {p : Program} (parsed : parse text = .ok p) :
    ∀ m ∈ p.catalog.mappings, m.IsDeriving := by
  have built : Grammar.Scan.Yields Grammar.mapping fun m => ∃ id head body, m = .ofHeads id head body :=
    (Grammar.Scan.yields_any _).bind fun _ _ => (Grammar.Scan.yields_any _).bind fun id _ =>
      (Grammar.Scan.yields_any _).bind fun _ _ => (Grammar.Scan.yields_any _).bind fun head _ =>
        (Grammar.Scan.yields_any _).bind fun _ _ => (Grammar.Scan.yields_any _).bind fun body _ =>
          (Grammar.Scan.yields_any _).bind fun _ _ => Grammar.Scan.yields_pure ⟨id, head, body, rfl⟩
  intro m member
  have scanned := (parse_declared parsed).mappings m member
  obtain ⟨id, head, body, rfl⟩ := parse_mappings built parsed m member
  refine ⟨rfl, rfl, rfl, rfl, fun a inside v arg marked => ?_⟩
  have unmarked : (Term.variable v).IsUnmarked :=
    scanned.unmarked a (List.mem_append_left _ inside) _ arg
  exact absurd unmarked.2 marked

namespace Rule

variable {m : Rule}

theorem IsDeriving.skolemize (deriving_ : m.IsDeriving) :
    m.skolemize.IsDeriving ∧ m.skolemize.body = m.body := by
  refine skolemize_keeps (P := fun q => q.IsDeriving ∧ q.body = m.body) ⟨deriving_, rfl⟩ ?_
  rintro q name ⟨held, body⟩ undefined
  have names : (q.invent m.inventionInputs name).bodyNames = m.bodyNames := by
    rw [bodyNames, bodyNames, ← body]
    rfl
  refine ⟨⟨held.derives, held.unguarded, held.unstamped, held.unblanked, ?_⟩, body⟩
  refine List.forall_mem_map.mpr fun a inside v arg marked => ?_
  rw [names]
  obtain ⟨t, old, same⟩ := List.mem_map.mp arg
  cases t with
  | constant type value => cases same
  | skolem function args => cases same
  | «variable» u =>
    rw [markInvented] at same
    split at same
    · rename_i named
      obtain rfl := Term.variable.inj same
      exact outside_of_undefined (named ▸ undefined)
    · obtain rfl := Term.variable.inj same
      have outside := held.marked a inside u old marked
      rwa [bodyNames, body] at outside

end Rule

namespace Mapping

variable {declared : Catalog} {config : Config} {trust : TrustPolicy} {m r : Rule}

theorem deriving_withInverses (written : ∀ m ∈ declared.mappings, m.IsDeriving)
    (member : m ∈ withInverses config (trusted declared trust)) : m.IsDeriving := by
  rcases mem_withInverses.mp member with direct | ⟨-, source, -, made⟩
  · exact written m (mem_trusted.mp direct).1
  · unfold Rule.inverse? at made
    split at made
    · split at made
      · cases made
        refine ⟨rfl, rfl, rfl, rfl, List.forall_mem_singleton.mpr fun v arg marked => ?_⟩
        obtain ⟨t, -, same⟩ := List.mem_map.mp arg
        cases same
        exact absurd rfl marked
      · cases made
    · cases made

theorem deriving_toRules (written : m.IsDeriving) (inside : r ∈ toRules declared config m) :
    r.IsDeriving := by
  obtain ⟨held, -⟩ := written.skolemize
  exact toRules_keep held (fun _ _ head member => ⟨held.derives, held.unguarded, held.unstamped,
    held.unblanked, List.forall_mem_singleton.mpr (held.marked head member)⟩) r inside

theorem fills_toRules (own : declared.IsDeclared) (valid : declared.validate = .ok ())
    (member : m ∈ withInverses config (trusted declared trust))
    (supported : checkSupported m = .ok ()) (inside : r ∈ toRules declared config m) {head : Atom}
    (heads : r.head = [head]) : r.Fills declared := by
  have fit : r.Has (fun a => a.Fits declared ∧ a.optional = false) fun _ => True :=
    has_toRules (fun f a kept => ⟨steady_fits f a kept.1, kept.2⟩) ⟨fun a head =>
      ⟨fits_heads own valid member a head,
        (checkSupported_ok supported).2 a (List.mem_append_right _ head)⟩, fun _ _ => trivial⟩ r inside
  obtain ⟨fits, required⟩ := fit.head head (heads ▸ List.mem_singleton_self head)
  have known := isKnown_of_fits fits
  obtain ⟨name, relation, named, -⟩ := fits
  exact ⟨head, heads, Option.isSome_iff_exists.mpr ⟨name, named⟩, required, known⟩

end Mapping

theorem Rule.IsSafe.lowerable {catalog : Catalog} {r : Rule} (safe : r.IsSafe catalog)
    (fills : r.Fills catalog) (unguarded : r.guard = none) (unstamped : r.stamp = none) :
    r.Lowerable catalog := by
  obtain ⟨head, heads, related, required, known⟩ := fills
  refine ⟨safe.body, ?_, ⟨head, heads, known, Atom.builtin?_of_relation related, required,
    safe.resolved head (heads ▸ List.mem_singleton_self head)⟩, .unstamped unstamped⟩
  have readable := @Maintenance.readable_of_read catalog r none r.body [] safe.read
    (fun a listed negative v within => .inl ?_) (List.forall_mem_nil _) fun _ _ _ _ => .unguarded
  · rwa [List.append_nil, ← unguarded] at readable
  · rw [List.append_nil]
    exact safe.binds_of_unjoined listed negative v within

end Mappings

section Checks

variable {catalog : Catalog} {r : Rule} {head : Atom} {target : Relation} {name : String} {k : Nat}

namespace Synthesis

theorem checkKeyBound_ok (heads : r.head = [head])
    (known : catalog.relations.get? head.relationName = some target)
    (checked : checkKeyBound catalog r = .ok ()) (key : k ∈ target.key) :
    ∃ t, head.args[k]? = some t ∧ keyMayBeNull catalog r t = false := by
  unfold checkKeyBound at checked
  have first : r.head? = some head := by rw [Rule.head?, heads]; rfl
  simp only [first, Catalog.relation, known] at checked
  have own := Compiled.forM_ok checked k key
  split at own
  · cases own
  · rename_i t found
    split at own
    · split at own <;> cases own
    · rename_i accepted
      exact ⟨t, found, Bool.not_eq_true _ ▸ accepted⟩

structure StandsIn (catalog : Catalog) (r : Rule) (name : String) (a : Atom) (relation : Relation)
    (column : Column) : Prop where
  inside : a ∈ r.body
  positive : a.isPositive = true
  known : catalog.relations.get? a.relationName = some relation
  place : ∃ v : Variable, (.variable v, column) ∈ a.args.zip relation.columns ∧ v.name = name

theorem isNullableOnly_iff : isNullableOnly catalog r name = true ↔
    (∃ a relation column, StandsIn catalog r name a relation column) ∧
      ∀ a relation column, StandsIn catalog r name a relation column → column.nullable = true := by
  unfold isNullableOnly
  dsimp only
  rw [Bool.and_eq_true, Bool.not_eq_true', List.isEmpty_eq_false_iff_exists_mem, List.all_eq_true]
  generalize listing : (r.body.filter Atom.isPositive).flatMap _ = columns
  have listed (nullable : Bool) : nullable ∈ columns ↔
      ∃ a relation column, StandsIn catalog r name a relation column ∧ column.nullable = nullable := by
    rw [← listing, List.mem_flatMap]
    constructor
    · rintro ⟨a, member, listed⟩
      obtain ⟨inside, positive⟩ := List.mem_filter.mp member
      split at listed
      · rename_i relation known
        obtain ⟨p, placed, shown⟩ := List.mem_filterMap.mp listed
        obtain ⟨⟨t, column⟩, place, rfl⟩ := List.mem_map.mp placed
        obtain ⟨holds, same⟩ := Option.ite_none_right_eq_some.mp shown
        obtain ⟨v, rfl, named⟩ := Term.any_asVariable?.mp holds
        exact ⟨a, relation, column, ⟨inside, positive, known, v, place, named⟩, Option.some.inj same⟩
      · cases listed
    · rintro ⟨a, relation, column, ⟨inside, positive, known, v, place, named⟩, rfl⟩
      refine ⟨a, List.mem_filter.mpr ⟨inside, positive⟩, ?_⟩
      rw [known]
      exact List.mem_filterMap.mpr ⟨⟨relation.name, column, .variable v⟩,
        List.mem_map.mpr ⟨_, place, rfl⟩, if_pos (Term.any_asVariable?.mpr ⟨v, rfl, named⟩)⟩
  constructor
  · rintro ⟨⟨_, some⟩, all⟩
    obtain ⟨a, relation, column, stands, -⟩ := (listed _).mp some
    exact ⟨⟨a, relation, column, stands⟩, fun a relation column stands =>
      all _ ((listed _).mpr ⟨a, relation, column, stands, rfl⟩)⟩
  · rintro ⟨⟨a, relation, column, stands⟩, all⟩
    refine ⟨⟨_, (listed _).mpr ⟨a, relation, column, stands, rfl⟩⟩, fun nullable inside => ?_⟩
    obtain ⟨a, relation, column, stands, rfl⟩ := (listed _).mp inside
    exact all a relation column stands

theorem standsIn_of_joined (safe : r.IsSafe catalog) (joined : name ∈ r.joinedNames) :
    ∃ a relation column, StandsIn catalog r name a relation column := by
  obtain ⟨a, inside, positive, mentioned⟩ := Rule.mem_joinedNames.mp joined
  have read := safe.read a inside
  obtain ⟨relation, known, arity⟩ := read.known (Atom.builtin?_of_isPositive positive)
  obtain ⟨t, arg, v, within, rfl⟩ := Atom.mem_variableNames.mp mentioned
  have own : t = .variable v := by
    cases t with
    | «variable» u => rw [List.mem_singleton.mp within]
    | constant type value => cases within
    | skolem function args => exact (read.unmarked _ arg).elim
  subst own
  obtain ⟨i, bound, at_⟩ := List.getElem_of_mem arg
  have inColumns : i < relation.columns.length := by
    rw [Relation.arity] at arity
    exact arity ▸ bound
  refine ⟨a, relation, relation.columns[i], inside, positive, known, v, ?_, rfl⟩
  rw [← at_, List.mem_iff_getElem]
  exact ⟨i, by simpa using ⟨bound, inColumns⟩, List.getElem_zip⟩

theorem standsIn_required (safe : r.IsSafe catalog) (joined : name ∈ r.joinedNames)
    (accepted : isNullableOnly catalog r name = false) :
    ∃ a relation column, StandsIn catalog r name a relation column ∧ column.nullable = false := by
  by_contra none
  refine Bool.false_ne_true (accepted.symm.trans (isNullableOnly_iff.mpr
    ⟨standsIn_of_joined safe joined, fun a relation column stands => ?_⟩))
  by_contra required
  exact none ⟨a, relation, column, stands, Bool.not_eq_true _ ▸ required⟩

end Synthesis

end Checks

section Nulls

variable {ctx : Lowering.Context} {db : Database} {guard : Option Guard} {body : List Atom}
  {rows : List Row} {env : Env} {parameter : Int} {a : Atom} {name : String} {m : Meaning} {t : Term}

-- Columns that are declared without nulls hold none.
def Catalog.Filled (catalog : Catalog) (db : Database) : Prop :=
  ∀ name relation, catalog.relations.get? name = some relation → ∀ kind,
    ∀ row ∈ db.rows (relation.tableName kind), ∀ column ∈ relation.columns, column.nullable = false →
      (RowSemantics.cell db (relation.tableName kind) row column.name).value ≠ .null

namespace RowSemantics

-- The value of a variable that only built-ins bind, computed from a null.
def NullComputed (ctx : Lowering.Context) (env : Env) (t : Term) : Prop :=
  ∃ v a inputs, t = .variable v ∧ v.name ∉ ctx.rule.joinedNames ∧ a ∈ ctx.rule.body ∧
    a.Determines inputs v.name ∧
    ∃ u ∈ inputs, ∃ m, denote ctx env u = some m ∧ m.value.value = .null

section Matches

variable (matched : Match ctx db parameter guard body rows env)
include matched

-- What a variable is joined over holds null only if it stands for null and has this place alone.
theorem null_of_place {p : Meaning × Term} (inside : p ∈ joinedPlaces ctx db body rows) {v : Variable}
    (arg : p.2 = .variable v) (found : env.get? v.name = some m) (null : m.value.value = .null) :
    p.1.value.value = .null := by
  rcases place_agrees matched.keeps matched.joined inside with ⟨u, same, own⟩ | agrees
  · obtain rfl := Term.variable.inj (arg.symm.trans same)
    cases found.symm.trans own
    exact null
  · rw [Agrees, arg, if_neg (by exact Bool.false_ne_true)] at agrees
    obtain ⟨m', meant, -, holds⟩ := agrees
    cases (denote_variable found).symm.trans meant
    exact absurd null (holds_eq_iff.mp holds).2.1

theorem joined_ne_null (safe : ctx.rule.IsSafe ctx.catalog) (kept : ctx.rule.body ⊆ body)
    (filled : ctx.catalog.Filled db) (joined : name ∈ ctx.rule.joinedNames)
    (accepted : Synthesis.isNullableOnly ctx.catalog ctx.rule name = false)
    (found : env.get? name = some m) : m.value.value ≠ .null := by
  obtain ⟨a, relation, column, ⟨inside, positive, known, v, place, rfl⟩, required⟩ :=
    Synthesis.standsIn_required safe joined accepted
  obtain ⟨row, stored, placed⟩ := exists_joined matched.chosen (kept inside) positive
  have table : tableOf ctx.catalog a = relation.tableName a.kind := by
    rw [tableOf, known]
    rfl
  rw [table] at stored
  intro null
  refine filled a.relationName relation known a.kind row stored column (List.of_mem_zip place).2 required ?_
  refine null_of_place matched (placed (⟨cell db (relation.tableName a.kind) row column.name,
    (relation.markerOf? column).map (cell db (relation.tableName a.kind) row)⟩, .variable v) ?_) rfl found
    null
  rw [places, known]
  exact List.mem_map.mpr ⟨(.variable v, column), place, rfl⟩

theorem determined_of_unjoined (within : ∀ a ∈ body, a ∈ ctx.rule.body ∨ a.negated = true)
    (unjoined : name ∉ ctx.rule.joinedNames) (found : env.get? name = some m) :
    ∃ a ∈ ctx.rule.body, ∃ inputs, a.Determines inputs name := by
  rcases bound_before matched.settled found with first | ⟨s, listed, binds⟩
  · obtain ⟨p, inside, -, v, arg, rfl⟩ := mem_of_first? (get?_start.symm.trans first)
    obtain ⟨a, member, positive, row, -, place⟩ := mem_joinedPlaces matched.chosen inside
    have own := (within a member).resolve_right fun negated =>
      Bool.false_ne_true ((Atom.negated_of_isPositive positive).symm.trans negated)
    refine absurd (Rule.mem_joinedNames.mpr ⟨a, own, positive, ?_⟩) unjoined
    unfold places at place
    split at place
    · obtain ⟨⟨t, column⟩, listed, rfl⟩ := List.mem_map.mp place
      obtain rfl : t = .variable v := arg
      exact Atom.mem_variableNames.mpr
        ⟨_, (List.of_mem_zip listed).1, v, List.mem_singleton_self v, rfl⟩
    · cases place
  · obtain ⟨member, plain⟩ := List.mem_filter.mp (mem_schedule listed)
    have own := (within s.atom member).resolve_right fun negated => by simp [negated] at plain
    have settled := settledIn_of_settle (fun y => by
      rw [Bool.eq_iff_iff, List.contains_iff_mem, NameMap.mem_keys]) (schedule_ordered _)
      matched.settled s listed
    cases settled with
    | bound keeps builtin chosen given found =>
      obtain rfl := Option.some.inj binds
      obtain ⟨-, inputs, determines, -⟩ := Atom.determines_of_binding chosen
      exact ⟨_, own, inputs, determines⟩
    | tested => cases binds

end Matches

theorem constant_ne_null {type : Option ColumnType} {literal : Literal} (known : literal ≠ .null) :
    (Meaning.ofLiteral type literal).value.value ≠ .null := by
  cases literal with
  | string s => exact nofun
  | integer n => exact Value.ofInteger_ne_null n
  | null => exact absurd rfl known
  | labeledNull label => exact nofun

theorem accepted_null_iff (safe : ctx.rule.IsSafe ctx.catalog) (deriving_ : ctx.rule.IsDeriving)
    (kept : ctx.rule.body ⊆ body) (within : ∀ a ∈ body, a ∈ ctx.rule.body ∨ a.negated = true)
    (filled : ctx.catalog.Filled db) (matched : Match ctx db parameter guard body rows env)
    (covers : ∀ a ∈ builtins body, ∃ s ∈ schedule ((builtins body).length + 1) (builtins body)
      (bound .empty (joinedPlaces ctx db body rows)).keys, s.atom = a)
    {head : Atom} (inside : head ∈ ctx.rule.head) (arg : t ∈ head.args)
    (accepted : Synthesis.keyMayBeNull ctx.catalog ctx.rule t = false)
    (meant : denote ctx env t = some m) : m.value.value = .null ↔ NullComputed ctx env t := by
  -- A built-in of the body says what it determines, once it is settled.
  have determined {a : Atom} {inputs : List Term} {name : String} (member : a ∈ ctx.rule.body)
      (determines : a.Determines inputs name) : ∃ m, env.get? name = some m ∧
        (m.value.value = .null ↔ ∃ u ∈ inputs, ∃ m', denote ctx env u = some m' ∧
          m'.value.value = .null) := by
    have read := safe.read a member
    obtain ⟨s, listed, rfl⟩ := covers a (List.mem_filter.mpr
      ⟨kept member, by simp [read.plain, determines.builtin]⟩)
    have settled := settledIn_of_settle (fun y => by
      rw [Bool.eq_iff_iff, List.contains_iff_mem, NameMap.mem_keys]) (schedule_ordered _)
      matched.settled s listed
    exact determined_null_iff settled read.unmarked read.arity determines
  constructor
  · intro null
    cases t with
    | constant type value =>
      cases meant
      exact absurd null (constant_ne_null (of_decide_eq_false accepted))
    | skolem function args =>
      obtain ⟨values, -, rfl⟩ := Option.map_eq_some_iff.mp meant
      exact absurd null inventedText_ne_null
    | «variable» v =>
      cases found : env.get? v.name with
      | none =>
        rw [denote, denoteWith, found] at meant
        exact absurd null (inventedMeaning_ne_null meant)
      | some own =>
        cases (denote_variable found).symm.trans meant
        have unjoined : v.name ∉ ctx.rule.joinedNames := by
          intro joined
          cases mark : v.skolem with
          | none =>
            have open_ : Synthesis.isNullableOnly ctx.catalog ctx.rule v.name = false := by
              simpa [Synthesis.keyMayBeNull, mark] using accepted
            exact joined_ne_null matched safe kept filled joined open_ found null
          | some k =>
            obtain ⟨a, member, -, named⟩ := Rule.mem_joinedNames.mp joined
            exact deriving_.marked head inside v arg (by rw [mark]; exact Option.some_ne_none _)
              (List.mem_flatMap.mpr ⟨a, member, named⟩)
        obtain ⟨a, member, inputs, determines⟩ := determined_of_unjoined matched within unjoined found
        obtain ⟨m', known, same⟩ := determined member determines
        cases found.symm.trans known
        exact ⟨v, a, inputs, rfl, unjoined, member, determines, same.mp null⟩
  · rintro ⟨v, a, inputs, rfl, -, member, determines, given⟩
    obtain ⟨m', known, same⟩ := determined member determines
    cases (denote_variable known).symm.trans meant
    exact same.mpr given

end RowSemantics

end Nulls

namespace Lowering

variable {ctx : Context} {db : Database} {head : Atom} {target : Relation} {parameter : Int}
  {body : List Atom} {statements : List Statement} {row : Row}

theorem subset_insertionBody {setSemantics : Bool} (plain : ∀ a ∈ body, a.negated = false) :
    body ⊆ (insertionBody setSemantics target head body).1 := by
  have shortened {whole : List Atom} (wider : body ⊆ whole) : body ⊆
      (if whole.getLast?.any (·.same head.negate) && !target.hasStratum head.kind
        then (whole.dropLast, true) else (whole, false)).1 := by
    split
    · rename_i last
      obtain ⟨a, found, same⟩ := (Option.any_eq_true ..).mp (Bool.and_eq_true_iff.mp last).1
      intro b inside
      have listed := wider inside
      rw [← List.dropLast_append_getLast? a found] at listed
      rcases List.mem_append.mp listed with kept | dropped
      · exact kept
      · obtain rfl := List.mem_singleton.mp dropped
        cases (plain b inside).symm.trans (negated_of_same same)
    · exact wider
  unfold insertionBody
  dsimp only
  split
  · exact shortened (List.subset_append_left _ _)
  · exact shortened (List.Subset.refl _)

theorem cell_fill {t : Table} {kind : TableKind} (stored : target.StoredIn kind db)
    (found : db.tables.get? (target.tableName kind) = some t) {column : String × ColumnType} {v : Value}
    (written : (column, v) ∈ (target.physicalColumns kind).zip row) :
    (RowSemantics.cell db (target.tableName kind) (t.fill t.columnNames row) column.1).value =
      v.store column.2 := by
  have shown : db.columns (target.tableName kind) = t.columns := by
    simp [Database.columns, found]
  have columns := shown.symm.trans stored.columns
  have names : t.columns.map Prod.fst = (target.physicalColumns kind).map Prod.fst := by
    rw [columns, List.map_map]
    rfl
  have distinct : Sql.Distinct (t.columns.map Prod.fst) := names ▸ stored.distinct
  have listed : ((column.1, some column.2), v) ∈ t.columns.zip row := by
    rw [columns, List.zip_map_left]
    exact List.mem_map.mpr ⟨(column, v), written, rfl⟩
  have read := Sql.cell?_of_mem distinct listed
  have filled : ((column.1, some column.2), v.store column.2) ∈
      t.columns.zip (t.fill t.columnNames row) := by
    obtain ⟨i, bound, at_⟩ := List.getElem_of_mem (List.of_mem_zip listed).1
    rw [Table.fill, List.mem_iff_getElem]
    refine ⟨i, by simpa using bound, ?_⟩
    rw [List.getElem_zip, List.getElem_map, at_]
    dsimp only
    rw [Table.columnNames, Sql.lookup_zip, read]
    rfl
  rw [RowSemantics.cell, shown, Sql.cell?_of_mem distinct filled]
  rfl

-- A safe rule is one statement, and what the statement adds is null in the key where built-ins compute
-- it from a null.
theorem derived_null_iff (safe : ctx.rule.IsSafe ctx.catalog) (deriving_ : ctx.rule.IsDeriving)
    (heads : ctx.rule.head = [head]) (required : head.optional = false)
    (checked : Synthesis.checkKeyBound ctx.catalog ctx.rule = .ok ())
    (known : ctx.catalog.relations.get? head.relationName = some target)
    (columned : target.columns ≠ []) (stored : target.StoredIn head.kind db)
    (stores : ∀ a ∈ ctx.rule.body, a.builtin? = none → StoresAtom ctx.catalog db a)
    (filled : ctx.catalog.Filled db) (fits : fitsWord parameter = true)
    (lowered : lowerRule ctx = .ok statements) : ∃ statement new count, statements = [statement] ∧
      db.execute parameter statement = .ok (db.setRows (target.tableName head.kind)
        (db.rows (target.tableName head.kind) ++ new), count) ∧
      ∀ row ∈ new, ∃ rows env, Match ctx db parameter none
          (insertionBody ctx.config.setSemantics target head ctx.rule.body).1 rows env ∧
        ∀ k ∈ target.key, ∃ t column, head.args[k]? = some t ∧ target.columns[k]? = some column ∧
          ((RowSemantics.cell db (target.tableName head.kind) row column.name).value = .null ↔
            RowSemantics.NullComputed ctx env t) := by
  have inner : ∀ a ∈ head :: ctx.rule.body, a.optional = false :=
    List.forall_mem_cons.mpr ⟨required, fun a inside => (safe.read a inside).required⟩
  have plain (a : Atom) (inside : a ∈ ctx.rule.body) : a.negated = false := (safe.read a inside).plain
  obtain ⟨scope, projection, arity, from_, projected, -⟩ :=
    lowerRule_derive deriving_.derives heads safe.body known lowered
  obtain ⟨sc, joins, statement, t, added, count, rfl, bodied, shaped, found, executed, adds⟩ :=
    runs_derive deriving_.derives heads safe.body inner known (target.physicalColumns_ne columned) stored
      stores fits lowered
  obtain rfl := Except.ok.inj (from_.symm.trans bodied)
  refine ⟨statement, _, count, rfl, executed, List.forall_mem_map.mpr fun row new => ?_⟩
  obtain ⟨rows, env, matched, rfl⟩ := adds.source row new
  rw [deriving_.unguarded] at matched bodied
  refine ⟨rows, env, matched, fun k key => ?_⟩
  obtain ⟨t, arg, accepted⟩ := Synthesis.checkKeyBound_ok heads known checked key
  obtain ⟨bound, rfl⟩ := List.getElem?_eq_some_iff.mp arg
  have inColumns : k < target.columns.length := by
    rw [Relation.arity] at arity
    exact arity ▸ bound
  have place : (head.args[k], target.columns[k]) ∈ head.args.zip target.columns := by
    rw [List.mem_iff_getElem]
    exact ⟨k, by simpa using ⟨bound, inColumns⟩, List.getElem_zip⟩
  obtain ⟨m, meant⟩ := denotes_match shaped fits projected (deriving_.unguarded ▸ matched) _ place
  refine ⟨_, target.columns[k], arg, List.getElem?_eq_getElem inColumns, ?_⟩
  have written := (zip_writtenRow parameter deriving_.unblanked arity place meant).1
  rw [cell_fill stored found written, store_eq_null_iff]
  refine RowSemantics.accepted_null_iff safe deriving_ (subset_insertionBody plain) ?_ filled matched ?_
    (heads ▸ List.mem_singleton_self head) (List.getElem_mem bound) accepted meant
  · intro a inside
    rcases mem_insertionBody inside with own | rfl
    · exact .inl own
    · exact .inr rfl
  · intro a inside
    refine lowerBody_covers ?_ ?_ bodied matched inside
    · exact forall_insertionBody (fun a inside => (safe.read a inside).required) required
    · exact stores_insertionBody known stored stores

end Lowering

namespace Synthesis

-- A rule of a mapping that passes the checks of its kind, of its safety and of its key.
structure KeyChecked (declared : Catalog) (config : Config) (trust : TrustPolicy) (r : Rule) : Prop where
  source : ∃ m ∈ Mapping.withInverses config (Mapping.trusted declared trust),
    Mapping.checkSupported m = .ok () ∧ r ∈ Mapping.toRules declared config m
  safe : Mapping.checkRuleSafety r = .ok ()
  bound : checkKeyBound declared r = .ok ()

end Synthesis

section Equated

-- The key of T gets what R holds, through an equation.
def equatedText : String :=
  "relation R(a: int null); relation T(a: int key); mapping m: T(x) :- R(y), x = y."

def equatedHead : Atom := .ofRelation "T" [.var "x"]

def equatedRule : Rule :=
  .ofHeads "m" [equatedHead] [.ofRelation "R" [.var "y"], .ofBuiltin .eq [.var "x", .var "y"]]

def equatedSource : Relation := { name := "R", columns := [⟨"a", .integer, true⟩] }

def equatedTarget : Relation := { name := "T", columns := [⟨"a", .integer, false⟩], key := [0] }

def equatedCatalog : Catalog where
  relations := (NameMap.empty.insert "R" equatedSource).insert "T" equatedTarget
  mappings := [equatedRule]

def equatedConfig : Config := { provenance := .outerUnion }

def equatedTables : Database where
  tables := .ofList [
    ("R", { columns := [("a", some .integer)], rows := [[.null], [.integer 7]] }),
    ("T", { columns := [("a", some .integer)], rows := [] })]

theorem equated_relations {P : Relation → Prop} (source : P equatedSource) (target : P equatedTarget) :
    ∀ name r, equatedCatalog.relations.get? name = some r → P r := by
  intro name r found
  have values : equatedCatalog.relations.values = [equatedSource, equatedTarget] := by cbv
  have member : r ∈ equatedCatalog.relations.values := NameMap.mem_values.mpr ⟨name, found⟩
  rw [values] at member
  rcases member with _ | ⟨_, _ | ⟨_, ⟨⟩⟩⟩
  · exact source
  · exact target

theorem equated_filled : equatedCatalog.Filled equatedTables := by
  refine equated_relations (fun kind row _ => List.forall_mem_singleton.mpr nofun) fun kind row stored => ?_
  have empty : equatedTables.rows (equatedTarget.tableName kind) = [] := by cases kind <;> cbv
  rw [empty] at stored
  cases stored

theorem equated_stored : ∀ a ∈ equatedHead :: equatedRule.body, a.builtin? = none →
    Lowering.StoresAtom equatedCatalog equatedTables a := by
  have stored : ∀ name r, equatedCatalog.relations.get? name = some r → r.StoredIn .base equatedTables :=
    equated_relations (by decide +kernel) (by decide +kernel)
  have base : ∀ a ∈ equatedHead :: equatedRule.body, a.kind = .base := by decide
  intro a inside _ r found
  rw [base a inside]
  exact stored _ r found

theorem equated_checked : Synthesis.KeyChecked equatedCatalog equatedConfig {} equatedRule where
  source := ⟨equatedRule, by decide +kernel, by cbv, by decide +kernel⟩
  safe := by cbv
  bound := by cbv

theorem equated_parsed :
    ∃ program, Program.parse equatedText = .ok program ∧ program.catalog = equatedCatalog :=
  Program.parsesTo_parts (by decide +kernel)

def rowsAfter (catalog : Catalog) (config : Config) (db : Database) (rule : Rule) (table : String) :
    Option (List Row) :=
  match rule.lower catalog config (.literal 0) with
  | .ok [statement] =>
    match db.execute 0 statement with
    | .ok (db, _) => some (db.rows table)
    | .error _ => none
  | _ => none

theorem ran_of_rowsAfter {catalog : Catalog} {config : Config} {db : Database} {rule : Rule}
    {table : String} {rows : List Row} (holds : rowsAfter catalog config db rule table = some rows) :
    ∃ statement db' count, rule.lower catalog config (.literal 0) = .ok [statement] ∧
      db.execute 0 statement = .ok (db', count) ∧ db'.rows table = rows := by
  unfold rowsAfter at holds
  split at holds
  · rename_i statement lowered
    split at holds
    · rename_i db' count executed
      exact ⟨statement, db', count, lowered, executed, Option.some.inj holds⟩
    · cases holds
  · cases holds

end Equated

namespace Synthesis

variable {text : String} {program : Program} {config : Config} {trust : TrustPolicy} {r : Rule}
  {head : Atom} {target : Relation} {iteration : Iteration} {db : Database} {parameter : Int}

-- A rule that passes the checks adds rows. They have a null in a key column where a built-in computes
-- its value from a null, and in no other case.
theorem key_null_iff (parsed : Program.parse text = .ok program)
    (valid : program.catalog.validate = .ok ()) (checked : KeyChecked program.catalog config trust r)
    (heads : r.head = [head]) (known : program.catalog.relations.get? head.relationName = some target)
    (stores : ∀ a ∈ head :: r.body, a.builtin? = none → Lowering.StoresAtom program.catalog db a)
    (filled : program.catalog.Filled db) (range : iteration.InRange)
    (fits : fitsWord parameter = true) : ∃ statement new count,
      r.lower program.catalog config iteration = .ok [statement] ∧
      db.execute parameter statement = .ok (db.setRows (target.tableName head.kind)
        (db.rows (target.tableName head.kind) ++ new), count) ∧
      ∀ row ∈ new, ∃ rows env,
        Match ⟨program.catalog, config, r, iteration⟩ db parameter none
          (Lowering.insertionBody config.setSemantics target head r.body).1 rows env ∧
        ∀ k ∈ target.key, ∃ t column, head.args[k]? = some t ∧ target.columns[k]? = some column ∧
          ((RowSemantics.cell db (target.tableName head.kind) row column.name).value = .null ↔
            RowSemantics.NullComputed ⟨program.catalog, config, r, iteration⟩ env t) := by
  have own := Program.parse_declared parsed
  obtain ⟨⟨m, member, supported, inside⟩, safety, bound⟩ := checked
  have written := Mapping.deriving_toRules
    (Mapping.deriving_withInverses (Program.deriving_of_parse parsed) member) inside
  have safe := Mapping.rule_safe own valid member supported inside safety
  have fills := Mapping.fills_toRules own valid member supported inside heads
  have lowerable := safe.lowerable fills written.unguarded written.unstamped
  obtain ⟨statements, lowered⟩ :=
    @Rule.Lowerable.lower program.catalog config iteration r lowerable range
  obtain ⟨other, same, related, required, -⟩ := fills
  obtain rfl := List.singleton_inj.mp (heads.symm.trans same)
  obtain ⟨storesHead, storesBody⟩ := List.forall_mem_cons.mp stores
  obtain ⟨statement, new, count, rfl, executed, nulls⟩ :=
    @Lowering.derived_null_iff ⟨program.catalog, config, r, iteration⟩ db head target parameter statements
      safe written heads required bound known (own.relations _ _ known).2.2
      (storesHead (Atom.builtin?_of_relation related) target known) storesBody filled fits
      (Lowering.lower_ok lowered)
  exact ⟨statement, new, count, lowered, executed, nulls⟩

theorem key_null_iff_equated : ∃ program statement new count,
    Program.parse equatedText = .ok program ∧ program.catalog.validate = .ok () ∧
    KeyChecked program.catalog equatedConfig {} equatedRule ∧ program.catalog.Filled equatedTables ∧
    equatedRule.lower program.catalog equatedConfig (.literal 0) = .ok [statement] ∧
    equatedTables.execute 0 statement =
      .ok (equatedTables.setRows "T" (equatedTables.rows "T" ++ new), count) ∧
    ∀ row ∈ new, ∃ rows env,
      Match ⟨program.catalog, equatedConfig, equatedRule, .literal 0⟩ equatedTables 0 none
        (Lowering.insertionBody equatedConfig.setSemantics equatedTarget equatedHead
          equatedRule.body).1 rows env ∧
      ∀ k ∈ equatedTarget.key, ∃ t column, equatedHead.args[k]? = some t ∧
        equatedTarget.columns[k]? = some column ∧
        ((RowSemantics.cell equatedTables "T" row column.name).value = .null ↔
          RowSemantics.NullComputed ⟨program.catalog, equatedConfig, equatedRule, .literal 0⟩ env t) := by
  obtain ⟨⟨declared, trust⟩, parsed, rfl⟩ := equated_parsed
  have valid : equatedCatalog.validate = .ok () := by cbv
  obtain ⟨statement, new, count, lowered, executed, nulls⟩ := key_null_iff parsed valid equated_checked
    rfl (by cbv) equated_stored equated_filled
    (show (Iteration.literal 0).InRange by decide) (show fitsWord 0 = true by decide)
  exact ⟨_, statement, new, count, parsed, valid, equated_checked, equated_filled, lowered, executed,
    nulls⟩

-- No column of the key has nulls, and the rule passes the checks. Its statement adds a null all the same.
theorem checked_key_null : ∃ program statement db count,
    Program.parse equatedText = .ok program ∧ program.catalog.validate = .ok () ∧
    KeyChecked program.catalog equatedConfig {} equatedRule ∧ equatedRule.head = [equatedHead] ∧
    program.catalog.relations.get? equatedHead.relationName = some equatedTarget ∧
    equatedTarget.key = [0] ∧ program.catalog.Filled equatedTables ∧
    equatedRule.lower program.catalog equatedConfig (.literal 0) = .ok [statement] ∧
    equatedTables.execute 0 statement = .ok (db, count) ∧ equatedTables.rows "T" = [] ∧
    db.rows "T" = [[.null], [.integer 7]] := by
  obtain ⟨⟨declared, trust⟩, parsed, rfl⟩ := equated_parsed
  have ran : rowsAfter equatedCatalog equatedConfig equatedTables equatedRule "T" =
      some [[.null], [.integer 7]] := by cbv
  obtain ⟨statement, db, count, lowered, executed, rows⟩ := ran_of_rowsAfter ran
  exact ⟨_, statement, db, count, parsed, by cbv, equated_checked, rfl, by cbv, rfl, equated_filled, lowered,
    executed, by cbv, rows⟩

end Synthesis

end PeerExchange
