import PeerExchange.Proofs.GroupEffects
import PeerExchange.Proofs.ProvenanceStages
import PeerExchange.Proofs.WrittenRows

namespace PeerExchange

namespace Sql

abbrev Schema := String → List String → Prop

mutual

def Expr.ScopedIn (schema : Schema) (around : List Visible) : Expr → Prop
  | .column qualifier name => around.any (·.lists qualifier name) = true
  | .binary _ left right => left.ScopedIn schema around ∧ right.ScopedIn schema around
  | .call _ args => Expr.AllScopedIn schema around args
  | .cast e _ => e.ScopedIn schema around
  | .concat parts => Expr.AllScopedIn schema around parts
  | .nullCase e onNull otherwise =>
    e.ScopedIn schema around ∧ onNull.ScopedIn schema around ∧ otherwise.ScopedIn schema around
  | .exists _ query => query.ScopedIn schema around
  | .integer _ | .text _ | .null | .typedNull _ | .param _ => True

def Expr.AllScopedIn (schema : Schema) (around : List Visible) : List Expr → Prop
  | [] => True
  | e :: rest => e.ScopedIn schema around ∧ Expr.AllScopedIn schema around rest

-- Behind what is `seen`, the items of a FROM clause make all of `own` visible. The conditions of an
-- item are over it and those before it.
def Source.Opens (schema : Schema) (around : List Visible) (seen own : Visible) :
    List Source → Prop
  | [] => own = seen
  | .mk table qualifier _ on :: rest => ∃ columns, schema table columns ∧
      Expr.AllScopedIn schema ((seen ++ [(qualifier, columns)]) :: around) on ∧
      Source.Opens schema around (seen ++ [(qualifier, columns)]) own rest

def Select.ScopedIn (schema : Schema) (around : List Visible) : Select → Prop
  | .mk _ projection sources conditions => ∃ own, Source.Opens schema around [] own sources ∧
      Expr.AllScopedIn schema (own :: around) projection ∧
      Expr.AllScopedIn schema (own :: around) conditions

end

mutual

-- What the items of all FROM clauses inside an expression are called.
def Expr.aliases : Expr → List String
  | .binary _ left right => left.aliases ++ right.aliases
  | .call _ args => Expr.allAliases args
  | .cast e _ => e.aliases
  | .concat parts => Expr.allAliases parts
  | .nullCase e onNull otherwise => e.aliases ++ onNull.aliases ++ otherwise.aliases
  | .exists _ query => query.aliases
  | .column _ _ | .integer _ | .text _ | .null | .typedNull _ | .param _ => []

def Expr.allAliases : List Expr → List String
  | [] => []
  | e :: rest => e.aliases ++ Expr.allAliases rest

def Source.aliases : List Source → List String
  | [] => []
  | .mk _ qualifier _ on :: rest => qualifier :: (Expr.allAliases on ++ Source.aliases rest)

def Select.aliases : Select → List String
  | .mk _ projection sources conditions =>
    Source.aliases sources ++ Expr.allAliases projection ++ Expr.allAliases conditions

end

namespace Query

def arms (q : Query) : List Select := q.selects ++ q.except.toList

def aliases (q : Query) : List String := q.arms.flatMap Select.aliases

-- Each arm is in scope by itself and has the width.
def IsScoped (schema : Schema) (width : Nat) (q : Query) : Prop :=
  ∀ s ∈ q.arms, s.ScopedIn schema [] ∧ s.projection.length = width

end Query

namespace InsertSource

def aliases : InsertSource → List String
  | values es => Expr.allAliases es
  | query q => q.aliases

def IsScoped (schema : Schema) (width : Nat) : InsertSource → Prop
  | values es => Expr.AllScopedIn schema [] es ∧ es.length = width
  | query q => q.IsScoped schema width

end InsertSource

namespace Statement

def aliases : Statement → List String
  | createTable _ _ => []
  | createView _ _ query => query.aliases
  | insert _ _ source => source.aliases
  | delete _ conditions => Expr.allAliases conditions

def IsScoped (schema : Schema) : Statement → Prop
  | createTable _ _ => True
  | createView _ columns query => query.IsScoped schema columns.length
  | insert _ columns source => source.IsScoped schema columns.length
  | delete table conditions => ∃ columns, schema table columns ∧
      Expr.AllScopedIn schema [[(table, columns)]] conditions

end Statement

section Names

variable {schema : Schema} {around : List Visible} {v seen own : Visible}

@[simp] theorem Expr.allScopedIn_iff {es : List Expr} :
    Expr.AllScopedIn schema around es ↔ ∀ e ∈ es, e.ScopedIn schema around := by
  induction es with
  | nil => simp [Expr.AllScopedIn]
  | cons e rest ih => simp [Expr.AllScopedIn, ih]

@[simp] theorem Expr.allAliases_eq_flatMap (es : List Expr) :
    Expr.allAliases es = es.flatMap Expr.aliases := by
  induction es with
  | nil => simp [Expr.allAliases]
  | cons e rest ih => simp [Expr.allAliases, ih]

mutual

theorem Expr.scopedIn_within (shown : v.Shown around) :
    (e : Expr) → e.Within v → e.ScopedIn schema around
  | .column qualifier name, within => shown qualifier name within
  | .binary _ left right, ⟨inLeft, inRight⟩ =>
    ⟨Expr.scopedIn_within shown left inLeft, Expr.scopedIn_within shown right inRight⟩
  | .call _ args, within => Expr.allScopedIn_within shown args within
  | .cast e _, within => Expr.scopedIn_within shown e within
  | .concat parts, within => Expr.allScopedIn_within shown parts within
  | .nullCase e onNull otherwise, ⟨tested, inNull, inOther⟩ =>
    ⟨Expr.scopedIn_within shown e tested, Expr.scopedIn_within shown onNull inNull,
      Expr.scopedIn_within shown otherwise inOther⟩
  | .integer _, _ | .text _, _ | .null, _ | .typedNull _, _ | .param _, _ => trivial

theorem Expr.allScopedIn_within (shown : v.Shown around) :
    (es : List Expr) → Expr.AllWithin v es → Expr.AllScopedIn schema around es
  | [], _ => trivial
  | e :: rest, ⟨first, others⟩ =>
    ⟨Expr.scopedIn_within shown e first, Expr.allScopedIn_within shown rest others⟩

end

mutual

theorem Expr.aliases_within : (e : Expr) → e.Within v → e.aliases = []
  | .column _ _, _ => by simp only [Expr.aliases]
  | .binary _ left right, ⟨inLeft, inRight⟩ => by
    simp only [Expr.aliases, Expr.aliases_within left inLeft, Expr.aliases_within right inRight,
      List.append_nil]
  | .call _ args, within => by simp only [Expr.aliases, Expr.allAliases_within args within]
  | .cast e _, within => by
    have none := Expr.aliases_within e within
    simp only [Expr.aliases, none]
  | .concat parts, within => by simp only [Expr.aliases, Expr.allAliases_within parts within]
  | .nullCase e onNull otherwise, ⟨tested, inNull, inOther⟩ => by
    simp only [Expr.aliases, Expr.aliases_within e tested, Expr.aliases_within onNull inNull,
      Expr.aliases_within otherwise inOther, List.append_nil]
  | .integer _, _ | .text _, _ | .null, _ | .typedNull _, _ | .param _, _ => by
    simp only [Expr.aliases]

theorem Expr.allAliases_within : (es : List Expr) → Expr.AllWithin v es → Expr.allAliases es = []
  | [], _ => by simp only [Expr.allAliases]
  | e :: rest, ⟨first, others⟩ => by
    simp only [Expr.allAliases, Expr.aliases_within e first, Expr.allAliases_within rest others,
      List.append_nil]

end

namespace Source

variable {sources more : List Source}

theorem opens_append : Opens schema around seen own (sources ++ more) ↔
    ∃ between, Opens schema around seen between sources ∧ Opens schema around between own more := by
  induction sources generalizing seen with
  | nil => simp [Opens]
  | cons s rest ih =>
    obtain ⟨table, qualifier, outer, on⟩ := s
    simp only [List.cons_append, Opens, ih]
    constructor
    · rintro ⟨columns, stored, reads, between, first, later⟩
      exact ⟨between, ⟨columns, stored, reads, first⟩, later⟩
    · rintro ⟨between, ⟨columns, stored, reads, first⟩, later⟩
      exact ⟨columns, stored, reads, between, first, later⟩

theorem aliases_append : aliases (sources ++ more) = aliases sources ++ aliases more := by
  induction sources with
  | nil => simp [aliases]
  | cons s rest ih =>
    obtain ⟨table, qualifier, outer, on⟩ := s
    simp [aliases, ih]

end Source

end Names

end Sql

namespace Catalog

-- The tables of the relations in a catalog.
def schema (catalog : Catalog) : Sql.Schema := fun table columns =>
  ∃ r kind, catalog.relations.get? r.name = some r ∧ table = r.tableName kind ∧
    columns = Lowering.columnNames r kind

theorem IsNamed.schema {catalog : Catalog} {name : String} {r : Relation} (named : catalog.IsNamed)
    (known : catalog.relations.get? name = some r) (kind : TableKind) :
    catalog.schema (r.tableName kind) (Lowering.columnNames r kind) :=
  ⟨r, kind, (named name r known).symm ▸ known, rfl, rfl⟩

end Catalog

namespace Lowering

open Sql (Expr Query Select Source Statement Visible)

variable {ctx : Context} {guard : Option Guard} {around : List Visible} {v outer own : Visible}
  {start position : Nat} {s s' : Scope} {a head : Atom} {body : List Atom} {r : Relation}

def aliasNames (start count : Nat) : List String := (List.range' start count).map aliasName

theorem aliasNames_add (start m n : Nat) :
    aliasNames start m ++ aliasNames (start + m) n = aliasNames start (m + n) := by
  rw [aliasNames, aliasNames, ← List.map_append, List.range'_append_1, aliasNames]

theorem nodup_aliasNames (start count : Nat) : (aliasNames start count).Nodup :=
  List.Nodup.map (fun _ _ same => aliasName_injective same) List.nodup_range'

section Joins

-- A SELECT while it is built, with `own` visible from its items and `outer` from around it.
structure Opened (ctx : Context) (around : List Visible) (outer own : Visible) (start count : Nat)
    (s : Scope) : Prop where
  sources : Source.Opens ctx.catalog.schema around [] own s.sources
  names : Source.aliases s.sources = aliasNames start count
  aliases : s.aliases = start + count
  bindings : AllWithin (own ++ outer) s.bindings
  conditions : ∀ e ∈ s.conditions, e.Within (own ++ outer)
  pending : ∀ p ∈ s.pending, p.column.Within (own ++ outer)

theorem opened_nil {bindings : Bindings} (all : AllWithin outer bindings) :
    Opened ctx around outer [] start 0 { bindings := bindings, aliases := start } where
  sources := by simp only [Source.Opens]
  names := by simp only [Source.aliases, aliasNames, List.range'_zero, List.map_nil]
  aliases := rfl
  bindings := all
  conditions := List.forall_mem_nil _
  pending := List.forall_mem_nil _

theorem optionalPlaces_within {bindings bindings' : Bindings} {ps : List Place} {es : List Expr}
    (all : AllWithin v bindings) (columns : ∀ p ∈ ps, p.column.Within v)
    (ran : optionalPlaces ctx bindings ps = .ok (bindings', es)) :
    AllWithin v bindings' ∧ ∀ e ∈ es, e.Within v := by
  induction ps generalizing bindings es with
  | nil =>
    cases ran
    exact ⟨all, List.forall_mem_nil _⟩
  | cons p rest ih =>
    obtain ⟨column, columns⟩ := List.forall_mem_cons.mp columns
    have bound := (bindPlaces_within all (List.forall_mem_singleton.mpr column)).1
    unfold optionalPlaces at ran
    split at ran
    · rename_i between placed
      rw [placed] at bound
      exact ih bound columns ran
    · rename_i between _ placed
      rw [placed] at bound
      obtain ⟨here, first, ran⟩ := Compiled.bind_ok.mp ran
      obtain ⟨⟨last, others⟩, later, ran⟩ := Compiled.bind_ok.mp ran
      cases ran
      obtain ⟨grown, inside⟩ := ih bound columns later
      exact ⟨grown, List.forall_mem_append.mpr ⟨conditions_within bound column first, inside⟩⟩

theorem Opened.item {count : Nat} {table : String} {columns : List String} {isOuter : Bool}
    {on : List Expr} (shown : outer.Shown around) (opened : Opened ctx around outer own start count s)
    (stored : ctx.catalog.schema table columns)
    (reads : ∀ e ∈ on, e.Within (own ++ [(aliasName s.aliases, columns)] ++ outer)) :
    Source.Opens ctx.catalog.schema around [] (own ++ [(aliasName s.aliases, columns)])
        (s.sources ++ [.mk table (aliasName s.aliases) isOuter on]) ∧
      Source.aliases (s.sources ++ [.mk table (aliasName s.aliases) isOuter on]) =
        aliasNames start (count + 1) := by
  refine ⟨Source.opens_append.mpr ⟨own, opened.sources, ?_⟩, ?_⟩
  · simp only [Source.Opens, Expr.allScopedIn_iff]
    exact ⟨columns, stored,
      fun e inside => Expr.scopedIn_within (Visible.shown_append shown) e (reads e inside), rfl⟩
  · have none := Expr.allAliases_within on (Expr.allWithin_iff.mpr reads)
    rw [Source.aliases_append, opened.names, ← aliasNames_add, opened.aliases]
    simp only [Source.aliases, none, List.append_nil, aliasNames, List.range'_one, List.map_singleton]

theorem Opened.joinAtom {count : Nat} (named : ctx.catalog.IsNamed) (shown : outer.Shown around)
    (opened : Opened ctx around outer own start count s)
    (ran : joinAtom ctx guard s position a = .ok s') :
    ∃ own', Opened ctx around outer own' start (count + 1) s' := by
  unfold Lowering.joinAtom at ran
  split at ran
  · cases ran
  obtain ⟨r, found, ran⟩ := Compiled.bind_ok.mp ran
  obtain ⟨guarded, guards, ran⟩ := Compiled.bind_ok.mp ran
  dsimp only at ran
  let own' : Visible := own ++ [(aliasName s.aliases, columnNames r a.kind)]
  have seen : ∀ column ∈ columnNames r a.kind,
      (own' ++ outer).lists (aliasName s.aliases) column = true := fun column listed => by
    refine covers_left _ _ (covers_right _ _ ?_)
    exact Visible.lists_iff.mpr ⟨_, List.mem_singleton_self _, listed⟩
  have wider : (own' ++ outer).Covers (own ++ outer) := by
    intro qualifier column present
    rw [Visible.lists_append, Bool.or_eq_true] at present
    rcases present with here | there
    · exact covers_left _ _ (covers_left _ _ here)
    · exact covers_right _ _ there
  have stored := named.schema (relationOf_ok found).1 a.kind
  have columns : ∀ p ∈ placesOf r (aliasName s.aliases) a.args, p.column.Within (own' ++ outer) :=
    placesOf_within a.kind seen
  have bindings := opened.bindings.mono wider
  have guards : ∀ e ∈ guarded, e.Within (own' ++ outer) := guardConditions_within
    (fun stratified => seen _ (List.mem_map_of_mem (Relation.stratum_mem_physicalColumns stratified)))
    guards
  have conditions := List.forall_mem_append.mpr
    ⟨fun e inside => Expr.within_mono wider e (opened.conditions e inside), guards⟩
  have pending := fun p inside => Binding.within_mono wider (opened.pending p inside)
  have number := congrArg (· + 1) opened.aliases
  split at ran
  · obtain ⟨⟨last, on⟩, settled, ran⟩ := Compiled.bind_ok.mp ran
    cases ran
    obtain ⟨grown, reads⟩ := optionalPlaces_within bindings columns settled
    obtain ⟨sources, names⟩ := opened.item shown stored reads
    exact ⟨own', sources, names, number, grown, conditions, pending⟩
  · cases ran
    obtain ⟨grown, left⟩ := bindPlaces_within bindings columns
    obtain ⟨sources, names⟩ := opened.item shown stored (List.forall_mem_nil _)
    exact ⟨own', sources, names, number, grown, conditions, List.forall_mem_append.mpr ⟨pending, left⟩⟩

theorem Opened.joinAtoms {count : Nat} (named : ctx.catalog.IsNamed) (shown : outer.Shown around)
    (opened : Opened ctx around outer own start count s)
    (ran : joinAtoms ctx guard s position body = .ok s') :
    ∃ own' count', Opened ctx around outer own' start count' s' := by
  induction body generalizing s position own count with
  | nil =>
    cases ran
    exact ⟨own, count, opened⟩
  | cons a rest ih =>
    unfold Lowering.joinAtoms at ran
    split at ran
    · obtain ⟨middle, here, ran⟩ := Compiled.bind_ok.mp ran
      obtain ⟨own', opened'⟩ := opened.joinAtom named shown here
      exact ih opened' ran
    · exact ih opened ran

end Joins

section Bodies

variable {bindings : Bindings} {aliases aliases' : Nat} {es : List Expr} {q : Select}

theorem negatedSelect_scoped (named : ctx.catalog.IsNamed) (all : AllWithin v bindings)
    (shown : v.Shown around) (lowered : negatedSelect ctx bindings aliases a = .ok q) :
    q.ScopedIn ctx.catalog.schema around ∧ q.aliases = aliasNames aliases 1 := by
  obtain ⟨inner, joined, lowered⟩ := Compiled.bind_ok.mp lowered
  obtain ⟨es, each, lowered⟩ := Compiled.bind_ok.mp lowered
  cases lowered
  obtain ⟨own, opened⟩ := (opened_nil all).joinAtom named shown joined
  have inside := allConditions_within opened.bindings opened.pending each
  have none := Expr.allAliases_within es (Expr.allWithin_iff.mpr inside)
  refine ⟨?_, ?_⟩
  · simp only [Select.ScopedIn, Expr.allScopedIn_iff]
    exact ⟨own, opened.sources, List.forall_mem_nil _,
      fun e listed => Expr.scopedIn_within (Visible.shown_append shown) e (inside e listed)⟩
  · simp only [Select.aliases, opened.names, none, Expr.allAliases, List.append_nil]

theorem negatedConditions_scoped {atoms : List Atom} (named : ctx.catalog.IsNamed)
    (all : AllWithin v bindings) (shown : v.Shown around)
    (lowered : negatedConditions ctx bindings aliases atoms = .ok (es, aliases')) :
    (∀ e ∈ es, e.ScopedIn ctx.catalog.schema around) ∧ ∃ count, aliases' = aliases + count ∧
      Expr.allAliases es = aliasNames aliases count := by
  induction atoms generalizing es aliases with
  | nil =>
    cases lowered
    exact ⟨List.forall_mem_nil _, 0, rfl, by simp only [Expr.allAliases]; rfl⟩
  | cons a rest ih =>
    unfold negatedConditions at lowered
    split at lowered
    · cases lowered
    · obtain ⟨q, here, lowered⟩ := Compiled.bind_ok.mp lowered
      obtain ⟨⟨others, after⟩, later, lowered⟩ := Compiled.bind_ok.mp lowered
      cases lowered
      obtain ⟨own, names⟩ := negatedSelect_scoped named all shown here
      obtain ⟨each, count, rfl, more⟩ := ih later
      refine ⟨List.forall_mem_cons.mpr ⟨own, each⟩, 1 + count, Nat.add_assoc .., ?_⟩
      simp only [Expr.allAliases, Expr.aliases, names, more]
      exact aliasNames_add aliases 1 count

-- A lowered body, to which a statement adds what is over its items alone.
structure Scoped (ctx : Context) (around : List Visible) (own : Visible) (s : Scope) : Prop where
  sources : Source.Opens ctx.catalog.schema around [] own s.sources
  bindings : AllWithin own s.bindings
  conditions : ∀ e ∈ s.conditions, e.ScopedIn ctx.catalog.schema (own :: around)
  names : Source.aliases s.sources ++ Expr.allAliases s.conditions = aliasNames 0 s.aliases

-- The items of a lowered body are those of its joined atoms, and its conditions are over their
-- columns, but for the subqueries of its negated atoms.
theorem lowerBody_opened (named : ctx.catalog.IsNamed) (around : List Visible)
    (ran : lowerBody ctx guard body = .ok s) :
    ∃ own count joined plain subqueries,
      joinAtoms ctx guard { bindings := .empty, aliases := 0 } 0 body = .ok joined ∧
      Opened ctx around [] own 0 count joined ∧ AllWithin own s.bindings ∧
      (∀ e ∈ plain, e.Within own) ∧
      negatedConditions ctx s.bindings joined.aliases (body.filter (·.negated)) =
        .ok (subqueries, s.aliases) ∧
      s.sources = joined.sources ∧ s.conditions = plain ++ subqueries := by
  obtain ⟨joinScope, joined, ran⟩ := Compiled.bind_ok.mp ran
  obtain ⟨⟨bindings, conditions⟩, settled, ran⟩ := Compiled.bind_ok.mp ran
  obtain ⟨joins, compared, ran⟩ := Compiled.bind_ok.mp ran
  obtain ⟨⟨negations, aliases⟩, negated, ran⟩ := Compiled.bind_ok.mp ran
  cases ran
  obtain ⟨own, count, opened⟩ : ∃ own count, Opened ctx around [] own 0 count joinScope :=
    (opened_nil allWithin_empty).joinAtoms named Visible.shown_nil joined
  have bound := opened.bindings
  have before := opened.conditions
  have pending := opened.pending
  rw [List.append_nil] at bound before pending
  obtain ⟨added, rfl, settles⟩ := builtinPasses_settle (v := own) (named_keys joinScope.bindings) settled
  have all := settles.bound bound
  have within : ∀ e ∈ joinScope.conditions ++ added ++ joins, e.Within own :=
    List.forall_mem_append.mpr ⟨List.forall_mem_append.mpr ⟨before, settles.within bound⟩,
      allConditions_within all pending compared⟩
  exact ⟨own, count, joinScope, _, negations, joined, opened, all, within, negated, rfl, rfl⟩

theorem lowerBody_scoped (named : ctx.catalog.IsNamed) (around : List Visible)
    (ran : lowerBody ctx guard body = .ok s) : ∃ own, Scoped ctx around own s := by
  obtain ⟨own, count, joined, plain, subqueries, -, opened, all, within, negated, sources, conditions⟩ :=
    lowerBody_opened named around ran
  obtain ⟨each, more, number, others⟩ :=
    negatedConditions_scoped named all (Visible.shown_cons : Visible.Shown own (own :: around)) negated
  refine ⟨own, sources ▸ opened.sources, all, ?_, ?_⟩
  · rw [conditions]
    exact List.forall_mem_append.mpr
      ⟨fun e inside => Expr.scopedIn_within Visible.shown_cons e (within e inside), each⟩
  · have none := Expr.allAliases_within _ (Expr.allWithin_iff.mpr within)
    rw [Expr.allAliases_eq_flatMap] at none others ⊢
    rw [sources, conditions, List.flatMap_append, none, List.nil_append, others, opened.names, number,
      opened.aliases, aliasNames_add, Nat.zero_add]

end Bodies

section Statements

variable {projection : List Expr} {setSemantics : Bool} {statement : Statement}

theorem length_project (arity : head.args.length = r.arity) {bindings : Bindings}
    (lowered : project ctx r head bindings = .ok projection) :
    projection.length = (columnNames r head.kind).length := by
  have same := congrArg List.length (@eval_project ctx ⟨.empty, 0⟩ [] bindings r head _ rfl lowered)
  rw [List.length_map, length_writtenRow arity] at same
  rw [same, columnNames, List.length_map]

theorem Scoped.select (body : Scoped ctx [] own s) (arity : head.args.length = r.arity)
    (projected : project ctx r head s.bindings = .ok projection) :
    (selection ctx s projection).ScopedIn ctx.catalog.schema [] ∧
      projection.length = (columnNames r head.kind).length ∧
      (selection ctx s projection).aliases = aliasNames 0 s.aliases := by
  have within := project_within body.bindings (show fitsWord 0 = true from rfl) projected
  have none := Expr.allAliases_within projection (Expr.allWithin_iff.mpr within)
  refine ⟨?_, length_project arity projected, ?_⟩
  · simp only [selection, Select.ScopedIn, Expr.allScopedIn_iff]
    exact ⟨own, body.sources, fun e inside => Expr.scopedIn_within Visible.shown_cons e (within e inside),
      body.conditions⟩
  · simp only [selection, Select.aliases, none, List.append_nil, body.names]

theorem storedRows_scoped (named : ctx.catalog.IsNamed)
    (known : ctx.catalog.relations.get? head.relationName = some r) (qualifier : String) :
    (storedRows r head.kind qualifier).ScopedIn ctx.catalog.schema [] ∧
      (storedRows r head.kind qualifier).aliases = [qualifier] := by
  have shown : Visible.Shown [(qualifier, columnNames r head.kind)]
      [[(qualifier, columnNames r head.kind)]] := Visible.shown_cons
  have within : ∀ e ∈ (columnNames r head.kind).map (Expr.column qualifier),
      e.Within [(qualifier, columnNames r head.kind)] := List.forall_mem_map.mpr fun column listed =>
    Visible.lists_iff.mpr ⟨_, List.mem_singleton_self _, listed⟩
  have none := Expr.allAliases_within _ (Expr.allWithin_iff.mpr within)
  constructor
  · simp only [storedRows, Source.joined, Select.ScopedIn, Source.Opens, Expr.allScopedIn_iff]
    exact ⟨_, ⟨_, named.schema known head.kind, List.forall_mem_nil _, rfl⟩,
      fun e inside => Expr.scopedIn_within shown e (within e inside), List.forall_mem_nil _⟩
  · simp only [storedRows, Source.joined, Select.aliases, Source.aliases, none, Expr.allAliases,
      List.append_nil]

-- The arms of an insertion go by different names: the stored rows by the first that the body left.
theorem Scoped.query (named : ctx.catalog.IsNamed)
    (known : ctx.catalog.relations.get? head.relationName = some r) (body : Scoped ctx [] own s)
    (arity : head.args.length = r.arity) (projected : project ctx r head s.bindings = .ok projection)
    (withExcept : Bool) : (insertionQuery ctx r head s projection withExcept).aliases.Nodup ∧
      (insertionQuery ctx r head s projection withExcept).IsScoped ctx.catalog.schema
        (columnNames r head.kind).length := by
  obtain ⟨select, width, names⟩ := body.select arity projected
  cases withExcept with
  | false =>
    have all : (insertionQuery ctx r head s projection false).aliases = aliasNames 0 s.aliases := by
      simp [Query.aliases, Query.arms, insertionQuery, names]
    exact ⟨all ▸ nodup_aliasNames .., List.forall_mem_singleton.mpr ⟨select, width⟩⟩
  | true =>
    obtain ⟨rows, one⟩ := storedRows_scoped named known (aliasName s.aliases)
    have all : (insertionQuery ctx r head s projection true).aliases = aliasNames 0 (s.aliases + 1) := by
      rw [← aliasNames_add, Nat.zero_add]
      simp [Query.aliases, Query.arms, insertionQuery, names, one, aliasNames]
    refine ⟨all ▸ nodup_aliasNames .., List.forall_mem_cons.mpr ⟨⟨select, width⟩, ?_⟩⟩
    exact List.forall_mem_singleton.mpr ⟨rows, List.length_map _⟩

theorem lowerInsert_scoped (named : ctx.catalog.IsNamed)
    (known : ctx.catalog.relations.get? head.relationName = some r)
    (arity : head.args.length = r.arity)
    (lowered : lowerInsert ctx head r setSemantics = .ok statement) :
    statement.aliases.Nodup ∧ statement.IsScoped ctx.catalog.schema := by
  by_cases joined : ctx.rule.body = []
  · -- A fact reads no columns.
    have fact : ctx.rule.isFact = true := List.isEmpty_iff.mpr joined
    rw [lowerInsert, if_pos fact] at lowered
    obtain ⟨values, projected, lowered⟩ := Compiled.bind_ok.mp lowered
    cases lowered
    have within : Expr.AllWithin [] values := Expr.allWithin_iff.mpr
      (project_within allWithin_empty (show fitsWord 0 = true from rfl) projected)
    refine ⟨?_, Expr.allScopedIn_within Visible.shown_nil values within,
      length_project arity projected⟩
    rw [Statement.aliases, Sql.InsertSource.aliases, Expr.allAliases_within values within]
    exact .nil
  · obtain ⟨sc, projection, bodied, projected, rfl⟩ := lowerInsert_ok joined lowered
    obtain ⟨own, body⟩ := lowerBody_scoped named [] bodied
    exact body.query named known arity projected _

theorem keyConditions_within {table : String} {positions : List Nat} {es : List Expr}
    (seen : ∀ column ∈ columnNames r head.kind, v.lists table column = true)
    (lowered : keyConditions ctx table r head positions = .ok es) : ∀ e ∈ es, e.Within v := by
  induction positions generalizing es with
  | nil =>
    cases lowered
    exact List.forall_mem_nil _
  | cons position rest ih =>
    unfold keyConditions at lowered
    split at lowered
    · rename_i arg column _ listed
      obtain ⟨b, found, lowered⟩ := Compiled.bind_ok.mp lowered
      obtain ⟨others, later, lowered⟩ := Compiled.bind_ok.mp lowered
      cases lowered
      have stored := @Relation.mem_physicalColumns r head.kind _ (List.mem_of_getElem? listed)
      refine List.forall_mem_cons.mpr ⟨⟨seen _ (List.mem_map_of_mem stored.1), ?_⟩, ih later⟩
      exact (within_of_value allWithin_empty found).1
    · cases lowered

theorem lowerDelete_scoped (named : ctx.catalog.IsNamed)
    (known : ctx.catalog.relations.get? head.relationName = some r)
    (lowered : lowerDelete ctx head r = .ok statement) :
    statement.aliases.Nodup ∧ statement.IsScoped ctx.catalog.schema := by
  let target : Visible := [(r.tableName head.kind, columnNames r head.kind)]
  have stored := named.schema known head.kind
  have seen : ∀ column ∈ columnNames r head.kind, target.lists (r.tableName head.kind) column = true :=
    fun column listed => Visible.lists_iff.mpr ⟨_, List.mem_singleton_self _, listed⟩
  by_cases joined : ctx.rule.body = []
  · have fact : ctx.rule.isFact = true := List.isEmpty_iff.mpr joined
    unfold lowerDelete at lowered
    dsimp only at lowered
    rw [if_pos fact] at lowered
    split at lowered
    · cases lowered
    · obtain ⟨conditions, keyed, lowered⟩ := Compiled.bind_ok.mp lowered
      cases lowered
      have within := Expr.allWithin_iff.mpr (keyConditions_within seen keyed)
      refine ⟨?_, _, stored, Expr.allScopedIn_within Visible.shown_cons conditions within⟩
      rw [Statement.aliases, Expr.allAliases_within conditions within]
      exact .nil
  · obtain ⟨sc, correlated, bodied, compared, rfl⟩ := lowerDelete_ok joined lowered
    obtain ⟨own, body⟩ := lowerBody_scoped named [target] bodied
    have within : ∀ e ∈ correlated, e.Within (own ++ target) := by
      have column {place : Term × Column} (inside : place ∈ head.args.zip r.columns) :=
        @Relation.mem_physicalColumns r head.kind _ (List.of_mem_zip inside).2
      refine correlate_within (body.bindings.mono covers_left) (fun place inside marker marked => ?_)
        (fun place inside => ?_) compared
      · exact covers_right _ _ (seen _ (List.mem_map_of_mem ((column inside).2 marker marked)))
      · exact covers_right _ _ (seen _ (List.mem_map_of_mem (column inside).1))
    have around : Visible.Shown (own ++ target) [own, target] :=
      Visible.shown_append Visible.shown_cons
    have none := Expr.allAliases_within correlated (Expr.allWithin_iff.mpr within)
    have names : (deletion (r.tableName head.kind) sc correlated).aliases = aliasNames 0 sc.aliases := by
      rw [← body.names, deletion]
      rw [Expr.allAliases_eq_flatMap] at none
      simp [Statement.aliases, Expr.aliases, Select.aliases, none]
    refine ⟨names ▸ nodup_aliasNames .., _, stored, ?_, trivial⟩
    refine ⟨own, body.sources, trivial, Expr.allScopedIn_iff.mpr ?_⟩
    exact List.forall_mem_append.mpr
      ⟨body.conditions, fun e inside => Expr.scopedIn_within around e (within e inside)⟩

theorem lowerView_scoped (named : ctx.catalog.IsNamed)
    (known : ctx.catalog.relations.get? head.relationName = some r)
    (arity : head.args.length = r.arity) (base : head.kind = .base)
    (lowered : lowerView ctx head r = .ok statement) :
    statement.aliases.Nodup ∧ statement.IsScoped ctx.catalog.schema := by
  obtain ⟨sc, bodied, lowered⟩ := Compiled.bind_ok.mp lowered
  obtain ⟨projection, projected, lowered⟩ := Compiled.bind_ok.mp lowered
  cases lowered
  obtain ⟨own, body⟩ := lowerBody_scoped named [] bodied
  rw [← base]
  exact body.query named known arity projected false

end Statements

end Lowering

open Lowering in
theorem Rule.lower_scoped {catalog : Catalog} {config : Config} {iteration : Iteration} {r : Rule}
    {statements : List Sql.Statement} (named : catalog.IsNamed)
    (based : r.action = .view → ∀ head ∈ r.head, head.kind = .base)
    (lowered : r.lower catalog config iteration = .ok statements) :
    ∀ s ∈ statements, s.aliases.Nodup ∧ s.IsScoped catalog.schema := by
  have lowered := lower_ok lowered
  unfold lowerRule at lowered
  split at lowered
  · rename_i head heads
    obtain ⟨relation, found, lowered⟩ := Compiled.bind_ok.mp lowered
    obtain ⟨known, arity⟩ := relationOf_ok found
    split at lowered
    · obtain ⟨s, inserted, lowered⟩ := Compiled.bind_ok.mp lowered
      cases lowered
      exact List.forall_mem_singleton.mpr (lowerInsert_scoped named known arity inserted)
    · obtain ⟨s, deleted, lowered⟩ := Compiled.bind_ok.mp lowered
      cases lowered
      exact List.forall_mem_singleton.mpr (lowerDelete_scoped named known deleted)
    · rename_i views
      obtain ⟨s, viewed, lowered⟩ := Compiled.bind_ok.mp lowered
      cases lowered
      have base := based views head (heads ▸ List.mem_singleton_self _)
      exact List.forall_mem_singleton.mpr (lowerView_scoped named known arity base viewed)
    · obtain ⟨s, inserted, lowered⟩ := Compiled.bind_ok.mp lowered
      cases lowered
      refine List.forall_mem_cons.mpr ⟨⟨List.nodup_nil, _, named.schema known head.kind, trivial⟩, ?_⟩
      exact List.forall_mem_singleton.mpr (lowerInsert_scoped named known arity inserted)
  · cases lowered

-- A guarded and an outer joined atom, with a subquery and an EXCEPT.
def layeredRule : Rule :=
  { Rule.ofHead "m" (.ofRelation "T" [.var "x", .skolem "f" [.var "y"]])
      [(Atom.ofRelation "R" [.var "x", .var "y"]).withKind .insertion,
        { Atom.ofRelation "S" [.var "x", .var "y"] with optional := true },
        (Atom.ofRelation "S" [.var "x", .var "y"]).negate] with
    guard := some ⟨0, -1⟩ }

def layeredRelation (name : String) : Relation where
  name := name
  columns := [⟨"a", .integer, false⟩, ⟨"b", .text, true⟩]
  labeledNulls := true
  stratified := name = "R"

def layeredCatalog : Catalog :=
  { relations := .ofList (["R", "S", "T"].map fun name => (name, layeredRelation name)) }

theorem lower_scoped_layered : layeredCatalog.IsNamed ∧
    (layeredRule.action = .view → ∀ head ∈ layeredRule.head, head.kind = .base) ∧
    ∃ statement, layeredRule.lower layeredCatalog {} .prepared = .ok [statement] ∧
      statement.aliases = ["R0", "R1", "R2", "R3"] ∧ statement.aliases.Nodup ∧
      statement.IsScoped layeredCatalog.schema := by
  have named : layeredCatalog.IsNamed := Catalog.isNamed_of_entries (by decide)
  have based : layeredRule.action = .view → ∀ head ∈ layeredRule.head, head.kind = .base := nofun
  obtain ⟨statement, lowered, names⟩ : ∃ statement,
      layeredRule.lower layeredCatalog {} .prepared = .ok [statement] ∧
        statement.aliases = ["R0", "R1", "R2", "R3"] := ⟨_, rfl, rfl⟩
  obtain ⟨distinct, inScope⟩ := Rule.lower_scoped named based lowered _ List.mem_cons_self
  exact ⟨named, based, statement, lowered, names, distinct, inScope⟩

end PeerExchange
