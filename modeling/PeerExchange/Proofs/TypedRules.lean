import PeerExchange.Proofs.SafeMappings

namespace PeerExchange

abbrev Typing := Valuation ColumnType

def Term.HasType (stated : Literal → Prop) (types : Typing) : Term → ColumnType → Prop
  | .variable v, type => types v.name = type
  | .constant _ value, type => (∀ own, value.type? = some own → own = type) ∧ stated value
  | .skolem _ _, _ => True

abbrev Typing.Fit (types : Typing) (stated : Literal → Prop) : List Term → List Column → Prop :=
  List.Forall₂ fun t c => t.HasType stated types c.type

def Atom.Computes (a : Atom) : Prop := ∃ op, a.builtin? = some op ∧ (op = .eq ∨ op.isFunction = true)

structure Atom.IsTyped (stated : Literal → Prop) (catalog : Catalog) (types : Typing) (a : Atom) :
    Prop where
  stored : ∀ name, a.relation? = some name → ∃ r, catalog.relations.get? name = some r ∧
    types.Fit stated a.args r.columns
  computed : a.Computes → ∃ type, ∀ t ∈ a.args, t.HasType stated types type

def Rule.IsTyped (stated : Literal → Prop) (catalog : Catalog) (r : Rule) : Prop :=
  ∃ types, ∀ a ∈ r.head ++ r.body, a.IsTyped stated catalog types

def Catalog.KeepsColumns (catalog catalog' : Catalog) : Prop :=
  ∀ name r, catalog.relations.get? name = some r →
    ∃ r', catalog'.relations.get? name = some r' ∧ r'.columns = r.columns

theorem Catalog.Within.keepsColumns {catalog catalog' : Catalog} (within : catalog.Within catalog') :
    catalog.KeepsColumns catalog' := fun name r found => ⟨r, within name r found, rfl⟩

variable {stated : Literal → Prop} {types types' : Typing} {catalog : Catalog}

namespace Term

variable {t : Term} {type : ColumnType}

theorem HasType.congr (typed : t.HasType stated types type) (agree : ∀ v ∈ t.vars, types' v.name = types v.name) :
    t.HasType stated types' type := by
  cases t with
  | «variable» v => exact (agree v (List.mem_singleton_self v)).trans typed
  | constant own value => exact typed
  | skolem function args => trivial

theorem HasType.substitute {σ : Substitution} (typed : t.HasType stated types type)
    (images : ∀ name image, σ.get? name = some image → image.HasType stated types (types name)) :
    (t.substitute σ).HasType stated types type := by
  cases t with
  | «variable» v =>
    change ((σ.get? v.name).getD (.variable v)).HasType stated types type
    cases found : σ.get? v.name with
    | none => exact typed
    | some image =>
      have typed : types v.name = type := typed
      exact typed ▸ images v.name image found
  | constant own value => exact typed
  | skolem function args => trivial

theorem hasType_rename {f : String → String} :
    (t.rename f).HasType stated types type ↔ t.HasType stated (types ∘ f) type := by
  cases t <;> exact Iff.rfl

end Term

namespace Atom

variable {a : Atom}

theorem IsTyped.mapArgs {f : Term → Term} (typed : a.IsTyped stated catalog types)
    (kept : ∀ t ∈ a.args, ∀ type, t.HasType stated types type → (f t).HasType stated types' type) :
    (a.mapArgs f).IsTyped stated catalog types' where
  stored name named := by
    obtain ⟨r, found, each⟩ := typed.stored name named
    refine ⟨r, found, List.forall₂_map_left_iff.mpr (List.forall₂_iff_zip.mpr ⟨each.length_eq, ?_⟩)⟩
    exact fun inside => kept _ (List.of_mem_zip inside).1 _ ((List.forall₂_iff_zip.mp each).2 inside)
  computed computes := by
    obtain ⟨type, each⟩ := typed.computed computes
    exact ⟨type, List.forall_mem_map.mpr fun t arg => kept t arg type (each t arg)⟩

theorem IsTyped.congr (typed : a.IsTyped stated catalog types)
    (agree : ∀ name ∈ a.variableNames, types' name = types name) : a.IsTyped stated catalog types' := by
  have same : a.mapArgs id = a := by cases a; simp [Atom.mapArgs]
  rw [← same]
  exact typed.mapArgs fun t arg type typed => typed.congr fun v within =>
    agree v.name (mem_variableNames.mpr ⟨t, arg, v, within, rfl⟩)

theorem IsTyped.mono {catalog' : Catalog} (typed : a.IsTyped stated catalog types)
    (kept : catalog.KeepsColumns catalog') : a.IsTyped stated catalog' types where
  stored name named := by
    obtain ⟨r, found, each⟩ := typed.stored name named
    obtain ⟨r', found, columns⟩ := kept name r found
    exact ⟨r', found, columns ▸ each⟩
  computed := typed.computed

theorem IsTyped.same {b : Atom} (typed : a.IsTyped stated catalog types) (predicate : b.predicate = a.predicate)
    (args : b.args = a.args) : b.IsTyped stated catalog types where
  stored name named := by
    rw [args]
    exact typed.stored name (by rw [← named, relation?, relation?, predicate])
  computed := by
    rintro ⟨op, called, gives⟩
    rw [args]
    exact typed.computed ⟨op, by rw [← called, builtin?, builtin?, predicate], gives⟩

theorem isTyped_places {r : Relation} {name : String} {args : List Term}
    (found : catalog.relations.get? name = some r)
    (each : types.Fit stated args r.columns) :
    (ofRelation name args).IsTyped stated catalog types where
  stored other named := by
    obtain rfl := Option.some.inj named
    exact ⟨r, found, each⟩
  computed computes := by
    obtain ⟨op, called, -⟩ := computes
    cases called

end Atom

theorem Rule.IsTyped.mono {catalog' : Catalog} {r : Rule} (typed : r.IsTyped stated catalog)
    (kept : catalog.KeepsColumns catalog') : r.IsTyped stated catalog' := by
  obtain ⟨types, typed⟩ := typed
  exact ⟨types, fun a inside => (typed a inside).mono kept⟩

theorem exists_typing (letter : String) (columns : List Column) :
    ∃ types : Typing, types.Fit stated
      ((List.range columns.length).map fun i => Term.var (letter ++ toString i)) columns := by
  let values : Interpretation ColumnType := ⟨fun _ _ => .integer, fun _ _ => .integer, fun _ _ => True⟩
  obtain ⟨types, same⟩ := Maintenance.exists_valuation values letter (columns.map Column.type)
  rw [List.length_map, ← List.forall₂_eq_eq_eq, List.map_map, List.forall₂_map_left_iff,
    List.forall₂_map_right_iff] at same
  exact ⟨types, List.forall₂_map_left_iff.mpr same⟩

section Unfolding

namespace Matching

variable {m m' : Matching} {a b : Term} {as bs : List Term} {columns : List Column} {type : ColumnType}

-- Images have the types of their names, and both sides of an equation one type.
structure IsTyped (stated : Literal → Prop) (types : Typing) (m : Matching) : Prop where
  images : ∀ name image, m.sigma.get? name = some image → image.HasType stated types (types name)
  equations : ∀ pair ∈ m.equalities, ∃ type, pair.1.HasType stated types type ∧ pair.2.HasType stated types type

theorem IsTyped.assume (typed : m.IsTyped stated types) (left : a.HasType stated types type)
    (right : b.HasType stated types type) : (m.assume a b).IsTyped stated types where
  images := typed.images
  equations := List.forall_mem_append.mpr
    ⟨typed.equations, List.forall_mem_singleton.mpr ⟨type, left, right⟩⟩

theorem IsTyped.folds (typed : m.IsTyped stated types) (left : a.HasType stated types type)
    (right : b.HasType stated types type) (folds : Folds a m b m') : m'.IsTyped stated types := by
  cases folds with
  | @bind v new =>
    have right : types v.name = type := right
    refine ⟨fun name image found => ?_, typed.equations⟩
    rw [NameMap.get?_insert] at found
    split at found
    · rename_i same
      cases found
      rw [← same, right]
      exact left
    · exact typed.images name image found
  | again found same => exact typed
  | @equate v image found =>
    have right : types v.name = type := right
    exact typed.assume left (right ▸ typed.images v.name image found)
  | constant same => exact typed
  | fix same => exact typed.assume left right

theorem IsTyped.foldAll (flat : ∀ b ∈ bs, ¬ b.IsSkolem) (typed : m.IsTyped stated types)
    (left : types.Fit stated as columns) (right : types.Fit stated bs columns)
    (folded : foldAll as bs m = some m') : m'.IsTyped stated types := by
  induction left generalizing bs m with
  | nil =>
    cases right
    cases folded
    exact typed
  | @cons a c as columns here later ih =>
    cases right with
    | cons opposite others =>
      obtain ⟨flat, flatRest⟩ := List.forall_mem_cons.mp flat
      obtain ⟨middle, first, folded⟩ := Option.bind_eq_some_iff.mp folded
      exact ih flatRest (typed.folds here opposite (fold_folds flat first)) others folded

end Matching

namespace Rule

variable {r r' d : Rule} {definitions pending pending' : List Rule} {position n : Nat}
  {target head : Atom} {m : Matching} {fresh fresh' : FreshNames} {name : String}

theorem typed_through (found : r.body[position]? = some target) (reads : target.relation? = some name)
    (defined : d.IsDefinition) (headed : d.head = [head]) (folded : target.foldOnto? head = some m)
    (own : ∀ a ∈ r.head ++ r.body, a.IsTyped stated catalog types)
    (defines : ∀ a ∈ d.head ++ d.body, a.IsTyped stated catalog types) :
    ∀ a ∈ (r.through position d m).head ++ (r.through position d m).body, a.IsTyped stated catalog types := by
  obtain ⟨a, single, -, -, flat⟩ := defined.head
  obtain rfl : a = head := by simpa [single] using headed
  obtain ⟨predicate, -, foldedArgs⟩ := foldOnto?_some folded
  have same : a.relation? = some name := by
    rw [← reads, Atom.relation?, Atom.relation?, predicate]
  obtain ⟨relation, known, left⟩ :=
    (own target (List.mem_append_right _ (List.mem_of_getElem? found))).stored name reads
  obtain ⟨relation', known', right⟩ := (defines a (by simp [single])).stored name same
  obtain rfl : relation = relation' := Option.some.inj (known.symm.trans known')
  have start : Matching.IsTyped stated types {} :=
    ⟨fun _ _ found => (by cases found), List.forall_mem_nil _⟩
  have typed : m.IsTyped stated types := start.foldAll flat left right foldedArgs
  intro b inside
  rcases List.mem_append.mp inside with head | body
  · exact own b (List.mem_append_left _ head)
  · rcases mem_body_through.mp body with before | ⟨read, listed, rfl⟩ | ⟨pair, equated, rfl⟩ | after
    · exact own b (List.mem_append_right _ (List.mem_of_mem_take before))
    · exact (defines read (List.mem_append_right _ listed)).mapArgs
        fun t _ type typed_ => typed_.substitute typed.images
    · obtain ⟨type, here, there⟩ := typed.equations pair equated
      refine ⟨fun _ related => (by cases related), fun _ => ⟨type, List.forall_mem_cons.mpr ⟨here, ?_⟩⟩⟩
      exact List.forall_mem_singleton.mpr (there.substitute typed.images)
    · exact own b (List.mem_append_right _ (List.mem_of_mem_drop after))

theorem IsTyped.unfoldDefinitions (typed : r.IsTyped stated catalog) (pended : r.IsPending fresh)
    (defined : ∀ d ∈ definitions, d.IsDefinition ∧ d.IsTyped stated catalog)
    (found : Unfolding.virtualAtom? catalog r = some (position, target))
    (made : r' ∈ (r.unfoldDefinitions position target definitions fresh).1) : r'.IsTyped stated catalog := by
  obtain ⟨placed, name, reads, -⟩ := Unfolding.virtualAtom?_found found
  obtain ⟨d, listed, head, f, before, after, m, -, apart, above, -, -, -, headed, folded, rfl⟩ :=
    unfolded_parts (fun d listed => (defined d listed).1) made
  obtain ⟨own, typed⟩ := typed
  obtain ⟨definition, theirs, defines⟩ := defined d listed
  -- The names of the definition are new, so that both typings go together.
  let types := carried f d.allNames theirs own
  refine ⟨types, typed_through placed reads definition.rename headed folded (fun a inside => ?_) ?_⟩
  · refine (typed a inside).congr fun name named => carried_old apart ?_
    refine (pended.names name ?_).mono above
    rcases List.mem_append.mp inside with head | body
    · exact name_of_head head named
    · exact name_of_body body named
  · have renamed (a : Atom) (inside : a ∈ d.head ++ d.body) :
        (a.mapArgs (Term.rename f)).IsTyped stated catalog types := by
      refine (defines a inside).mapArgs fun t arg type typed => ?_
      refine Term.hasType_rename.mpr (typed.congr fun v within => carried_new apart ?_)
      have named : v.name ∈ a.variableNames := Atom.mem_variableNames.mpr ⟨t, arg, v, within, rfl⟩
      exact List.mem_append_left _ (List.mem_flatMap.mpr ⟨a, inside, named⟩)
    have parts : (d.rename f).head ++ (d.rename f).body =
        (d.head ++ d.body).map (Atom.mapArgs (Term.rename f)) := List.map_append.symm
    rw [parts]
    exact List.forall_mem_map.mpr renamed

theorem IsTyped.minimize {isProvenance : String → Bool} (typed : r.IsTyped stated catalog) :
    (r.minimize isProvenance).1.IsTyped stated catalog := by
  obtain ⟨types, typed⟩ := typed
  refine ⟨types, fun a inside => typed a ?_⟩
  rw [minimize_keeps.1] at inside
  exact (List.mem_append.mp inside).elim (List.mem_append_left _)
    fun body => List.mem_append_right _ (minimize_keeps.2.1 body)

end Rule

theorem Unfolding.typed_rounds {definitions pending pending' : List Rule} {n : Nat}
    {fresh fresh' : FreshNames} (defined : ∀ d ∈ definitions, d.IsDefinition ∧ d.IsTyped stated catalog)
    (pended : ∀ r ∈ pending, r.IsTyped stated catalog ∧ r.IsPending fresh)
    (ran : rounds catalog definitions n pending fresh = .ok (pending', fresh')) :
    ∀ r ∈ pending', r.IsTyped stated catalog := by
  have kept := rounds_keep_pending (P := fun r => r.IsTyped stated catalog) (fun d listed => (defined d listed).1)
    (fun _ _ _ _ _ typed pended found made => typed.unfoldDefinitions pended defined found made) pended
    ran
  exact fun r listed => (kept r listed).1

end Unfolding

section Mappings

-- As a mapping is written: over contents, with constants of their own types, and words for names.
structure Rule.IsWritten (r : Rule) : Prop where
  tables : ∀ a ∈ r.head ++ r.body, a.kind = .base
  typed : ∀ a ∈ r.head ++ r.body, a.OwnTypes
  words : ∀ a ∈ r.head ++ r.body, ∀ name ∈ a.variableNames, '$' ∉ name.toList

theorem Program.written_of_parse {text : String} {p : Program} (parsed : parse text = .ok p) :
    ∀ m ∈ p.catalog.mappings, m.IsWritten := by
  have terms : Grammar.Scan.Yields Grammar.term fun t =>
      t.OwnType ∧ ∀ v ∈ t.vars, '$' ∉ v.name.toList := by
    refine Grammar.Scan.Yields.orElse ((Grammar.Scan.yields_any _).map fun value _ => ⟨?_, nofun⟩)
      (Grammar.yields_identifier.map fun name word => ⟨nofun, List.forall_mem_singleton.mpr word⟩)
    intro type value' same
    cases same
    rfl
  refine parse_mappings (fun s m rest ran => ?_) parsed
  obtain ⟨-, -, each, -⟩ := Grammar.yields_rule terms s m rest ran
  refine ⟨fun a inside => (each a inside).1, fun a inside t arg => ((each a inside).2 t arg).1,
    fun a inside name named => ?_⟩
  obtain ⟨t, arg, v, within, rfl⟩ := Atom.mem_variableNames.mp named
  exact ((each a inside).2 t arg).2 v within

namespace Rule

variable {r m : Rule} {config : Config} {fresh : FreshNames} {inputs : List Term} {name : String}

theorem isTyped_of_valid (valid : catalog.validateRule r = .ok ())
    (none : ∀ a ∈ r.head ++ r.body, ¬ a.Computes)
    (constants : ∀ a ∈ r.head ++ r.body, ∀ own value, Term.constant own value ∈ a.args → stated value) :
    r.IsTyped stated catalog := by
  obtain ⟨uses, checked⟩ := Catalog.validateRule_types valid
  let types : Typing := fun x => ((uses.find? (·.name = x)).map Catalog.Use.type).getD .integer
  refine ⟨types, fun a inside => ⟨fun name named => ?_, fun computes => absurd computes (none a inside)⟩⟩
  obtain ⟨relation, found, arity⟩ := (checked a inside).known name named
  refine ⟨relation, found, List.forall₂_iff_zip.mpr ⟨arity, fun {t column} place => ?_⟩⟩
  have recorded := (checked a inside).recorded name relation named found (t, column) place
  cases t with
  | «variable» v =>
    obtain ⟨use, known, same⟩ := recorded
    change ((uses.find? (·.name = v.name)).map Catalog.Use.type).getD .integer = column.type
    rw [known]
    exact same
  | constant own value => exact ⟨recorded, constants a inside own value (List.of_mem_zip place).1⟩
  | skolem function args => trivial

theorem hasType_markInvented {position : Nat} {t : Term} {type : ColumnType}
    (typed : t.HasType stated types type) : (markInvented name position t).HasType stated types type := by
  unfold markInvented
  split
  · split
    · rename_i v same
      have typed : types v.name = type := typed
      exact same ▸ typed
    · exact typed
  · exact typed

theorem name_of_headVariables {v : Variable} (inside : v ∈ r.headVariables) : v.name ∈ r.allNames := by
  obtain ⟨a, head, within⟩ := List.mem_flatMap.mp (Variable.mem_of_mem_distinct inside)
  exact name_of_head head (List.mem_map_of_mem within)

theorem name_of_undefined (undefined : name ∈ r.undefinedNames) : name ∈ r.allNames := by
  obtain ⟨v, inside, rfl⟩ := List.mem_map.mp undefined
  exact name_of_headVariables (List.mem_of_mem_filter inside)

theorem name_of_input {t : Term} (input : t ∈ r.inventionInputs) : ∀ v ∈ t.vars, v.name ∈ r.allNames := by
  obtain ⟨name, inside, rfl⟩ := List.mem_map.mp input
  refine List.forall_mem_singleton.mpr ?_
  split at inside
  · obtain ⟨a, body, -, named⟩ := mem_joinedNames.mp inside
    exact name_of_body body named
  · obtain ⟨v, listed, rfl⟩ := List.mem_map.mp (List.mem_of_mem_filter inside)
    exact @name_of_headVariables r v listed

theorem name_of_markInvented {position : Nat} {t : Term} {v : Variable}
    (inside : v ∈ (markInvented name position t).vars) : ∃ w ∈ t.vars, w.name = v.name := by
  unfold markInvented at inside
  split at inside
  · split at inside
    · rename_i w same
      refine ⟨w, List.mem_singleton_self w, ?_⟩
      rw [List.mem_singleton.mp inside, same]
    · exact ⟨v, inside, rfl⟩
  · exact ⟨v, inside, rfl⟩

theorem IsPending.invent (pending : r.IsPending fresh) (used : fresh.Used name)
    (known : ∀ t ∈ inputs, ∀ v ∈ t.vars, fresh.Used v.name) : (r.invent inputs name).IsPending fresh where
  base := pending.base
  typed := pending.typed
  names n inside := by
    rcases List.mem_append.mp inside with atoms | invented
    · obtain ⟨a, member, named⟩ := List.mem_flatMap.mp atoms
      rcases List.mem_append.mp member with head | body
      · obtain ⟨b, listed, rfl⟩ := List.mem_map.mp head
        obtain ⟨_, placed, v, met, rfl⟩ := Atom.mem_variableNames.mp named
        obtain ⟨t, arg, rfl⟩ := List.mem_map.mp placed
        obtain ⟨w, within, same⟩ := name_of_markInvented met
        rw [← same]
        exact pending.names _ (name_of_head listed (Atom.mem_variableNames.mpr ⟨t, arg, w, within, rfl⟩))
      · exact pending.names n (name_of_body body named)
    · obtain ⟨i, member, named⟩ := List.mem_flatMap.mp invented
      rcases List.mem_append.mp member with old | new
      · exact pending.names n (List.mem_append_right _ (List.mem_flatMap.mpr ⟨i, old, named⟩))
      · obtain rfl := List.mem_singleton.mp new
        rcases List.mem_cons.mp named with rfl | input
        · exact used
        · obtain ⟨v, within, rfl⟩ := List.mem_map.mp input
          obtain ⟨t, arg, within⟩ := List.mem_flatMap.mp within
          exact known t arg v within

theorem typed_invent (typed : ∀ a ∈ r.head ++ r.body, a.IsTyped stated catalog types) :
    ∀ a ∈ (r.invent inputs name).head ++ (r.invent inputs name).body, a.IsTyped stated catalog types := by
  intro a inside
  rcases List.mem_append.mp inside with head | body
  · obtain ⟨b, listed, rfl⟩ := List.mem_map.mp head
    exact (typed b (List.mem_append_left _ listed)).mapArgs fun _ _ _ => hasType_markInvented
  · exact typed a (List.mem_append_right _ body)

theorem IsTyped.toRules (typed : m.IsTyped stated catalog) (pending : m.IsPending fresh) :
    ∀ r ∈ Mapping.toRules catalog config m, r.IsTyped stated catalog ∧ r.IsPending fresh := by
  obtain ⟨types, typed⟩ := typed
  obtain ⟨typed, pending⟩ := skolemize_keeps
    (P := fun r => (∀ a ∈ r.head ++ r.body, a.IsTyped stated catalog types) ∧ r.IsPending fresh)
    ⟨typed, pending⟩ fun q name held undefined => ⟨typed_invent held.1,
      held.2.invent (pending.names name (name_of_undefined undefined)) fun t input v within =>
        pending.names _ (name_of_input input v within)⟩
  refine Mapping.toRules_keep ⟨⟨types, typed⟩, pending⟩ fun _ _ head member => ?_
  refine ⟨⟨types, List.forall_mem_cons.mpr ⟨typed _ (List.mem_append_left _ member), fun a body =>
    typed a (List.mem_append_right _ body)⟩⟩, pending.base, pending.typed, fun n named => ?_⟩
  rcases List.mem_append.mp named with atoms | invented
  · obtain ⟨a, inside, met⟩ := List.mem_flatMap.mp atoms
    rcases List.mem_cons.mp inside with rfl | body
    · exact pending.names n (name_of_head member met)
    · exact pending.names n (name_of_body body met)
  · exact pending.names n (List.mem_append_right _ invented)

theorem isPending_of_written (written : r.IsWritten) (none : r.inventions = [])
    (positive : ∀ a ∈ r.body, a.negated = false) : r.IsPending fresh where
  base a inside _ := ⟨positive a inside, written.tables a (List.mem_append_right _ inside)⟩
  typed a inside := written.typed a (List.mem_append_right _ inside)
  names n inside := by
    rw [allNames, none, List.flatMap_nil, List.append_nil] at inside
    obtain ⟨a, member, named⟩ := List.mem_flatMap.mp inside
    exact FreshNames.used_of_plain (written.words a member n named)

section Inverse

variable {a : Atom} (plain : ∀ t ∈ a.args, t.asVariable?.isSome = true)

include plain

theorem var_render {t : Term} (arg : t ∈ a.args) : ∃ v ∈ t.vars, Term.var t.render = .var v.name ∧
    ∀ type, t.HasType stated types type → (Term.var t.render).HasType stated types type := by
  have isVariable := plain t arg
  cases t with
  | «variable» v => exact ⟨v, List.mem_singleton_self v, rfl, fun _ typed => typed⟩
  | constant own value => cases isVariable
  | skolem function args => cases isVariable

theorem typed_plainAtom (typed : a.IsTyped stated catalog types) (related : a.relation?.isSome = true) :
    (plainAtom a).IsTyped stated catalog types := by
  obtain ⟨name, named⟩ := Option.isSome_iff_exists.mp related
  obtain ⟨r, found, each⟩ := typed.stored name named
  have same : a.relationName = name := Atom.relationName_of_relation named
  rw [plainAtom, same]
  refine Atom.isTyped_places found (List.forall₂_map_left_iff.mpr (List.forall₂_iff_zip.mpr
    ⟨each.length_eq, fun inside => ?_⟩))
  obtain ⟨-, -, -, kept⟩ := var_render plain (List.of_mem_zip inside).1
  exact kept _ ((List.forall₂_iff_zip.mp each).2 inside)

theorem name_of_plainAtom {n : String} (named : n ∈ (plainAtom a).variableNames) :
    n ∈ a.variableNames := by
  obtain ⟨_, placed, v, within, rfl⟩ := Atom.mem_variableNames.mp named
  obtain ⟨t, arg, rfl⟩ := List.mem_map.mp placed
  obtain ⟨w, met, same, -⟩ := @var_render (fun _ => True) (fun _ => .integer) a plain t arg
  rw [same] at within
  rw [List.mem_singleton.mp within]
  exact Atom.mem_variableNames.mpr ⟨t, arg, w, met, rfl⟩

end Inverse

theorem IsTyped.inverse {inverse : Rule} (typed : r.IsTyped stated catalog) (written : r.IsWritten)
    (heads : ∀ a ∈ r.head, a.relation?.isSome = true) (made : r.inverse? = some inverse) :
    inverse.IsTyped stated catalog ∧ inverse.IsPending fresh := by
  obtain ⟨types, typed⟩ := typed
  unfold inverse? at made
  split at made
  · rename_i head source single body
    split at made
    · rename_i plain
      cases made
      rw [Bool.and_eq_true, List.all_append, Bool.and_eq_true, List.all_eq_true, List.all_eq_true] at plain
      obtain ⟨positive, left, right⟩ := plain
      have written_ : head ∈ r.head := by simp [single]
      have read : source ∈ r.body := by simp [body]
      have related : source.relation?.isSome = true := (Bool.and_eq_true _ _ ▸ positive : _ ∧ _).2
      have both {P : Atom → Prop} (here : P (plainAtom source)) (there : P (plainAtom head)) :
          ∀ a ∈ [plainAtom source] ++ [plainAtom head], P a :=
        List.forall_mem_cons.mpr ⟨here, List.forall_mem_singleton.mpr there⟩
      refine ⟨⟨types, both ?_ ?_⟩, isPending_of_written ⟨both rfl rfl, both ?_ ?_, both ?_ ?_⟩ rfl ?_⟩
      · exact typed_plainAtom right (typed source (List.mem_append_right _ read)) related
      · exact typed_plainAtom left (typed head (List.mem_append_left _ written_)) (heads head written_)
      · exact List.forall_mem_map.mpr fun _ _ => nofun
      · exact List.forall_mem_map.mpr fun _ _ => nofun
      · exact fun n named => written.words source (List.mem_append_right _ read) n
          (name_of_plainAtom right named)
      · exact fun n named => written.words head (List.mem_append_left _ written_) n
          (name_of_plainAtom left named)
      · exact List.forall_mem_singleton.mpr rfl
    · cases made
  · cases made

end Rule

theorem Mapping.rules_typed {declared : Catalog} {config : Config} {trust : TrustPolicy}
    {rules : List Rule} (own : declared.IsDeclared) (valid : declared.validate = .ok ())
    (written : ∀ m ∈ declared.mappings, m.IsWritten)
    (constants : ∀ m ∈ declared.mappings, ∀ a ∈ m.head ++ m.body, ∀ own value,
      Term.constant own value ∈ a.args → stated value)
    (computed : ∀ m ∈ declared.mappings, (∃ a ∈ m.body, a.Computes) → m.IsTyped stated declared)
    (given : Mapping.rules declared config trust = .ok rules) :
    ∀ r ∈ rules, r.IsTyped stated declared ∧ r.IsPending {} := by
  obtain ⟨⟨⟩, supported, given⟩ := Compiled.bind_ok.mp given
  obtain ⟨⟨⟩, -, given⟩ := Compiled.bind_ok.mp given
  obtain ⟨⟨⟩, -, given⟩ := Compiled.bind_ok.mp given
  cases given
  have typed (m : Rule) (member : m ∈ declared.mappings) : m.IsTyped stated declared := by
    by_cases computes : ∃ a ∈ m.body, a.Computes
    · exact computed m member computes
    · refine Rule.isTyped_of_valid (Catalog.validateRule_of_validate valid member)
        (fun a inside called => ?_) (constants m member)
      rcases List.mem_append.mp inside with head | body
      · obtain ⟨op, builtin, -⟩ := called
        rw [Atom.builtin?_of_relation ((own.mappings m member).heads a head)] at builtin
        cases builtin
      · exact computes ⟨a, body, called⟩
  intro r inside
  obtain ⟨m, member, inside⟩ := List.mem_flatMap.mp inside
  have parts : m.IsTyped stated declared ∧ m.IsPending {} := by
    rcases mem_withInverses.mp member with direct | ⟨-, source, direct, made⟩
    · have listed := (mem_trusted.mp direct).1
      exact ⟨typed m listed, Rule.isPending_of_written (written m listed)
        (own.mappings m listed).inventions fun a body =>
          (checkSupported_ok (Compiled.forM_ok supported m member)).1 a body⟩
    · have listed := (mem_trusted.mp direct).1
      exact (typed source listed).inverse (written source listed) (own.mappings source listed).heads made
  exact parts.1.toRules parts.2 r inside

end Mappings

end PeerExchange
