import PeerExchange.Proofs.UnfoldingMeaning

namespace PeerExchange

theorem Term.rename_congr {f g : String → String} {t : Term}
    (agree : ∀ v ∈ t.vars, f v.name = g v.name) : t.rename f = t.rename g := by
  induction t using structural with
  | onVariable v =>
    rw [rename, rename, bind, bind, agree v (List.mem_singleton_self v)]
  | onConstant type value => rfl
  | onSkolem function args ih =>
    rw [vars, variablesOf_eq_flatMap, List.forall_mem_flatMap] at agree
    rw [rename, rename, bind, bind, bindAll_eq_map, bindAll_eq_map]
    exact congrArg _ (List.map_congr_left fun a member => ih a member (agree a member))

theorem Term.rename_self (t : Term) : t.rename (fun name => name) = t := bind_variable t

namespace FreshNames

variable {f : FreshNames} {name : String} {bases : List String}

def Issued (f : FreshNames) (name : String) : Prop :=
  ∃ start bases, (freshAll start bases).2 = f ∧ name ∈ (freshAll start bases).1

theorem le_freshAll : f.next ≤ (f.freshAll bases).2.next := by
  induction bases generalizing f with
  | nil => exact Nat.le_refl _
  | cons base rest ih => exact Nat.le_trans (Nat.le_succ _) (@ih (f.fresh base).2)

theorem numbered_of_mem_freshAll (given : name ∈ (f.freshAll bases).1) :
    ∃ n < (f.freshAll bases).2.next, tailOf name = numbered n := by
  induction bases generalizing f with
  | nil => cases given
  | cons base rest ih =>
    rcases List.mem_cons.mp given with rfl | later
    · exact ⟨f.next, @le_freshAll (f.fresh base).2 rest, tailOf_fresh⟩
    · exact @ih (f.fresh base).2 later

theorem Issued.used (issued : f.Issued name) : f.Used name := by
  obtain ⟨start, bases, rfl, given⟩ := issued
  exact .inr (numbered_of_mem_freshAll given)

end FreshNames

namespace Renaming

variable {start : FreshNames} {state : Renaming × FreshNames} {name : String}
  {kept names : List String}

theorem extend_of_not_kept (new : name ∉ kept) : extend kept state name = extend [] state name := by
  simp [extend, new]

theorem apply_of_not_kept {m : Renaming} (new : name ∉ kept) : m.apply kept name = m.apply [] name := by
  simp [apply, new]

theorem foldl_extend_of_not_kept (new : ∀ name ∈ names, name ∉ kept) :
    names.foldl (extend kept) state = names.foldl (extend []) state := by
  induction names generalizing state with
  | nil => rfl
  | cons first rest ih =>
    obtain ⟨here, later⟩ := List.forall_mem_cons.mp new
    rw [List.foldl_cons, List.foldl_cons, extend_of_not_kept here, ih later]

theorem foldl_extend_of_kept (old : ∀ name ∈ names, name ∈ kept) :
    names.foldl (extend kept) state = state := by
  induction names with
  | nil => rfl
  | cons first rest ih =>
    obtain ⟨here, later⟩ := List.forall_mem_cons.mp old
    rw [List.foldl_cons, show extend kept state first = state by simp [extend, here], ih later]

theorem get?_extend {old new : String} (found : state.1.get? old = some new) :
    (extend kept state name).1.get? old = some new := by
  unfold extend
  split
  · exact found
  · rename_i absent
    rw [NameMap.get?_insert, if_neg, found]
    rintro rfl
    simp [NameMap.contains_of_get? found] at absent

theorem get?_foldl_extend {old new : String} (found : state.1.get? old = some new) :
    (names.foldl (extend kept) state).1.get? old = some new := by
  induction names generalizing state with
  | nil => exact found
  | cons first rest ih => exact ih (get?_extend found)

theorem contains_extend {other : String} : (extend [] state name).1.contains other = true ↔
    name = other ∨ state.1.contains other = true := by
  unfold extend
  split
  · rename_i present
    refine ⟨.inr, fun either => either.elim (fun same => ?_) id⟩
    rw [← same]
    simpa using present
  · exact NameMap.contains_insert

theorem contains_foldl_extend {other : String} :
    (names.foldl (extend []) state).1.contains other = true ↔
      other ∈ names ∨ state.1.contains other = true := by
  induction names generalizing state with
  | nil => simp
  | cons first rest ih =>
    rw [List.foldl_cons, ih, contains_extend, List.mem_cons, eq_comm (a := first)]
    tauto

theorem Extends.not_value (extended : Extends start state) (plain : '$' ∉ name.toList) :
    name ∉ state.1.values := by
  intro value
  obtain ⟨old, found⟩ := NameMap.mem_values.mp value
  obtain ⟨n, above, -, tail⟩ := extended.given old name found
  exact FreshNames.not_used_of_tailOf (f := start) tail above (FreshNames.used_of_plain plain)

theorem apply_of_get? {m : Renaming} {old new : String} (found : m.get? old = some new) :
    m.apply [] old = new := by
  simp [apply, found]

end Renaming

namespace Rule

variable {r : Rule} {rules : List Rule} {start fresh : FreshNames} {names : Renaming}

-- No variable name has a dollar sign.
def IsPlain (r : Rule) : Prop := ∀ name ∈ r.allNames, '$' ∉ name.toList

instance (r : Rule) : Decidable r.IsPlain :=
  inferInstanceAs (Decidable (∀ name ∈ r.allNames, '$' ∉ name.toList))

-- Freshens rules one after the other through the same names.
def freshenAll : List Rule → Renaming → FreshNames → List Rule × Renaming × FreshNames
  | [], names, fresh => ([], names, fresh)
  | r :: rest, names, fresh =>
    let (first, names, fresh) := r.freshen names fresh
    let (others, names, fresh) := freshenAll rest names fresh
    (first :: others, names, fresh)

theorem rename_congr {f g : String → String} (agree : ∀ name ∈ r.allNames, f name = g name) :
    r.rename f = r.rename g := by
  rw [allNames, List.forall_mem_append, List.forall_mem_flatMap, List.forall_mem_append] at agree
  obtain ⟨⟨heads, body⟩, invented⟩ := agree
  have atoms {a : Atom} (same : ∀ name ∈ a.variableNames, f name = g name) :
      a.mapArgs (Term.rename f) = a.mapArgs (Term.rename g) := by
    rw [Atom.mapArgs, Atom.mapArgs, List.map_congr_left fun t member => Term.rename_congr
      fun v inside => same v.name (Atom.mem_variableNames.mpr ⟨t, member, v, inside, rfl⟩)]
  have inventions {i : Invention} (inside : i ∈ r.inventions) :
      { i with variableName := f i.variableName, args := i.args.map (Term.rename f) } =
        ({ i with variableName := g i.variableName, args := i.args.map (Term.rename g) } :
          Invention) := by
    have own := List.forall_mem_cons.mp (List.forall_mem_flatMap.mp invented i inside)
    rw [own.1, List.map_congr_left fun t member => Term.rename_congr fun v within =>
      own.2 v.name (List.mem_map_of_mem (List.mem_flatMap.mpr ⟨t, member, within⟩))]
  rw [rename, rename, List.map_congr_left fun a inside => atoms (heads a inside),
    List.map_congr_left fun a inside => atoms (body a inside),
    List.map_congr_left fun i inside => inventions inside]

theorem rename_self (r : Rule) : r.rename (fun name => name) = r := by
  have terms (args : List Term) : args.map (Term.rename fun name => name) = args := by
    rw [funext Term.rename_self, List.map_id']
  have atoms : Atom.mapArgs (Term.rename fun name => name) = fun a => a :=
    funext fun a => by rw [Atom.mapArgs, terms]
  simp [rename, atoms, terms]

-- Freshening a plain rule, when the names so far were all made since the start.
structure Freshens (start : FreshNames) (names : Renaming) (r result : Rule) (names' : Renaming)
    (fresh' : FreshNames) : Prop where
  extended : Renaming.Extends start (names', fresh')
  renamed : result = r.rename (names'.apply [])
  kept : ∀ old new, names.get? old = some new → names'.get? old = some new
  covers : ∀ name, names'.contains name = true ↔ name ∈ r.allNames ∨ names.contains name = true

theorem freshen_freshens (plain : r.IsPlain) (extended : Renaming.Extends start (names, fresh)) :
    Freshens start names r (r.freshen names fresh).1 (r.freshen names fresh).2.1
      (r.freshen names fresh).2.2 := by
  have new : ∀ name ∈ r.allNames, name ∉ names.values :=
    fun name inside => extended.not_value (plain name inside)
  have walked : r.allNames.foldl (Renaming.extend names.values) (names, fresh) =
      r.allNames.foldl (Renaming.extend []) (names, fresh) := Renaming.foldl_extend_of_not_kept new
  refine ⟨?_, ?_, fun old value found => ?_, fun name => ?_⟩
  · rw [freshen, walked]
    exact (extended.foldl r.allNames).1
  · exact rename_congr fun name inside => Renaming.apply_of_not_kept (new name inside)
  · have known : ((names, fresh) : Renaming × FreshNames).1.get? old = some value := found
    exact Renaming.get?_foldl_extend known
  · rw [freshen, walked]
    exact Renaming.contains_foldl_extend

structure FreshensAll (start : FreshNames) (names : Renaming) (rules results : List Rule)
    (names' : Renaming) (fresh' : FreshNames) : Prop where
  extended : Renaming.Extends start (names', fresh')
  renamed : results = rules.map (rename (names'.apply []))
  kept : ∀ old new, names.get? old = some new → names'.get? old = some new
  covers : ∀ name, names'.contains name = true ↔
    (∃ r ∈ rules, name ∈ r.allNames) ∨ names.contains name = true

theorem freshenAll_freshens (plain : ∀ r ∈ rules, r.IsPlain)
    (extended : Renaming.Extends start (names, fresh)) :
    FreshensAll start names rules (freshenAll rules names fresh).1 (freshenAll rules names fresh).2.1
      (freshenAll rules names fresh).2.2 := by
  induction rules generalizing names fresh with
  | nil => exact ⟨extended, rfl, fun _ _ found => found, fun name => by simp [freshenAll]⟩
  | cons r rest ih =>
    obtain ⟨here, later⟩ := List.forall_mem_cons.mp plain
    have first := freshen_freshens here extended
    have others := ih later first.extended
    refine ⟨others.extended, ?_, fun old new found => others.kept old new (first.kept old new found),
      fun name => ?_⟩
    · -- The first rule was renamed by what was known then, and its names have stayed.
      refine congrArg₂ List.cons (first.renamed.trans (rename_congr fun name inside => ?_))
        others.renamed
      obtain ⟨new, found⟩ := NameMap.get?_of_contains ((first.covers name).mpr (.inl inside))
      exact (Renaming.apply_of_get? found).trans
        (Renaming.apply_of_get? (others.kept name new found)).symm
    · rw [freshenAll]
      refine (others.covers name).trans ?_
      rw [first.covers]
      simp only [List.mem_cons, exists_eq_or_imp]
      exact or_left_comm.trans or_assoc.symm

theorem freshen_of_values (settled : ∀ name ∈ r.allNames, name ∈ names.values) :
    r.freshen names fresh = (r, names, fresh) := by
  have same : r.rename (names.apply names.values) = r := by
    refine (rename_congr fun name inside => ?_).trans r.rename_self
    simp [Renaming.apply, settled name inside]
  have unmoved : r.allNames.foldl (Renaming.extend names.values) (names, fresh) = (names, fresh) :=
    Renaming.foldl_extend_of_kept settled
  simp only [freshen, unmoved, same]

-- What a renaming does to rules that it makes fresh.
structure Freshened (fresh : FreshNames) (rules results : List Rule) (names : Renaming) : Prop where
  -- It renames every variable of every rule, at all its places.
  renamed : results = rules.map (rename (names.apply []))
  covers : ∀ name, names.contains name = true ↔ ∃ r ∈ rules, name ∈ r.allNames
  injective : ∀ a b new, names.get? a = some new → names.get? b = some new → a = b
  -- The new names are met in none of the rules and were never given out.
  absent : ∀ old new, names.get? old = some new → ∀ r ∈ rules, new ∉ r.allNames
  unissued : ∀ old new, names.get? old = some new → ¬ fresh.Issued new
  -- Whatever it has renamed, it leaves alone.
  settled : ∀ result ∈ results, ∀ later, result.freshen names later = (result, names, later)

theorem freshenAll_exact (fresh : FreshNames) (rules : List Rule) (plain : ∀ r ∈ rules, r.IsPlain) :
    Freshened fresh rules (freshenAll rules .empty fresh).1 (freshenAll rules .empty fresh).2.1 := by
  have all := freshenAll_freshens plain (⟨Nat.le_refl _, nofun, nofun⟩ :
    Renaming.Extends fresh (.empty, fresh))
  have covers : ∀ name, (freshenAll rules .empty fresh).2.1.contains name = true ↔
      ∃ r ∈ rules, name ∈ r.allNames := fun name =>
    (all.covers name).trans (or_iff_left Bool.false_ne_true)
  have unused : ∀ old new, (freshenAll rules .empty fresh).2.1.get? old = some new →
      ¬ fresh.Used new := fun old new found => by
    obtain ⟨n, above, -, tail⟩ := all.extended.given old new found
    exact FreshNames.not_used_of_tailOf tail above
  refine ⟨all.renamed, covers, all.extended.injective, ?_, ?_, ?_⟩
  · exact fun old new found r inside met =>
      unused old new found (FreshNames.used_of_plain (plain r inside new met))
  · exact fun old new found issued => unused old new found issued.used
  · intro result inside later
    rw [all.renamed] at inside
    obtain ⟨r, member, rfl⟩ := List.mem_map.mp inside
    refine freshen_of_values fun name met => ?_
    obtain ⟨old, own, rfl⟩ := name_of_rename met
    obtain ⟨new, found⟩ := NameMap.get?_of_contains ((covers old).mpr ⟨r, member, own⟩)
    rw [Renaming.apply_of_get? found]
    exact NameMap.mem_values.mpr ⟨old, found⟩

-- Two rules that share variables, with one inside a Skolem term inside another.
def sharingRules : List Rule :=
  [{ ofHead "m" (.ofRelation "T" [.var "x", .variable ⟨"n", true, some 0⟩,
        .skolem "f" [.skolem "g" [.var "x"], .var "y"]])
      [.ofRelation "R" [.var "x", .var "y"]] with
    inventions := [⟨"n", "m_n", [.var "x"]⟩] },
    ofHead "k" (.ofRelation "S" [.var "y"])
      [.ofRelation "T" [.var "y", .var "z", .var "x"], (Atom.ofRelation "R" [.var "z", .var "z"]).negate]]

theorem freshenAll_exact_sharing : (∀ r ∈ sharingRules, r.IsPlain) ∧
    Freshened ⟨7⟩ sharingRules (freshenAll sharingRules .empty ⟨7⟩).1
      (freshenAll sharingRules .empty ⟨7⟩).2.1 :=
  ⟨by decide, freshenAll_exact ⟨7⟩ sharingRules (by decide)⟩

end Rule

end PeerExchange
