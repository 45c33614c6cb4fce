import PeerExchange.Maintenance
import PeerExchange.Proofs.SetSemantics
import Mathlib.Data.Set.Function

namespace PeerExchange

variable {D : Type} {I : Interpretation D} {catalog : Catalog} {db : Tables D} {k : Int}

-- Which variables a body binds does not depend on the tables that its atoms read, nor on negated
-- atoms.
section Binding

def Atom.untabled (a : Atom) : Atom := a.withKind .base

theorem Rule.bindPass_untabled (atoms : List Atom) (bound : List String) :
    Rule.bindPass (atoms.map Atom.untabled) bound = Rule.bindPass atoms bound := by
  unfold Rule.bindPass
  rw [List.foldl_map]
  rfl

theorem Rule.bindPasses_untabled (atoms : List Atom) (passes : Nat) (bound : List String) :
    Rule.bindPasses (atoms.map Atom.untabled) passes bound = Rule.bindPasses atoms passes bound := by
  induction passes generalizing bound with
  | zero => rfl
  | succ passes ih =>
    unfold Rule.bindPasses
    rw [Rule.bindPass_untabled]
    simp only [ih]

theorem Atom.filter_untabled {keep : Atom → Bool} (blind : ∀ a, keep a.untabled = keep a)
    (atoms : List Atom) :
    (atoms.map Atom.untabled).filter keep = (atoms.filter keep).map Atom.untabled := by
  rw [List.filter_map]
  congr 1
  exact List.filter_congr fun a _ => blind a

theorem Atom.flatMap_untabled {β : Type} {f : Atom → List β} (blind : ∀ a, f a.untabled = f a)
    (atoms : List Atom) : (atoms.map Atom.untabled).flatMap f = atoms.flatMap f := by
  rw [List.flatMap_map]
  simp only [blind]

variable {r changed : Rule} {added : List Atom}

theorem Rule.boundNames_untabled
    (body : changed.body.map Atom.untabled = r.body.map Atom.untabled ++ added)
    (negated : ∀ a ∈ added, a.negated = true) : changed.boundNames = r.boundNames := by
  have dropped (keep : Atom → Bool) (blind : ∀ a, keep a.untabled = keep a)
      (absent : ∀ a, a.negated = true → keep a = false) :
      (changed.body.filter keep).map Atom.untabled = (r.body.filter keep).map Atom.untabled := by
    have none : added.filter keep = [] := by
      refine List.filter_eq_nil_iff.mpr fun a member kept => ?_
      rw [absent a (negated a member)] at kept
      cases kept
    rw [← Atom.filter_untabled blind, ← Atom.filter_untabled blind, body, List.filter_append, none,
      List.append_nil]
  have plain := dropped (fun a => !a.negated) (fun _ => rfl) fun a negated => by simp [negated]
  have joined := dropped Atom.isPositive (fun _ => rfl) fun a negated => by
    simp [Atom.isPositive, negated]
  have names : changed.joinedNames = r.joinedNames := by
    unfold Rule.joinedNames
    rw [← Atom.flatMap_untabled (fun _ => rfl), joined, Atom.flatMap_untabled fun _ => rfl]
  unfold Rule.boundNames
  simp only
  rw [← Rule.bindPasses_untabled, plain, Rule.bindPasses_untabled, names,
    ← Atom.flatMap_untabled (fun _ => rfl), plain, Atom.flatMap_untabled fun _ => rfl]

theorem Rule.neededVariables_untabled (heads : changed.head.flatMap Atom.vars = r.head.flatMap Atom.vars)
    (inventions : changed.inventions = r.inventions)
    (body : changed.body.map Atom.untabled = r.body.map Atom.untabled ++ added)
    (relations : ∀ a ∈ added, a.builtin? = none) : changed.neededVariables = r.neededVariables := by
  have none : added.filter (·.builtin?.isSome) = [] := by
    refine List.filter_eq_nil_iff.mpr fun a member kept => ?_
    rw [relations a member] at kept
    cases kept
  have builtins : (changed.body.filter (·.builtin?.isSome)).flatMap Atom.vars =
      (r.body.filter (·.builtin?.isSome)).flatMap Atom.vars := by
    rw [← Atom.flatMap_untabled (fun _ => rfl), ← Atom.filter_untabled (fun _ => rfl), body,
      List.filter_append, none, List.append_nil, Atom.filter_untabled (fun _ => rfl),
      Atom.flatMap_untabled fun _ => rfl]
  unfold Rule.neededVariables
  rw [List.flatMap_append, List.flatMap_append, heads, builtins, inventions]

theorem Rule.invents_untabled {θ : Valuation D}
    (heads : changed.head.flatMap Atom.vars = r.head.flatMap Atom.vars)
    (inventions : changed.inventions = r.inventions)
    (body : changed.body.map Atom.untabled = r.body.map Atom.untabled ++ added)
    (negated : ∀ a ∈ added, a.negated = true ∧ a.builtin? = none) :
    changed.Invents I θ ↔ r.Invents I θ := by
  unfold Rule.Invents Rule.invention?
  rw [Rule.neededVariables_untabled heads inventions body fun a member => (negated a member).2,
    Rule.boundNames_untabled body fun a member => (negated a member).1, inventions]

end Binding

theorem Rule.matches_added {r : Rule} {first added : List Atom} {θ : Valuation D}
    (body : r.body = first ++ added) (negated : ∀ a ∈ added, a.negated = true) :
    r.Matches I db k θ ↔ r.Invents I θ ∧
      (∀ (position : Nat) (a : Atom), first[position]? = some a →
        if a.negated then ¬ a.Holds I db θ none else a.Holds I db θ (r.guardStamp k position)) ∧
      ∀ a ∈ added, ¬ a.Holds I db θ none := by
  unfold Rule.Matches
  rw [body]
  constructor
  · rintro ⟨invents, each⟩
    refine ⟨invents, fun position a found => ?_, fun a member => ?_⟩
    · exact each position a ((List.getElem?_append_left (List.getElem?_eq_some_iff.mp found).1).trans found)
    · obtain ⟨offset, found⟩ := List.mem_iff_getElem?.mp member
      have held := each (first.length + offset) a
        (by rw [List.getElem?_append_right (Nat.le_add_right _ _), Nat.add_sub_cancel_left, found])
      rwa [negated a member, if_pos rfl] at held
  · rintro ⟨invents, each, none⟩
    refine ⟨invents, fun position a found => ?_⟩
    by_cases early : position < first.length
    · exact each position a (by rw [← List.getElem?_append_left early, found])
    · rw [List.getElem?_append_right (Nat.le_of_not_lt early)] at found
      have member := List.mem_of_getElem? found
      rw [negated a member, if_pos rfl]
      exact none a member

theorem Rule.derives_single {r : Rule} {head : Atom} {target name : String} {kind : TableKind}
    {e : Entry D} (heads : r.head = [head]) (named : head.relation? = some target) :
    r.Derives I catalog db k name kind e ↔ name = target ∧ kind = head.kind ∧
      ∃ θ, r.Matches I db k θ ∧ e = ⟨head.tuple I θ, r.headStamp catalog k target head.kind⟩ := by
  unfold Rule.Derives
  rw [heads]
  constructor
  · rintro ⟨θ, matched, a, member, same, kinds, rfl⟩
    cases List.mem_singleton.mp member
    cases named.symm.trans same
    cases kinds
    exact ⟨rfl, rfl, θ, matched, rfl⟩
  · rintro ⟨rfl, rfl, θ, matched, rfl⟩
    exact ⟨θ, matched, head, List.mem_singleton.mpr rfl, named, rfl, rfl⟩

theorem Rule.writes_single {r : Rule} {head : Atom} {target name : String} {kind : TableKind}
    (heads : r.head = [head]) (named : head.relation? = some target) :
    r.Writes name kind ↔ name = target ∧ kind = head.kind := by
  unfold Rule.Writes
  rw [heads]
  constructor
  · rintro ⟨a, member, same, kinds⟩
    cases List.mem_singleton.mp member
    exact ⟨Option.some.inj (same.symm.trans named), kinds.symm⟩
  · rintro ⟨rfl, rfl⟩
    exact ⟨head, List.mem_singleton.mpr rfl, named, rfl⟩

namespace Maintenance

section Change

variable {d : Direction} {r : Rule} {head a : Atom} {scc : List String} {recursive : Bool}
  {position : Nat} {source target : String} {θ : Valuation D}

theorem mem_exclusion {inside : Bool} {x : Atom} (member : x ∈ exclusion d head inside) :
    x.negated = true ∧ x.predicate = head.predicate ∧ x.args = head.args ∧
      x.optional = head.optional := by
  unfold exclusion at member
  split at member
  · split at member
    · cases List.mem_singleton.mp member
      exact ⟨rfl, rfl, rfl, rfl⟩
    · cases member
  · cases List.mem_singleton.mp member
    exact ⟨rfl, rfl, rfl, rfl⟩

theorem changeRule_invents (found : r.body[position]? = some a) (heads : r.head = [head])
    (named : head.relation? = some target) :
    (changeRule d r head scc recursive position a).1.Invents I θ ↔ r.Invents I θ := by
  have body : (changeRule d r head scc recursive position a).1.body.map Atom.untabled =
      r.body.map Atom.untabled ++
        (exclusion d head (recursive && scc.contains a.relationName)).map Atom.untabled := by
    change (r.body.set position (a.withKind d.kind) ++ _).map Atom.untabled = _
    rw [List.map_append, List.map_set]
    congr 1
    refine List.ext_getElem? fun j => ?_
    rw [List.getElem?_set]
    split
    · rename_i same
      subst same
      rw [List.getElem?_map, found, if_pos (by simpa using (List.getElem?_eq_some_iff.mp found).1)]
      rfl
    · rfl
  refine Rule.invents_untabled ?_ rfl body ?_
  · rw [heads]
    rfl
  · intro x member
    obtain ⟨kept, inside, rfl⟩ := List.mem_map.mp member
    obtain ⟨negated, same, -⟩ := mem_exclusion inside
    refine ⟨negated, ?_⟩
    change kept.builtin? = none
    unfold Atom.builtin?
    rw [same, Atom.predicate_of_relation named]

theorem changeRule_guardStamp (j : Nat) :
    (changeRule d r head scc recursive position a).1.guardStamp k j =
      if (changeRule d r head scc recursive position a).2 = true ∧ position = j then
        some (k + d.guardOffset) else none := by
  unfold Rule.guardStamp changeRule
  cases recursive && scc.contains a.relationName <;> simp

theorem changeRule_matches (plain : r.Plain) (found : r.body[position]? = some a)
    (heads : r.head = [head]) (named : head.relation? = some target)
    (reads : a.relation? = some source) :
    (changeRule d r head scc recursive position a).1.Matches I db k θ ↔ r.Invents I θ ∧
      (∀ (j : Nat) (b : Atom), r.body[j]? = some b → j ≠ position → b.Holds I db θ none) ∧
      (∃ e ∈ db source d.kind, e.tuple = a.tuple I θ ∧
        ((changeRule d r head scc recursive position a).2 = true → e.stamp = some (k + d.guardOffset))) ∧
      ∀ x ∈ exclusion d head (changeRule d r head scc recursive position a).2,
        ¬ x.Holds I db θ none := by
  have here : position < r.body.length := (List.getElem?_eq_some_iff.mp found).1
  have positive (j : Nat) (b : Atom) (at_ : r.body[j]? = some b) : b.negated = false :=
    (plain b (List.mem_of_getElem? at_)).1
  rw [Rule.matches_added rfl fun x member => (mem_exclusion member).1,
    changeRule_invents found heads named]
  refine and_congr_right fun _ => ?_
  rw [← and_assoc]
  refine and_congr ⟨fun each => ⟨?_, ?_⟩, ?_⟩ Iff.rfl
  · intro j b at_ other
    have held := each j b (by rw [List.getElem?_set_ne (Ne.symm other), at_])
    rwa [positive j b at_, if_neg Bool.false_ne_true, changeRule_guardStamp,
      if_neg fun both => other both.2.symm] at held
  · have held := each position (a.withKind d.kind) (List.getElem?_set_self here)
    have reads' : (a.withKind d.kind).relation? = some source := reads
    rw [show (a.withKind d.kind).negated = false from positive position a found,
      if_neg Bool.false_ne_true, Atom.holds_relation reads', changeRule_guardStamp] at held
    obtain ⟨e, stored, same, stamped⟩ := held
    exact ⟨e, stored, same, fun inside => stamped _ (if_pos ⟨inside, rfl⟩)⟩
  · rintro ⟨others, e, stored, same, stamped⟩ j b at_
    by_cases changed : j = position
    · subst changed
      rw [List.getElem?_set_self here] at at_
      cases at_
      have reads' : (a.withKind d.kind).relation? = some source := reads
      rw [show (a.withKind d.kind).negated = false from positive j a found,
        if_neg Bool.false_ne_true, Atom.holds_relation reads', changeRule_guardStamp]
      refine ⟨e, stored, same, fun n guarded => ?_⟩
      split at guarded
      · rename_i inside
        rw [stamped inside.1, ← guarded]
      · cases guarded
    · rw [List.getElem?_set_ne (Ne.symm changed)] at at_
      rw [positive j b at_, if_neg Bool.false_ne_true, changeRule_guardStamp,
        if_neg fun both => changed both.2.symm]
      exact others j b at_ changed

theorem changeRule_sound (plain : r.Plain) (found : r.body[position]? = some a)
    (heads : r.head = [head]) (named : head.relation? = some target)
    (reads : a.relation? = some source)
    (matched : (changeRule d r head scc recursive position a).1.Matches I db k θ) :
    r.Supports I (fun name => db.facts .base name ∪ db.facts d.kind name) θ := by
  obtain ⟨invents, others, ⟨e, stored, same, -⟩, -⟩ :=
    (changeRule_matches plain found heads named reads).mp matched
  refine ⟨invents, fun b member name joins => ?_, fun b member op called => ?_⟩
  · obtain ⟨j, at_⟩ := List.mem_iff_getElem?.mp member
    by_cases changed : j = position
    · subst changed
      cases found.symm.trans at_
      cases reads.symm.trans joins
      exact .inr ⟨e, stored, same⟩
    · have held := others j b at_ changed
      rw [Atom.holds_unguarded joins, plain.kind_eq member joins] at held
      exact .inl held
  · obtain ⟨j, at_⟩ := List.mem_iff_getElem?.mp member
    by_cases changed : j = position
    · subst changed
      cases found.symm.trans at_
      rw [Atom.builtin?, Atom.predicate_of_relation reads] at called
      cases called
    · have held := others j b at_ changed
      rwa [Atom.holds_builtin called] at held

theorem changeRule_complete (plain : r.Plain) (found : r.body[position]? = some a)
    (heads : r.head = [head]) (named : head.relation? = some target)
    (reads : a.relation? = some source) (supported : r.Supports I (db.facts .base) θ) {e : Entry D}
    (stored : e ∈ db source d.kind) (same : e.tuple = a.tuple I θ)
    (stamped : (changeRule d r head scc recursive position a).2 = true →
      e.stamp = some (k + d.guardOffset))
    (admitted : ∀ x ∈ exclusion d head (changeRule d r head scc recursive position a).2,
      ¬ x.Holds I db θ none) :
    (changeRule d r head scc recursive position a).1.Matches I db k θ := by
  refine (changeRule_matches plain found heads named reads).mpr
    ⟨supported.invents, fun j b at_ _ => ?_, ⟨e, stored, same, stamped⟩, admitted⟩
  exact ((Rule.supports_iff_holds plain).mp supported).2 b (List.mem_of_getElem? at_)

theorem changeRule_stampAt :
    (changeRule d r head scc recursive position a).1.stampAt k =
      if (changeRule d r head scc recursive position a).2 then k + d.stampOffset else 0 := by
  unfold Rule.stampAt changeRule
  cases recursive
  · rfl
  · by_cases inside : a.relationName ∈ scc <;> simp [inside]

theorem rederiveRule_matches (plain : r.Plain) (heads : r.head = [head]) :
    (rederiveRule r).Matches I db k θ ↔ r.Supports I (db.facts .base) θ ∧
      ∀ a ∈ r.body, ∀ name, a.relation? = some name → a.tuple I θ ∉ db.facts .deletion name := by
  have invents : (rederiveRule r).Invents I θ ↔ r.Invents I θ := by
    refine Rule.invents_untabled ?_ rfl (List.map_append ..) ?_
    · change [(r.head?.getD _).withKind .deletion].flatMap Atom.vars = _
      rw [Rule.head?, heads]
      rfl
    · intro x member
      obtain ⟨kept, inside, rfl⟩ := List.mem_map.mp member
      obtain ⟨a, positive, rfl⟩ := List.mem_map.mp inside
      refine ⟨rfl, ?_⟩
      have joined : a.relation?.isSome = true :=
        (Bool.and_eq_true _ _ ▸ (List.mem_filter.mp positive).2 : _ ∧ _).2
      obtain ⟨name, named⟩ := Option.isSome_iff_exists.mp joined
      change a.builtin? = none
      rw [Atom.builtin?, Atom.predicate_of_relation named]
  rw [Rule.matches_added rfl, invents, Rule.supports_iff_holds plain, and_assoc]
  · refine and_congr_right fun _ => and_congr ⟨fun each a member => ?_, fun held j a at_ => ?_⟩
      ⟨fun left a member name named deleted => ?_, fun left x member => ?_⟩
    · obtain ⟨j, at_⟩ := List.mem_iff_getElem?.mp member
      have held := each j a at_
      rwa [(plain a member).1, if_neg Bool.false_ne_true] at held
    · have member := List.mem_of_getElem? at_
      rw [(plain a member).1, if_neg Bool.false_ne_true]
      exact held a member
    · have positive : a.isPositive = true := by simp [Atom.isPositive, (plain a member).1, named]
      refine left ((a.withKind .deletion).negate)
        (List.mem_map.mpr ⟨a, List.mem_filter.mpr ⟨member, positive⟩, rfl⟩) ?_
      have named' : ((a.withKind .deletion).negate).relation? = some name := named
      rw [Atom.holds_unguarded named']
      exact deleted
    · obtain ⟨a, inside, rfl⟩ := List.mem_map.mp member
      obtain ⟨inBody, positive⟩ := List.mem_filter.mp inside
      obtain ⟨name, named⟩ := Option.isSome_iff_exists.mp
        (Bool.and_eq_true _ _ ▸ positive : _ ∧ _).2
      have named' : ((a.withKind .deletion).negate).relation? = some name := named
      rw [Atom.holds_unguarded named']
      exact left a inBody name named
  · intro x member
    obtain ⟨a, -, rfl⟩ := List.mem_map.mp member
    rfl

theorem rederiveRule_head (heads : r.head = [head]) :
    (rederiveRule r).head = [head.withKind .deletion] := by
  change [(r.head?.getD _).withKind .deletion] = _
  rw [Rule.head?, heads]
  rfl

end Change

section Tables

theorem placeName_injective (letter : String) :
    Function.Injective fun i : Nat => letter ++ toString i := by
  intro i j same
  have digits : Nat.toDigits 10 i = Nat.toDigits 10 j := by
    rw [← Nat.toList_repr, ← Nat.toList_repr]
    exact congrArg String.toList ((String.append_right_inj letter).mp same)
  rw [← @Nat.ofDigitChars_ten_toDigits i, digits, Nat.ofDigitChars_ten_toDigits]

theorem exists_valuation (I : Interpretation D) (letter : String) (t : List D) :
    ∃ θ : Valuation D, ((List.range t.length).map fun i => Term.var (letter ++ toString i)).map
      (Term.denote I θ) = t := by
  let place := fun i : Nat => letter ++ toString i
  refine ⟨fun name => t.getD (Function.invFun place name) (I.constant none .null), ?_⟩
  refine List.ext_getElem (by simp) fun i _ inside => ?_
  have found := Function.leftInverse_invFun (placeName_injective letter) i
  simp only [List.getElem_map, List.getElem_range, Term.var, Term.denote]
  rw [show Function.invFun place (letter ++ toString i) = i from found]
  simp [List.getD, inside]

variable {relation : Relation} {name other suffix : String} {action : Action}
  {head body kind : TableKind} {r : Rule} {e : Entry D}

theorem tableRule_derives (heads : r.head = (tableRule relation name suffix action head body).head)
    (bodies : r.body = (tableRule relation name suffix action head body).body)
    (inventions : r.inventions = []) :
    r.Derives I catalog db k other kind e ↔ other = name ∧ kind = head ∧
      ∃ stored ∈ db name body, stored.tuple.length = relation.arity ∧
        (∀ n, r.guardStamp k 0 = some n → stored.stamp = some n) ∧
        e = ⟨stored.tuple, r.headStamp catalog k name head⟩ := by
  let args := (List.range relation.arity).map fun i => Term.var ("x" ++ toString i)
  have heads' : r.head = [(Atom.ofRelation name args).withKind head] := heads
  have bodies' : r.body = [(Atom.ofRelation name args).withKind body] := bodies
  have holds (θ : Valuation D) (stamp : Option Int) :
      ((Atom.ofRelation name args).withKind body).Holds I db θ stamp ↔
        ∃ stored ∈ db name body, stored.tuple = args.map (Term.denote I θ) ∧
          ∀ n, stamp = some n → stored.stamp = some n := Iff.rfl
  rw [Rule.derives_single heads' rfl]
  refine and_congr_right fun _ => and_congr_right fun _ => ⟨?_, ?_⟩
  · rintro ⟨θ, ⟨-, each⟩, rfl⟩
    have held := each 0 _ (by rw [bodies']; rfl)
    rw [if_neg (show ¬ ((Atom.ofRelation name args).withKind body).negated = true from
      Bool.false_ne_true), holds] at held
    obtain ⟨stored, there, same, stamped⟩ := held
    refine ⟨stored, there, by rw [same]; simp [args], stamped, ?_⟩
    rw [same]
    rfl
  · rintro ⟨stored, there, fits, stamped, rfl⟩
    obtain ⟨θ, same⟩ := exists_valuation I "x" stored.tuple
    rw [fits] at same
    refine ⟨θ, ⟨?_, fun j a at_ => ?_⟩, ?_⟩
    · intro v _ _ t invented
      cases position : v.skolem <;> simp [position, Rule.invention?, inventions] at invented
    · rw [bodies'] at at_
      obtain ⟨rfl, rfl⟩ : j = 0 ∧ (Atom.ofRelation name args).withKind body = a := by
        cases j with
        | zero => exact ⟨rfl, Option.some.inj at_⟩
        | succ j => cases at_
      rw [if_neg (show ¬ ((Atom.ofRelation name args).withKind body).negated = true from
        Bool.false_ne_true), holds]
      exact ⟨stored, there, same.symm, stamped⟩
    · rw [show ((Atom.ofRelation name args).withKind head).tuple I θ = stored.tuple from same]
      rfl

end Tables

end Maintenance

namespace Rule

def headTuple (I : Interpretation D) (r : Rule) (θ : Valuation D) : List D :=
  (r.head?.map (Atom.tuple I θ)).getD []

-- A rule that can be maintained: one head over the contents of a relation, and a plain body.
structure Simple (r : Rule) : Prop where
  plain : r.Plain
  single : ∃ head, r.head = [head] ∧ head.relation? = some r.headRelation ∧ head.kind = .base

theorem headTuple_single {r : Rule} {head : Atom} {θ : Valuation D} (heads : r.head = [head]) :
    r.headTuple I θ = head.tuple I θ := by
  unfold headTuple head?
  rw [heads]
  rfl

end Rule

namespace Maintenance

section Groups

variable {d : Direction} {scc : List String} {recursive inside : Bool} {r changed : Rule}
  {a : Atom} {source name : String} {kind : TableKind} {θ : Valuation D} {e : Entry D}

def changesOf (d : Direction) (scc : List String) (recursive inside : Bool) (r : Rule) : List Rule :=
  bif inside then (changeRules d scc recursive r).2 else (changeRules d scc recursive r).1

theorem mem_changesOf {head : Atom} (heads : r.head = [head]) :
    changed ∈ changesOf d scc recursive inside r ↔
      ∃ (position : Nat) (a : Atom), r.body[position]? = some a ∧ a.isPositive = true ∧
        changeRule d r head scc recursive position a = (changed, inside) := by
  have first : r.head? = some head := by rw [Rule.head?, heads]; rfl
  have shape (keep : Bool → Bool) (exact_ : ∀ b, keep b = true ↔ b = inside) :
      changed ∈ (((((r.body.mapIdx Prod.mk).filter (·.2.isPositive)).map fun place =>
        changeRule d r head scc recursive place.1 place.2).filter (keep ·.2)).map Prod.fst) ↔
      ∃ (position : Nat) (a : Atom), r.body[position]? = some a ∧ a.isPositive = true ∧
        changeRule d r head scc recursive position a = (changed, inside) := by
    simp only [List.mem_map, List.mem_filter, exact_, List.mem_mapIdx]
    constructor
    · rintro ⟨_, ⟨⟨⟨position, a⟩, ⟨⟨i, here, same⟩, positive⟩, rfl⟩, rfl⟩, rfl⟩
      cases same
      exact ⟨position, r.body[position], List.getElem?_eq_getElem here, positive, rfl⟩
    · rintro ⟨position, a, found, positive, same⟩
      obtain ⟨here, rfl⟩ := List.getElem?_eq_some_iff.mp found
      exact ⟨_, ⟨⟨(position, r.body[position]), ⟨⟨position, here, rfl⟩, positive⟩, same⟩, rfl⟩, rfl⟩
  unfold changesOf changeRules
  rw [first]
  cases inside with
  | false => exact shape (!·) (by simp)
  | true => exact shape id (by simp)

theorem changesOf_action (simple : r.Simple) (member : changed ∈ changesOf d scc recursive inside r) :
    changed.action = .derive := by
  obtain ⟨head, heads, -, -⟩ := simple.single
  obtain ⟨position, a, -, -, same⟩ := (mem_changesOf heads).mp member
  cases congrArg Prod.fst same
  rfl

theorem changesOf_writes (simple : r.Simple) (member : changed ∈ changesOf d scc recursive inside r) :
    changed.Writes name kind ↔ name = r.headRelation ∧ kind = d.kind := by
  obtain ⟨head, heads, named, -⟩ := simple.single
  obtain ⟨position, a, -, -, same⟩ := (mem_changesOf heads).mp member
  cases congrArg Prod.fst same
  exact @Rule.writes_single _ (head.withKind d.kind) _ _ _ rfl named

theorem changesOf_stampAt (simple : r.Simple) (member : changed ∈ changesOf d scc recursive inside r) :
    changed.stampAt k = if inside then k + d.stampOffset else 0 := by
  obtain ⟨head, heads, -, -⟩ := simple.single
  obtain ⟨position, a, -, -, same⟩ := (mem_changesOf heads).mp member
  have stamped := @changeRule_stampAt k d r head a scc recursive position
  rwa [same] at stamped

theorem changesOf_sound (simple : r.Simple) (member : changed ∈ changesOf d scc recursive inside r)
    (derived : changed.Derives I catalog db k name kind e) :
    name = r.headRelation ∧ kind = d.kind ∧ e.stamp = changed.headStamp catalog k r.headRelation d.kind ∧
      ∃ θ, r.Supports I (fun other => db.facts .base other ∪ db.facts d.kind other) θ ∧
        e.tuple = r.headTuple I θ := by
  obtain ⟨head, heads, named, -⟩ := simple.single
  obtain ⟨position, a, found, positive, same⟩ := (mem_changesOf heads).mp member
  obtain ⟨source, reads⟩ := Option.isSome_iff_exists.mp (Bool.and_eq_true _ _ ▸ positive : _ ∧ _).2
  cases congrArg Prod.fst same
  obtain ⟨rfl, rfl, θ, matched, rfl⟩ :=
    (@Rule.derives_single _ I catalog db k _ (head.withKind d.kind) _ _ _ _ rfl named).mp derived
  exact ⟨rfl, rfl, rfl, θ, changeRule_sound simple.plain found heads named reads matched,
    (Rule.headTuple_single heads).symm⟩

theorem exists_change (simple : r.Simple) (member : a ∈ r.body) (reads : a.relation? = some source) :
    ∃ changed ∈ changesOf d scc recursive (recursive && scc.contains source) r,
      ∀ (db : Tables D) (e : Entry D), r.Supports I (db.facts .base) θ → e ∈ db source d.kind →
        e.tuple = a.tuple I θ →
        ((recursive && scc.contains source) = true → e.stamp = some (k + d.guardOffset)) →
        (∀ head, r.head = [head] → ∀ x ∈ exclusion d head (recursive && scc.contains source),
          ¬ x.Holds I db θ none) →
        changed.Derives I catalog db k r.headRelation d.kind
          ⟨r.headTuple I θ, changed.headStamp catalog k r.headRelation d.kind⟩ := by
  obtain ⟨head, heads, named, -⟩ := simple.single
  obtain ⟨position, found⟩ := List.mem_iff_getElem?.mp member
  have positive : a.isPositive = true := by
    simp [Atom.isPositive, (simple.plain a member).1, reads]
  have flag : (changeRule d r head scc recursive position a).2 =
      (recursive && scc.contains source) := by
    change (recursive && scc.contains (a.relation?.getD "")) = _
    rw [reads]
    rfl
  refine ⟨(changeRule d r head scc recursive position a).1,
    (mem_changesOf heads).mpr ⟨position, a, found, positive, by rw [← flag]⟩, ?_⟩
  intro db e supported stored same stamped admitted
  refine (@Rule.derives_single _ I catalog db k _ (head.withKind d.kind) _ _ _ _ rfl named).mpr
    ⟨rfl, rfl, θ, changeRule_complete simple.plain found heads named reads supported stored same ?_ ?_, ?_⟩
  · rw [flag]
    exact stamped
  · rw [flag]
    exact admitted head heads
  · rw [Rule.headTuple_single heads]
    rfl

theorem exists_deletion (simple : r.Simple) (member : a ∈ r.body) (reads : a.relation? = some source) :
    ∃ changed ∈ changesOf deleting scc recursive (recursive && scc.contains source) r,
      ∀ (db : Tables D) (e : Entry D), r.Supports I (db.facts .base) θ → e ∈ db source .deletion →
        e.tuple = a.tuple I θ →
        ((recursive && scc.contains source) = true → e.stamp = some (k - 1)) →
        r.headTuple I θ ∈ (changed.runOn I catalog k db).facts .deletion r.headRelation := by
  obtain ⟨changed, group, follows⟩ := @exists_change _ I catalog k deleting scc recursive r a source θ
    simple member reads
  refine ⟨changed, group, fun db e supported stored same stamped => ?_⟩
  by_cases old : r.headTuple I θ ∈ db.facts .deletion r.headRelation
  · obtain ⟨e, there, same⟩ := old
    exact ⟨e, (Rule.runOn_derive (changesOf_action simple group)).mpr (.inl there), same⟩
  · refine ⟨_, (Rule.runOn_derive (changesOf_action simple group)).mpr
      (.inr (follows db e supported stored same stamped ?_)), rfl⟩
    intro head heads x excluded
    obtain ⟨head', heads', named, -⟩ := simple.single
    cases heads.symm.trans heads'
    unfold exclusion at excluded
    simp only [deleting] at excluded
    split at excluded
    · cases List.mem_singleton.mp excluded
      have named' : ((head.withKind .deletion).negate).relation? = some r.headRelation := named
      rw [Atom.holds_unguarded named', Atom.tuple_negate, Atom.tuple_withKind,
        ← Rule.headTuple_single heads]
      exact old
    · cases excluded

theorem exists_insertion (simple : r.Simple) (member : a ∈ r.body) (reads : a.relation? = some source) :
    ∃ changed ∈ changesOf inserting scc recursive (recursive && scc.contains source) r,
      ∀ (db : Tables D) (e : Entry D), r.Supports I (db.facts .base) θ → e ∈ db source .insertion →
        e.tuple = a.tuple I θ → ((recursive && scc.contains source) = true → e.stamp = some k) →
        r.headTuple I θ ∈ db.facts .base r.headRelation ∨
          ⟨r.headTuple I θ, changed.headStamp catalog k r.headRelation .insertion⟩ ∈
            changed.runOn I catalog k db r.headRelation .insertion := by
  obtain ⟨changed, group, follows⟩ := @exists_change _ I catalog k inserting scc recursive r a source θ
    simple member reads
  refine ⟨changed, group, fun db e supported stored same stamped => ?_⟩
  refine Classical.or_iff_not_imp_left.mpr fun new => ?_
  refine (Rule.runOn_derive (changesOf_action simple group)).mpr
    (.inr (follows db e supported stored same (fun flag => ?_) ?_))
  · rw [stamped flag]
    exact congrArg some (Int.add_zero k).symm
  · intro head heads x excluded
    obtain ⟨head', heads', named, kind⟩ := simple.single
    cases heads.symm.trans heads'
    cases List.mem_singleton.mp excluded
    have named' : head.negate.relation? = some r.headRelation := named
    rw [Atom.holds_unguarded named', Atom.tuple_negate, ← Rule.headTuple_single heads]
    rw [show head.negate.kind = .base from kind]
    exact new

end Groups

end Maintenance

end PeerExchange
