import Mathlib.Data.Set.Finite.List
import PeerExchange.Proofs.MaintenanceRules
import PeerExchange.Proofs.SafeMappings

namespace PeerExchange

variable {D : Type} {I : Interpretation D}

-- Built-ins that make no values: what they compute is one of their inputs.
structure Interpretation.Selects (I : Interpretation D) : Prop where
  equal : ∀ left right more, I.holds .eq (left :: right :: more) → left = right
  selected : ∀ op, op.isFunction = true → ∀ output inputs,
    I.holds op (output :: inputs) → output ∈ inputs

-- A rule without Skolem terms, and without definitions of any.
structure Rule.SkolemFree (r : Rule) : Prop where
  inventions : r.inventions = []
  flat : ∀ a ∈ r.head ++ r.body, ∀ t ∈ a.args, ¬ t.IsSkolem
  unmarked : ∀ a ∈ r.head ++ r.body, ∀ v ∈ a.vars, v.skolem = none

namespace Tables

-- All tables together hold finitely many entries.
def IsFinite (db : Tables D) : Prop :=
  {place : String × TableKind × Entry D | place.2.2 ∈ db place.1 place.2.1}.Finite

def tuples (db : Tables D) : Set (List D) := {t | ∃ name kind, t ∈ db.facts kind name}

theorem IsFinite.tuples {db : Tables D} (finite : db.IsFinite) : db.tuples.Finite := by
  refine (finite.image fun place => place.2.2.tuple).subset ?_
  rintro _ ⟨name, kind, e, stored, rfl⟩
  exact ⟨(name, kind, e), stored, rfl⟩

def Within (pool : Set (List D)) (db : Tables D) : Prop :=
  ∀ name kind, ∀ e ∈ db name kind, e.tuple ∈ pool

end Tables

def tuplesOver (values : Set D) (length : Nat) : Set (List D) :=
  {t | t.length = length ∧ ∀ v ∈ t, v ∈ values}

theorem finite_tuplesOver {values : Set D} (finite : values.Finite) (length : Nat) :
    (tuplesOver values length).Finite := by
  have : Finite values := finite
  refine ((List.finite_length_eq values length).image (List.map Subtype.val)).subset ?_
  rintro t ⟨rfl, inside⟩
  exact ⟨t.attachWith (· ∈ values) inside, by simp, by simp⟩

namespace Rule

variable {r : Rule} {rules : List Rule} {θ : Valuation D} {pool : Set (List D)} {values : Set D}

def terms (r : Rule) : List Term := (r.head ++ r.body).flatMap Atom.args

def constants (I : Interpretation D) (r : Rule) : List D :=
  r.terms.filterMap fun
    | .constant type value => some (I.constant type value)
    | _ => none

def width (r : Rule) : Nat := (r.head?.map (·.args.length)).getD 0

theorem length_headTuple : (r.headTuple I θ).length = r.width := by
  unfold headTuple width
  cases r.head? <;> simp [Atom.tuple]

theorem denote_mem (free : r.SkolemFree) (known : ∀ v ∈ r.constants I, v ∈ values) {a : Atom}
    (inside : a ∈ r.head ++ r.body) {t : Term} (arg : t ∈ a.args)
    (bound : ∀ v ∈ t.vars, θ v.name ∈ values) : t.denote I θ ∈ values := by
  cases t with
  | «variable» v => exact bound v (List.mem_singleton_self v)
  | constant type value =>
    refine known _ (List.mem_filterMap.mpr ⟨.constant type value, ?_, rfl⟩)
    exact List.mem_flatMap.mpr ⟨a, inside, arg⟩
  | skolem function args => exact absurd trivial (free.flat a inside _ arg)

theorem closed_values (selects : I.Selects) (free : r.SkolemFree)
    (known : ∀ v ∈ r.constants I, v ∈ values) (pooled : ∀ t ∈ pool, ∀ v ∈ t, v ∈ values)
    (supported : r.Supports I (fun _ => pool) θ) : Closed r.body fun name => θ name ∈ values where
  joined a inside positive name mentioned := by
    obtain ⟨source, reads⟩ := Option.isSome_iff_exists.mp (Bool.and_eq_true _ _ ▸ positive : _ ∧ _).2
    obtain ⟨t, arg, v, within, rfl⟩ := Atom.mem_variableNames.mp mentioned
    have member := pooled _ (supported.joined a inside source reads) _ (List.mem_map_of_mem arg)
    cases t with
    | «variable» w =>
      cases List.mem_singleton.mp within
      exact member
    | constant type value => cases within
    | skolem function args =>
      exact absurd trivial (free.flat a (List.mem_append_right _ inside) _ arg)
  determined a inside _ inputs name determines bound := by
    have value (t : Term) (input : t ∈ inputs) : t.denote I θ ∈ values :=
      denote_mem free known (List.mem_append_right _ inside) (determines.inputs_subset input)
        (bound t input)
    cases determines with
    | output called function args =>
      have holds := supported.tested a inside _ called
      rw [Atom.tuple, args] at holds
      obtain ⟨t, input, same⟩ := List.mem_map.mp (selects.selected _ function _ _ holds)
      have member := value t input
      rwa [same] at member
    | left equation args =>
      have holds := supported.tested a inside _ equation
      rw [Atom.tuple, args] at holds
      have member := value _ (List.mem_singleton_self _)
      rwa [← selects.equal _ _ _ holds] at member
    | right equation args =>
      have holds := supported.tested a inside _ equation
      rw [Atom.tuple, args] at holds
      have member := value _ (List.mem_singleton_self _)
      rwa [selects.equal _ _ _ holds] at member

theorem headTuple_mem (selects : I.Selects) (free : r.SkolemFree) (simple : r.Simple)
    (safe : r.checkSafety = .ok ()) (known : ∀ v ∈ r.constants I, v ∈ values)
    (pooled : ∀ t ∈ pool, ∀ v ∈ t, v ∈ values) (supported : r.Supports I (fun _ => pool) θ) :
    r.headTuple I θ ∈ tuplesOver values r.width := by
  obtain ⟨head, heads, -, -⟩ := simple.single
  refine ⟨length_headTuple, fun v member => ?_⟩
  rw [headTuple_single heads] at member
  obtain ⟨t, arg, rfl⟩ := List.mem_map.mp member
  have inside : head ∈ r.head ++ r.body := by simp [heads]
  refine denote_mem free known inside arg fun v within => ?_
  have mentioned : v ∈ head.vars := List.mem_flatMap.mpr ⟨t, arg, within⟩
  have needed : v ∈ r.neededVariables := by
    refine List.mem_append_left _ (List.mem_flatMap.mpr ⟨head, ?_, mentioned⟩)
    simp [heads]
  exact (closed_values selects free known pooled supported).binds
    (checkSafety_ok safe v needed (free.unmarked head inside v mentioned))

end Rule

def IsPool (I : Interpretation D) (rules : List Rule) (pool : Set (List D)) : Prop :=
  ∀ r ∈ rules, ∀ θ, r.Supports I (fun _ => pool) θ → r.headTuple I θ ∈ pool

theorem exists_pool {rules : List Rule} {db : Tables D} (selects : I.Selects)
    (free : ∀ r ∈ rules, r.SkolemFree) (simple : ∀ r ∈ rules, r.Simple)
    (safe : ∀ r ∈ rules, r.checkSafety = .ok ()) (finite : db.IsFinite) :
    ∃ pool : Set (List D), pool.Finite ∧ IsPool I rules pool ∧ db.Within pool := by
  let values : Set D := {v | ∃ t ∈ db.tuples, v ∈ t} ∪ {v | v ∈ rules.flatMap (Rule.constants I)}
  have listed : values.Finite :=
    (finite.tuples.biUnion fun t _ => t.finite_toSet).subset (by
      rintro v ⟨t, there, inside⟩
      exact Set.mem_biUnion there inside) |>.union (List.finite_toSet _)
  refine ⟨db.tuples ∪ {t | ∃ r ∈ rules, t ∈ tuplesOver values r.width}, ?_, ?_, ?_⟩
  · refine finite.tuples.union ((rules.finite_toSet.biUnion fun r _ =>
      finite_tuplesOver listed r.width).subset ?_)
    rintro t ⟨r, member, spelled⟩
    exact Set.mem_biUnion (show r ∈ {r | r ∈ rules} from member) spelled
  · intro r member θ supported
    refine .inr ⟨r, member, Rule.headTuple_mem selects (free r member) (simple r member)
      (safe r member) ?_ ?_ supported⟩
    · exact fun v inside => .inr (List.mem_flatMap.mpr ⟨r, member, inside⟩)
    · rintro t (there | ⟨_, _, spelled⟩) v inside
      · exact .inl ⟨t, there, inside⟩
      · exact spelled.2 v inside
  · exact fun name kind e stored => .inl ⟨name, kind, e, stored, rfl⟩

end PeerExchange
