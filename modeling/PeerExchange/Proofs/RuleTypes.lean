import PeerExchange.Proofs.Compiled
import PeerExchange.Catalog

namespace PeerExchange

namespace Catalog

variable {c : Catalog} {mapping relation : String} {uses uses' : List Use} {arg : Term}
  {column : Column} {a : Atom}

def Grows (uses uses' : List Use) : Prop :=
  ∀ x use, uses.find? (·.name = x) = some use → uses'.find? (·.name = x) = some use

def Recorded (uses : List Use) : Term → Column → Prop
  | .variable v, column => ∃ use, uses.find? (·.name = v.name) = some use ∧ use.type = column.type
  | .constant _ literal, column => ∀ type, literal.type? = some type → type = column.type
  | .skolem _ _, _ => True

theorem Grows.trans {uses'' : List Use} (first : Grows uses uses') (second : Grows uses' uses'') :
    Grows uses uses'' :=
  fun x use found => second x use (first x use found)

theorem Recorded.grown (grows : Grows uses uses') (recorded : Recorded uses arg column) :
    Recorded uses' arg column := by
  cases arg with
  | «variable» v =>
    obtain ⟨use, found, same⟩ := recorded
    exact ⟨use, grows v.name use found, same⟩
  | constant type literal => exact recorded
  | skolem function args => trivial

theorem checkArg_records (ran : checkArg mapping relation uses arg column = .ok uses') :
    Grows uses uses' ∧ Recorded uses' arg column := by
  unfold checkArg at ran
  dsimp only at ran
  split at ran
  · rename_i own literal
    split at ran
    · rename_i type known
      split at ran
      · rename_i same
        cases ran
        refine ⟨fun _ _ found => found, fun other given => ?_⟩
        rw [known] at given
        cases given
        exact same
      · cases ran
    · rename_i unknown
      cases ran
      refine ⟨fun _ _ found => found, fun other given => ?_⟩
      rw [unknown] at given
      cases given
  · rename_i v
    split at ran
    · rename_i first found
      split at ran
      · rename_i same
        cases ran
        exact ⟨fun _ _ found => found, first, found, same⟩
      · cases ran
    · rename_i unseen
      cases ran
      refine ⟨fun x use found => ?_, _, List.find?_cons_of_pos (decide_eq_true rfl), rfl⟩
      rw [List.find?_cons_of_neg]
      · exact found
      · intro same
        have named : v.name = x := of_decide_eq_true same
        rw [named, found] at unseen
        cases unseen
  · cases ran
    exact ⟨fun _ _ found => found, trivial⟩

-- An atom over a relation has arguments of the types of its columns, one over a built-in as many as
-- it takes, and integers fit.
structure Checked (c : Catalog) (uses : List Use) (a : Atom) : Prop where
  integers : ∀ own n, Term.constant own (.integer n) ∈ a.args → fitsWord n = true
  known : ∀ name, a.relation? = some name →
    ∃ r, c.relations.get? name = some r ∧ a.args.length = r.arity
  arity : ∀ op, a.builtin? = some op → a.args.length = op.arity
  recorded : ∀ name r, a.relation? = some name → c.relations.get? name = some r →
    ∀ place ∈ a.args.zip r.columns, Recorded uses place.1 place.2

theorem checkAtom_checks (ran : c.checkAtom mapping uses a = .ok uses') :
    Grows uses uses' ∧ c.Checked uses' a := by
  obtain ⟨⟨⟩, integers, ran⟩ := Compiled.bind_ok.mp ran
  have fits (own : Option ColumnType) (n : Int) (inside : Term.constant own (.integer n) ∈ a.args) :
      fitsWord n = true := by
    have checked := Compiled.forM_ok integers _ inside
    by_contra large
    simp [Literal.tooLarge?, large] at checked
  split at ran
  · rename_i op builtin
    split at ran
    · rename_i arity
      cases ran
      have none : a.relation? = none := by rw [Atom.relation?, builtin]
      have called : a.builtin? = some op := by rw [Atom.builtin?, builtin]
      exact ⟨fun _ _ found => found, fits, fun name named => absurd (none ▸ named) nofun,
        fun other same => Option.some.inj (called.symm.trans same) ▸ arity,
        fun name r named => absurd (none ▸ named) nofun⟩
    · cases ran
  · rename_i name relation
    obtain ⟨r, known, ran⟩ := Compiled.bind_ok.mp ran
    split at ran
    · rename_i arity
      obtain ⟨grows, recorded⟩ := @Compiled.foldlM_keeps (Term × Column) (List Use) _ Grows
        (fun uses place => Recorded uses place.1 place.2) (fun _ _ _ found => found) Grows.trans
        (fun grows recorded => recorded.grown grows) checkArg_records _ _ _ ran
      have present : c.relations.get? name = some r := by
        unfold Catalog.relation at known
        split at known
        · rename_i found
          cases known
          exact found
        · cases known
      have only : a.relation? = some name := by rw [Atom.relation?, relation]
      refine ⟨grows, fits, fun other named => ?_, fun op called => ?_, fun other r' named found => ?_⟩
      · cases only.symm.trans named
        exact ⟨r, present, arity⟩
      · rw [Atom.builtin?, relation] at called
        cases called
      · cases only.symm.trans named
        cases present.symm.trans found
        exact recorded
    · cases ran

theorem Checked.grown (grows : Grows uses uses') (checked : c.Checked uses a) : c.Checked uses' a where
  integers := checked.integers
  known := checked.known
  arity := checked.arity
  recorded name r named found place inside := (checked.recorded name r named found place inside).grown grows

theorem validateRule_of_validate {m : Rule} (valid : c.validate = .ok ()) (member : m ∈ c.mappings) :
    c.validateRule m = .ok () := by
  obtain ⟨⟨⟩, -, valid⟩ := Compiled.bind_ok.mp valid
  split at valid
  · cases valid
  · exact Compiled.forM_ok valid m member

theorem validateRule_types {rule : Rule} (valid : c.validateRule rule = .ok ()) :
    ∃ uses, ∀ a ∈ rule.head ++ rule.body, c.Checked uses a := by
  unfold validateRule at valid
  split at valid
  · cases valid
  · cases ran : (rule.head ++ rule.body).foldlM (c.checkAtom rule.id) [] with
    | error cause =>
      rw [ran] at valid
      cases valid
    | ok uses =>
      have folded := @Compiled.foldlM_keeps Atom (List Use) _ Grows c.Checked (fun _ _ _ found => found)
        Grows.trans (fun grows checked => checked.grown grows) checkAtom_checks _ _ _ ran
      exact ⟨uses, folded.2⟩

end Catalog

end PeerExchange
