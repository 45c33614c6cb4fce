import PeerExchange.Proofs.Denotation
import PeerExchange.Proofs.JsonRecords

namespace PeerExchange

open Json

def IsPosition (n : Nat) : Prop := n < significandLimit

instance (n : Nat) : Decidable (IsPosition n) := inferInstanceAs (Decidable (_ < _))

namespace Literal

theorem lt_of_mem_wordDigits {n d : Nat} (inside : d ∈ wordDigits n) : d < 4294967296 := by
  induction n using wordDigits.induct with
  | case1 => simp [wordDigits] at inside
  | case2 n positive ih =>
    rw [wordDigits, if_neg positive] at inside
    rcases List.mem_cons.mp inside with rfl | later
    · omega
    · exact ih later

theorem ofWordDigits_wordDigits (n : Nat) : ofWordDigits (wordDigits n) = n := by
  induction n using wordDigits.induct with
  | case1 => simp [wordDigits, ofWordDigits]
  | case2 n positive ih =>
    rw [wordDigits, if_neg positive, ofWordDigits, ih]
    omega

theorem natAbs_sign_le (n : Int) : n.sign.natAbs ≤ 1 := by
  rcases Int.lt_trichotomy n 0 with negative | rfl | positive
  · rw [Int.sign_eq_neg_one_of_neg negative]
    decide
  · decide
  · rw [Int.sign_eq_one_of_pos positive]
    decide

theorem integer_whole (n : Int) : integerOfJson? (integerToJson n) = some n := by
  have sign : (int n.sign).intIn? (-1) 1 = some n.sign := by
    have bound := natAbs_sign_le n
    rw [intIn?, if_pos (by simp; omega)]
  have digits : list? (·.intIn? 0 4294967295) (list nat (wordDigits n.natAbs)) =
      some ((wordDigits n.natAbs).map Int.ofNat) := by
    have shown : (wordDigits n.natAbs).map nat = ((wordDigits n.natAbs).map Int.ofNat).map int :=
      List.map_map.symm
    rw [list, list?, shown]
    refine mapM_map_some fun d inside => ?_
    obtain ⟨d, listed, rfl⟩ := List.mem_map.mp inside
    have bound := lt_of_mem_wordDigits listed
    rw [intIn?, if_pos (by simp; omega)]
  simp only [integerToJson, integerOfJson?, sign, digits, Option.bind_eq_bind, Option.bind_some,
    List.map_map]
  have same : (wordDigits n.natAbs).map (Int.toNat ∘ Int.ofNat) = wordDigits n.natAbs := List.map_id _
  rw [same, ofWordDigits_wordDigits, Int.sign_mul_natAbs]
  rfl

theorem whole (l : Literal) (reading : Reading) : ofJson? reading l.toJson = some l := by
  cases l with
  | string s => rfl
  | integer n => exact congrArg (Option.map integer) (integer_whole n)
  | null => cases reading <;> rfl
  | labeledNull label => rfl

theorem isPlain_toJson (l : Literal) : l.toJson.isPlain = true := by
  cases l with
  | integer n =>
    have limit : significandLimit = 18446744073709551616 := rfl
    have sign := natAbs_sign_le n
    have digits : ∀ d ∈ wordDigits n.natAbs, (nat d).isPlain = true := fun d inside =>
      decide_eq_true (Nat.lt_trans (lt_of_mem_wordDigits inside) (by decide))
    simp only [toJson, integerToJson, list, isPlain, membersPlain, allPlain, allPlain_iff,
      List.forall_mem_map, Bool.and_eq_true, decide_eq_true_eq, and_true]
    exact ⟨by omega, digits⟩
  | _ => rfl

end Literal

theorem ColumnType.recovers (t : ColumnType) (reading : Reading) :
    Recovers toJson (ofJson? reading) t := by
  cases t <;> cases reading <;> exact recovers_shallow rfl rfl rfl

def Variable.InRange (v : Variable) : Prop := ∀ position ∈ v.skolem, IsPosition position

instance (v : Variable) : Decidable v.InRange :=
  inferInstanceAs (Decidable (∀ position ∈ v.skolem, IsPosition position))

def Term.InRange (t : Term) : Prop := ∀ v ∈ t.vars, v.InRange

instance (t : Term) : Decidable t.InRange := inferInstanceAs (Decidable (∀ v ∈ t.vars, v.InRange))

namespace Term

variable {t : Term} {v : Variable} {function : String} {args : List Term}

theorem toJsonAll_eq_map : toJsonAll args = args.map toJson := by
  induction args with
  | nil => rfl
  | cons a rest ih => rw [toJsonAll, ih, List.map_cons]

theorem inRange_args (inRange : (skolem function args).InRange) : ∀ a ∈ args, a.InRange :=
  fun a inside v present => inRange v (by
    rw [vars, variablesOf_eq_flatMap]
    exact List.mem_flatMap.mpr ⟨a, inside, present⟩)

theorem skolem_recovers (inRange : v.InRange) :
    Recovers (ofOption nat) (option? index?) v.skolem :=
  recovers_option (fun position same => recovers_index (inRange position same)) nofun

theorem type_recovers (type : Option ColumnType) :
    Recovers (ofOption ColumnType.toJson) (option? (ColumnType.ofJson? .held)) type :=
  recovers_option (fun t _ => t.recovers .held) fun t => by cases t <;> nofun

theorem isPlain_toJson (inRange : t.InRange) : t.toJson.isPlain = true := by
  induction t using structural with
  | onVariable v =>
    have skolem := (skolem_recovers (inRange v (List.mem_singleton.mpr rfl))).plain
    simp [toJson, Json.isPlain, membersPlain, skolem]
  | onConstant type value =>
    simp [toJson, Json.isPlain, membersPlain, (type_recovers type).plain, value.isPlain_toJson]
  | onSkolem function args ih =>
    have each : ∀ a ∈ args, a.toJson.isPlain = true := fun a inside =>
      ih a inside (inRange_args inRange a inside)
    simpa [toJson, Json.isPlain, membersPlain_iff, allPlain_iff, toJsonAll_eq_map] using each

def variableMembers (v : Variable) : List (String × Json) :=
  [("name", str v.name)] ++ member? v.existential "existential" (.bool true) ++
    member? v.skolem.isSome "skolem" (ofOption nat v.skolem)

def constantMembers (type : Option ColumnType) (value : Literal) : List (String × Json) :=
  member? type.isSome "ty" (ofOption ColumnType.toJson type) ++ [("value", value.toJson)]

def skolemMembers (function : String) (args : List Term) : List (String × Json) :=
  [("function", .str function), ("args", .arr (toJsonAll args))]

theorem placed_variable (v : Variable) :
    Placed (variableMembers v) ["name", "existential", "skolem"] :=
  (placed_all _).member.member

theorem placed_constant (type : Option ColumnType) (value : Literal) :
    Placed (constantMembers type value) ["ty", "value"] := placed_member.append (placed_all _)

theorem placed_skolem (function : String) (args : List Term) :
    Placed (skolemMembers function args) ["function", "args"] := placed_all _

theorem variable_whole (inRange : v.InRange) :
    variableOfJson? (obj (variableMembers v)) = some (.variable v) := by
  rw [variableOfJson?, fields?_of_placed (placed_variable v) (by decide)]
  simp [need?_eq, needD?_eq, variableMembers, member?_flag, ite_elim, (recovers_str _).whole,
    (recovers_bool _).whole, (skolem_recovers inRange).whole, ite_present]

theorem constant_whole (type : Option ColumnType) (value : Literal) :
    constantOfJson? (obj (constantMembers type value)) = some (.constant type value) := by
  rw [constantOfJson?, fields?_of_placed (placed_constant type value) (by decide)]
  simp [need?_eq, needD?_eq, constantMembers, ite_elim, (type_recovers type).whole, value.whole,
    ite_present]

theorem depth_arg {a : Term} {fuel : Nat} (inside : a ∈ args)
    (enough : (skolem function args).toJson.depth < fuel + 1) : a.toJson.depth < fuel := by
  have each := depthAll_le_iff.mp (Nat.le_refl (depthAll (args.map toJson))) _ (List.mem_map_of_mem inside)
  simp only [toJson, depth, depthMembers, toJsonAll_eq_map] at enough
  omega

theorem whole (inRange : t.InRange) (reading : Reading) {fuel : Nat} (enough : t.toJson.depth < fuel) :
    ofJsonWithin? reading fuel t.toJson = some t := by
  have readable := isReadable_of_isPlain (isPlain_toJson inRange)
  induction t using structural generalizing reading fuel with
  | onVariable v =>
    match fuel with
    | fuel + 1 =>
      have kind : tagged? reading "type" ["variable", "const", "skolem"] (toJson (.variable v)) =
        some ("variable", obj (variableMembers v)) :=
          tagged?_record readable (placed_variable v) (by decide)
      simp [ofJsonWithin?, kind, variable_whole (inRange v (List.mem_singleton.mpr rfl))]
  | onConstant type value =>
    match fuel with
    | fuel + 1 =>
      have kind : tagged? reading "type" ["variable", "const", "skolem"] (toJson (.constant type value)) =
        some ("const", obj (constantMembers type value)) :=
          tagged?_record readable (placed_constant type value) (by decide)
      simp [ofJsonWithin?, kind, constant_whole type value]
  | onSkolem function args ih =>
    match fuel with
    | fuel + 1 =>
      have kind : tagged? reading "type" ["variable", "const", "skolem"] (toJson (.skolem function args)) =
        some ("skolem", obj (skolemMembers function args)) :=
          tagged?_record readable (placed_skolem function args) (by decide)
      have each : ∀ a ∈ args, ofJsonWithin? .held fuel a.toJson = some a := fun a inside => by
        have inner := inRange_args inRange a inside
        exact ih a inside inner .held (depth_arg inside enough)
          (isReadable_of_isPlain (isPlain_toJson inner))
      have all : list? (ofJsonWithin? .held fuel) (arr (toJsonAll args)) = some args := by
        rw [toJsonAll_eq_map]
        exact mapM_map_some each
      have fields := fields?_of_placed (placed_skolem function args) (by decide)
      rw [skolemMembers] at kind fields
      simp [ofJsonWithin?, kind, fields, need?_eq, (recovers_str _).whole, all]

theorem recovers (inRange : t.InRange) : Recovers toJson (ofJson? .direct) t := by
  refine recovers_held (isPlain_toJson inRange) (whole inRange .direct (Nat.lt_succ_self _)) ?_
  intro j unreadable
  simp [ofJson?, ofJsonWithin?, tagged?_unreadable unreadable]

end Term

theorem Builtin.recovers (op : Builtin) : Recovers toJson ofJson? op := by
  cases op <;> exact recovers_shallow rfl rfl rfl

theorem TableKind.recovers (kind : TableKind) : Recovers toJson ofJson? kind := by
  cases kind <;> exact recovers_shallow rfl rfl rfl

theorem Action.recovers (action : Action) : Recovers toJson ofJson? action := by
  cases action <;> exact recovers_shallow rfl rfl rfl

theorem Predicate.recovers (p : Predicate) : Recovers toJson ofJson? p := by
  cases p with
  | relation name => exact recovers_variant (recovers_str name) rfl (fun _ => rfl) rfl
  | builtin op => exact recovers_variant op.recovers rfl (fun _ => rfl) rfl

def Atom.InRange (a : Atom) : Prop := ∀ t ∈ a.args, t.InRange

instance (a : Atom) : Decidable a.InRange := inferInstanceAs (Decidable (∀ t ∈ a.args, t.InRange))

theorem Atom.recovers {a : Atom} (inRange : a.InRange) : Recovers toJson ofJson? a := by
  have args := recovers_list fun t inside => Term.recovers (inRange t inside)
  refine recovers_record (by decide) rfl (placed_all _).member.member ?_ fun n => ?_
  · simp [membersPlain, isPlain, a.predicate.recovers.plain, a.kind.recovers.plain, args.plain]
  · simp [need?_eq, needD?_eq, member?_flag, ite_elim, cutMembers, ite_bind, ite_and, ite_usual,
      a.predicate.recovers.read, a.kind.recovers.read, args.read, (recovers_bool _).read]

def Guard.InRange (g : Guard) : Prop := IsPosition g.position ∧ fitsWord g.offset = true

instance (g : Guard) : Decidable g.InRange := inferInstanceAs (Decidable (_ ∧ _))

theorem Guard.recovers {g : Guard} (inRange : g.InRange) : Recovers toJson ofJson? g := by
  have position := recovers_index inRange.1
  have offset := recovers_word inRange.2
  refine recovers_record (by decide) rfl (placed_all _) ?_ fun n => ?_
  · simp [membersPlain, position.plain, offset.plain]
  · simp [need?_eq, cutMembers, position.read, offset.read, ite_bind, ite_and]

def Stamp.InRange : Stamp → Prop
  | fixed value => fitsWord value = true
  | iteration offset => fitsWord offset = true

instance : (s : Stamp) → Decidable s.InRange
  | .fixed value => inferInstanceAs (Decidable (fitsWord value = true))
  | .iteration offset => inferInstanceAs (Decidable (fitsWord offset = true))

theorem Stamp.recovers {s : Stamp} (inRange : s.InRange) : Recovers toJson ofJson? s := by
  cases s with
  | fixed value => exact recovers_variant (recovers_word inRange) rfl (fun _ => rfl) rfl
  | iteration offset => exact recovers_variant (recovers_word inRange) rfl (fun _ => rfl) rfl

def Invention.InRange (i : Invention) : Prop := ∀ t ∈ i.args, t.InRange

instance (i : Invention) : Decidable i.InRange := inferInstanceAs (Decidable (∀ t ∈ i.args, t.InRange))

namespace Invention

def termToJson (i : Invention) : Json :=
  .obj [("function", .str i.function), ("args", .list Term.toJson i.args)]

def termOfJson? (name : String) (j : Json) : Option Invention := do
  let fields ← j.fields? ["function", "args"]
  let function ← need? fields "function" str?
  let args ← need? fields "args" (list? (Term.ofJson? .direct))
  return ⟨name, function, args⟩

theorem ofJson?_eq : ofJson? = fun j => (fields? ["variable", "term"] j).bind fun fields =>
    (need? fields "variable" str?).bind fun name => (need? fields "term" some).bind (termOfJson? name) :=
  rfl

variable {i : Invention}

theorem term_recovers (inRange : i.InRange) : Recovers termToJson (termOfJson? i.variableName) i := by
  have args := recovers_list fun t inside => Term.recovers (inRange t inside)
  refine recovers_record (by decide) rfl (placed_all _) ?_ fun n => ?_
  · simp [membersPlain, (recovers_str _).plain, args.plain]
  · simp [need?_eq, cutMembers, (recovers_str _).read, args.read, ite_bind, ite_and]

theorem recovers (inRange : i.InRange) : Recovers toJson ofJson? i := by
  have term := term_recovers inRange
  have encoded : i.toJson = obj [("variable", str i.variableName), ("term", i.termToJson)] := rfl
  rw [ofJson?_eq]
  refine recovers_record (by decide) encoded (placed_all _) ?_ fun n => ?_
  · simp [membersPlain, (recovers_str _).plain, term.plain]
  · simp [need?_eq, cutMembers, (recovers_str _).read, term.read, ite_bind, ite_and]

end Invention

-- Every machine integer in a rule is one: positions, offsets and stamps.
structure Rule.InRange (r : Rule) : Prop where
  head : ∀ a ∈ r.head, a.InRange
  body : ∀ a ∈ r.body, a.InRange
  guard : ∀ g ∈ r.guard, g.InRange
  stamp : ∀ s ∈ r.stamp, s.InRange
  inventions : ∀ i ∈ r.inventions, i.InRange

theorem Rule.recovers {r : Rule} (inRange : r.InRange) : Recovers toJson ofJson? r := by
  have head := recovers_list fun a inside => Atom.recovers (inRange.head a inside)
  have body := recovers_list fun a inside => Atom.recovers (inRange.body a inside)
  have provenance := recovers_option (o := r.provenance) (fun name _ => recovers_str name) nofun
  have parent := recovers_option (o := r.parent) (fun name _ => recovers_str name) nofun
  have guard := recovers_option (fun g same => Guard.recovers (inRange.guard g same)) nofun
  have stamp := recovers_option (fun s same => Stamp.recovers (inRange.stamp s same)) fun s => by
    cases s <;> nofun
  have inventions := recovers_list fun i inside => Invention.recovers (inRange.inventions i inside)
  refine recovers_record (by decide) rfl ((placed_all _).member.member.member.member.append
    (placed_all _)).member.member.member.member.member ?_ fun n => ?_
  · simp [membersPlain, isPlain, head.plain, body.plain, provenance.plain, parent.plain,
      r.action.recovers.plain, guard.plain, stamp.plain, inventions.plain]
  · have usual : (!r.inventions.isEmpty) = false → r.inventions = [] := by simp
    generalize (!r.inventions.isEmpty) = present at usual ⊢
    simp [need?_eq, needD?_eq, member?_flag, ite_elim, cutMembers, ite_bind, ite_and, ite_usual,
      ite_usual usual, head.read, body.read, provenance.read, parent.read, r.action.recovers.read,
      guard.read, stamp.read, inventions.read, (recovers_str _).read, (recovers_bool _).read]

end PeerExchange
