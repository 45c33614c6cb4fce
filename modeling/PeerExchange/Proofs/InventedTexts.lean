import Mathlib
import PeerExchange.Compilation
import PeerExchange.Proofs.InventedValues
import PeerExchange.Proofs.LoweredTerms

namespace PeerExchange

open Sql (Value World)

section Separators

variable {α : Type} [BEq α] [LawfulBEq α] {c : α}

theorem append_separator_inj {s t u v : List α} (counts : s.count c = t.count c)
    (same : s ++ c :: u = t ++ c :: v) : s = t ∧ u = v := by
  induction s generalizing t with
  | nil =>
    cases t with
    | nil => exact ⟨rfl, (List.cons.inj same).2⟩
    | cons b t =>
      obtain ⟨rfl, -⟩ := List.cons.inj same
      simp at counts
  | cons a s ih =>
    cases t with
    | nil =>
      obtain ⟨rfl, -⟩ := List.cons.inj same
      simp at counts
    | cons b t =>
      obtain ⟨rfl, later⟩ := List.cons.inj same
      obtain ⟨rfl, rfl⟩ := ih (by simpa [List.count_cons] using counts) later
      exact ⟨rfl, rfl⟩

theorem intercalate_inj {ss ts : List (List α)} (length : ss.length = ts.length)
    (counts : ss.map (List.count c) = ts.map (List.count c))
    (same : [c].intercalate ss = [c].intercalate ts) : ss = ts := by
  induction ss generalizing ts with
  | nil => exact (List.eq_nil_of_length_eq_zero length.symm).symm
  | cons s ss ih =>
    obtain ⟨t, ts, rfl⟩ := List.exists_cons_of_length_eq_add_one length.symm
    obtain ⟨first, later⟩ := List.cons.inj counts
    have rest := Nat.succ.inj length
    cases ss with
    | nil =>
      obtain rfl := List.eq_nil_of_length_eq_zero rest.symm
      simpa using same
    | cons s' ss =>
      obtain ⟨t', ts, rfl⟩ := List.exists_cons_of_length_eq_add_one rest.symm
      rw [List.intercalate_cons_cons, List.intercalate_cons_cons] at same
      obtain ⟨rfl, following⟩ := append_separator_inj first (by simpa using same)
      rw [ih rest later following]

theorem count_intercalate {ss : List (List α)} :
    ([c].intercalate ss).count c = (ss.map (List.count c)).sum + (ss.length - 1) := by
  induction ss with
  | nil => simp
  | cons s ss ih =>
    cases ss with
    | nil => simp
    | cons t ss =>
      rw [List.intercalate_cons_cons, List.count_append, List.count_append, ih]
      simp
      omega

end Separators

theorem eq_of_sum {ns ms : List Nat} {j : Nat} (length : ns.length = ms.length)
    (others : ∀ k, k ≠ j → ns[k]? = ms[k]?) (sum : ns.sum = ms.sum) : ns = ms := by
  induction ns generalizing ms j with
  | nil => exact (List.eq_nil_of_length_eq_zero length.symm).symm
  | cons n ns ih =>
    obtain ⟨m, ms, rfl⟩ := List.exists_cons_of_length_eq_add_one length.symm
    rw [List.sum_cons, List.sum_cons] at sum
    cases j with
    | zero =>
      have rest : ns = ms := List.ext_getElem? fun k => by simpa using others (k + 1) (by omega)
      subst rest
      rw [Nat.add_right_cancel sum]
    | succ j =>
      have first : n = m := by simpa using others 0 (by omega)
      subst first
      have rest : ∀ k, k ≠ j → ns[k]? = ms[k]? := fun k differ => by
        simpa using others (k + 1) (by omega)
      rw [ih (Nat.succ.inj length) rest (Nat.add_left_cancel sum)]

namespace RowSemantics

variable {width : Nat} {v : Value} {values : List Value} {texts : List String}

-- The text of a value that an invented one has as it is: short enough, and nothing in it ends a text.
structure Kept (width : Nat) (v : Value) (s : String) : Prop where
  text : v.toText? = some s
  short : s.length ≤ width
  whole : '\x00' ∉ s.toList

theorem Kept.part {s : String} (kept : Kept width v s) (narrow : width < 2 ^ 31) :
    inventedPart width v = .text s := by
  have cast : v.cast .text = .text s := by rw [Value.cast, kept.text]; rfl
  have signed : Lowering.signedWidth width = width := by
    exact Int.bmod_eq_of_le (by omega) (by omega)
  have fits : fitsWord width = true := by
    rw [fitsWord, Bool.and_eq_true, decide_eq_true_eq, decide_eq_true_eq]
    omega
  have short : Sql.Function.shortLength width = width := by
    rw [Sql.Function.shortLength, Int.bmod_eq_of_le (by omega) (by omega), Int.toNat_natCast]
  have cut : Sql.Function.substr.apply [.text s, .integer 1, .integer width] = .text s := by
    change Value.text (String.ofList (((s.toList.takeWhile (· ≠ '\x00')).drop 0).take
      (Sql.Function.shortLength width))) = _
    have all : s.toList.takeWhile (· ≠ '\x00') = s.toList :=
      List.takeWhile_eq_self_iff.mpr fun c inside =>
        decide_eq_true fun same => kept.whole (same ▸ inside)
    rw [all, List.drop_zero, short, List.take_of_length_le (String.length_toList ▸ kept.short),
      String.ofList_toList]
  rw [inventedPart, cast, signed, Value.ofInteger, if_pos fits, cut]
  rfl

theorem inventedText_kept (function : String) (kept : List.Forall₂ (Kept width) values texts)
    (narrow : width < 2 ^ 31) :
    ∃ s, inventedText width function values = .text s ∧ s.toList =
      function.toList ++ '(' :: ([','].intercalate (texts.map String.toList) ++ [')']) := by
  have parts : values.map (inventedPart width) = texts.map Value.text := by
    induction kept with
    | nil => rfl
    | cons here _ ih => rw [List.map_cons, List.map_cons, ih, here.part narrow]
  have joined : inventedText width function values =
      Sql.concatenate (([function ++ "("] ++ texts.intersperse "," ++ [")"]).map Value.text) := by
    rw [inventedText, parts, List.map_append, List.map_append, Lowering.map_intersperse]
    rfl
  have concatenated (pieces : List String) :
      Sql.concatenate (pieces.map Value.text) = .text (String.join pieces) := by
    have texts : (pieces.map Value.text).mapM Value.toText? = some pieces := by
      induction pieces with
      | nil => rfl
      | cons first rest ih => rw [List.map_cons, List.mapM_cons, ih]; rfl
    rw [Sql.concatenate, texts]
  refine ⟨_, joined.trans (concatenated _), ?_⟩
  have inside : (texts.intersperse ",").flatMap String.toList =
      [','].intercalate (texts.map String.toList) := by
    rw [List.flatMap_def, Lowering.map_intersperse, List.intercalate]
    rfl
  rw [String.toList_join, List.flatMap_append, List.flatMap_append, inside, List.flatMap_singleton,
    List.flatMap_singleton, String.toList_append, List.append_assoc, List.append_assoc]
  rfl

end RowSemantics

namespace Rule

-- The inventions that skolemizing a rule adds.
def created (r : Rule) : List Invention := r.skolemize.inventions.drop r.inventions.length

variable {r : Rule} {i j : Invention}

theorem created_eq (r : Rule) : r.created =
    r.undefinedNames.map fun name => ⟨name, r.id ++ "_" ++ name, r.inventionInputs⟩ := by
  rw [created, inventions_skolemize, List.drop_left]

theorem created_inj (first : i ∈ r.created) (second : j ∈ r.created)
    (same : i.function = j.function) : i = j := by
  rw [created_eq] at first second
  obtain ⟨x, -, rfl⟩ := List.mem_map.mp first
  obtain ⟨y, -, rfl⟩ := List.mem_map.mp second
  obtain rfl : x = y := by simpa [String.append_right_inj] using same
  rfl

end Rule

namespace Lowering

variable {config : Config} {i : Invention}

theorem valuesWith_eq {ctx : Context} {bindings : Bindings} {invention : Variable → Compiled Binding}
    {args : List Term} {es : List Sql.Expr} {bs : List Binding}
    (lowered : valuesWith ctx bindings invention args = .ok es)
    (given : List.Forall₂ (fun t b => valueWith ctx bindings invention t = .ok b) args bs) :
    es = bs.map Binding.value := by
  induction given generalizing es with
  | nil =>
    cases lowered
    rfl
  | cons here _ ih =>
    obtain ⟨b, found, lowered⟩ := Compiled.bind_ok.mp lowered
    obtain ⟨others, later, lowered⟩ := Compiled.bind_ok.mp lowered
    cases lowered
    cases here.symm.trans found
    rw [List.map_cons, ih later]

-- The value of an invention in some statement, with the values of its arguments.
structure Evaluation (config : Config) (i : Invention) where
  ctx : Context
  bindings : Bindings
  world : World
  scope : Sql.Scope
  result : Binding
  arguments : List Binding
  configured : ctx.config = config
  invented : value ctx bindings i.term = .ok result
  given : List.Forall₂ (fun t b => value ctx bindings t = .ok b) i.args arguments

namespace Evaluation

def text (e : Evaluation config i) : Value := (e.result.value.eval e.world e.scope).value

def values (e : Evaluation config i) : List Value :=
  e.arguments.map fun b => (b.value.eval e.world e.scope).value

theorem text_eq (e : Evaluation config i) :
    e.text = RowSemantics.inventedText config.skolemWidth i.function e.values := by
  obtain ⟨es, each, made⟩ := Compiled.bind_ok.mp e.invented
  obtain rfl := valuesWith_eq each e.given
  have same := Except.ok.inj made
  rw [text, ← same, Binding.invented, eval_skolemExpr, e.configured, values, List.map_map]
  rfl

end Evaluation

end Lowering

namespace Mapping

open RowSemantics (Kept)

variable {catalog : Catalog} {config : Config} {trust : TrustPolicy} {m₁ m₂ : Rule}
  {i₁ i₂ : Invention} {texts₁ texts₂ : List String}

-- The mappings that are skolemized.
def inventing (catalog : Catalog) (config : Config) (trust : TrustPolicy) : List Rule :=
  withInverses config (trusted catalog trust)

def commas (s : String) : Nat := s.toList.count ','

-- Where the inventions have names of their own, equal values are of one invention, and of equal
-- arguments as soon as the commas are placed alike in all of them but one.
theorem invented_texts_tell (narrow : config.skolemWidth < 2 ^ 31)
    (distinct : ((inventing catalog config trust).flatMap fun m =>
      m.created.map Invention.function).Nodup)
    (plain : ∀ m ∈ inventing catalog config trust, ∀ i ∈ m.created, '(' ∉ i.function.toList)
    (given₁ : m₁ ∈ inventing catalog config trust) (given₂ : m₂ ∈ inventing catalog config trust)
    (created₁ : i₁ ∈ m₁.created) (created₂ : i₂ ∈ m₂.created)
    (e₁ : Lowering.Evaluation config i₁) (e₂ : Lowering.Evaluation config i₂)
    (kept₁ : List.Forall₂ (Kept config.skolemWidth) e₁.values texts₁)
    (kept₂ : List.Forall₂ (Kept config.skolemWidth) e₂.values texts₂) (same : e₁.text = e₂.text) :
    m₁ = m₂ ∧ i₁ = i₂ ∧
      (texts₁ = texts₂ ↔ ∃ j, ∀ k : Nat, k ≠ j → (texts₁[k]?).map commas = (texts₂[k]?).map commas) := by
  obtain ⟨s₁, text₁, chars₁⟩ := RowSemantics.inventedText_kept i₁.function kept₁ narrow
  obtain ⟨s₂, text₂, chars₂⟩ := RowSemantics.inventedText_kept i₂.function kept₂ narrow
  rw [e₁.text_eq, e₂.text_eq, text₁, text₂] at same
  obtain rfl := Value.text.inj same
  -- The name ends at the first parenthesis.
  have counts : i₁.function.toList.count '(' = i₂.function.toList.count '(' := by
    rw [List.count_eq_zero.mpr (plain m₁ given₁ i₁ created₁),
      List.count_eq_zero.mpr (plain m₂ given₂ i₂ created₂)]
  obtain ⟨names, joined⟩ := append_separator_inj counts (chars₁.symm.trans chars₂)
  have names : i₁.function = i₂.function := String.toList_inj.mp names
  have joined := List.append_cancel_right joined
  obtain rfl : m₁ = m₂ := by
    by_contra differ
    have symmetric : Std.Symm (Function.onFun List.Disjoint fun m : Rule =>
      m.created.map Invention.function) := ⟨fun _ _ apart => List.Disjoint.symm apart⟩
    exact (List.nodup_flatMap.mp distinct).2.forall given₁ given₂ differ
      (List.mem_map_of_mem created₁) (names ▸ List.mem_map_of_mem created₂)
  obtain rfl := Rule.created_inj created₁ created₂ names
  refine ⟨rfl, rfl, fun equal => ⟨0, fun _ _ => by rw [equal]⟩, fun ⟨j, others⟩ => ?_⟩
  have length : texts₁.length = texts₂.length := by
    rw [← kept₁.length_eq, ← kept₂.length_eq, Lowering.Evaluation.values, Lowering.Evaluation.values,
      List.length_map, List.length_map, ← e₁.given.length_eq, ← e₂.given.length_eq]
  -- The commas of the whole text are those of the arguments and those between them.
  have sums := congrArg (List.count ',') joined
  have counted (texts : List String) :
      (texts.map String.toList).map (List.count ',') = texts.map commas := List.map_map
  rw [count_intercalate, count_intercalate, counted, counted, List.length_map, List.length_map,
    length] at sums
  have counts : texts₁.map commas = texts₂.map commas := by
    refine eq_of_sum (j := j) (by rw [List.length_map, List.length_map, length]) (fun k differ => ?_) ?_
    · rw [List.getElem?_map, List.getElem?_map, others k differ]
    · exact Nat.add_right_cancel sums
  have chars := intercalate_inj (by rw [List.length_map, List.length_map, length])
    (by rw [counted, counted, counts]) joined
  exact List.map_injective_iff.mpr (fun _ _ => String.toList_inj.mp) chars

section Labels

def labelMapping (id name : String) : Rule := Rule.ofHead id
  (.ofRelation "T" [.var "x", .var "y", .var name]) [.ofRelation "R" [.var "x", .var "y"]]

def labelCatalog (mappings : List Rule) : Catalog where
  peers := [⟨"A", ["R", "T"]⟩]
  relations := .ofList [
    ("R", { name := "R", peer := some "A", columns := [⟨"a", .text, false⟩, ⟨"b", .text, false⟩] }),
    ("T", {
      name := "T"
      peer := some "A"
      columns := [⟨"a", .text, false⟩, ⟨"b", .text, false⟩, ⟨"c", .text, true⟩]
      labeledNulls := true })]
  mappings := mappings

def labelInvention (id name : String) : Invention :=
  ⟨name, id ++ "_" ++ name, [.var "x", .var "y"]⟩

def labelEvaluation (width : Nat) (id name : String) (first second : Sql.Expr) :
    Lowering.Evaluation { skolemWidth := width } (labelInvention id name) where
  ctx := ⟨labelCatalog [], { skolemWidth := width }, labelMapping id name, .prepared⟩
  bindings := (NameMap.empty.insert "x" ⟨first, none⟩).insert "y" ⟨second, none⟩
  world := ⟨.empty, 0⟩
  scope := []
  result := .invented (Lowering.skolemExpr width (id ++ "_" ++ name) [first, second])
  arguments := [⟨first, none⟩, ⟨second, none⟩]
  configured := rfl
  invented := rfl
  given := .cons rfl (.cons rfl .nil)

def labelOf (width : Nat) (id name first second : String) : Value :=
  (labelEvaluation width id name (.text first) (.text second)).text

theorem labelOf_eq (width : Nat) (id name first second : String) :
    labelOf width id name first second =
      RowSemantics.inventedText width (id ++ "_" ++ name) [.text first, .text second] :=
  (labelEvaluation width id name (.text first) (.text second)).text_eq

-- Texts that differ in where their comma is. It is placed apart in both arguments.
theorem invented_texts_tell_label : labelOf 64 "m" "n" "a,b" "c" = labelOf 64 "m" "n" "a" "b,c" ∧
    ¬∃ j, ∀ k : Nat, k ≠ j → (["a,b", "c"][k]?).map commas = (["a", "b,c"][k]?).map commas := by
  have same : labelOf 64 "m" "n" "a,b" "c" = labelOf 64 "m" "n" "a" "b,c" := by
    rw [labelOf_eq, labelOf_eq]
    rfl
  have alone : inventing (labelCatalog [labelMapping "m" "n"]) {} {} = [labelMapping "m" "n"] := by
    cbv
  have created : (labelMapping "m" "n").created = [labelInvention "m" "n"] := by cbv
  have inside : labelInvention "m" "n" ∈ (labelMapping "m" "n").created :=
    created ▸ List.mem_singleton_self _
  have kept (s : String) (short : s.length ≤ 64) (whole : '\x00' ∉ s.toList) :
      Kept 64 (.text s) s := ⟨rfl, short, whole⟩
  have told := @invented_texts_tell (labelCatalog [labelMapping "m" "n"]) {} {} _ _ _ _ _ _
    (by decide) (by rw [alone]; simp [created]) (by rw [alone]; simp [created]; decide)
    (alone ▸ List.mem_singleton_self _) (alone ▸ List.mem_singleton_self _) inside inside
    (labelEvaluation 64 "m" "n" (.text "a,b") (.text "c"))
    (labelEvaluation 64 "m" "n" (.text "a") (.text "b,c"))
    (.cons (kept "a,b" (by decide) (by decide)) (.cons (kept "c" (by decide) (by decide)) .nil))
    (.cons (kept "a" (by decide) (by decide)) (.cons (kept "b,c" (by decide) (by decide)) .nil)) same
  exact ⟨same, told.2.2.not.mp (by decide)⟩

def labelMappings : List Rule :=
  [labelMapping "m" "a_n", labelMapping "m_a" "n", labelMapping "m_a_n(k" "n"]

-- Names that are put together alike, a name with a parenthesis, commas, a text that ends early, and
-- a width that 32 bits do not hold.
theorem labels_collide : (labelCatalog labelMappings).validate = .ok () ∧
    (∀ width, width = 64 ∨ width = 2 ^ 31 →
      ({ skolemWidth := width } : Config).validate = .ok () ∧
        inventing (labelCatalog labelMappings) { skolemWidth := width } {} = labelMappings) ∧
    labelMappings.map Rule.created = [[labelInvention "m" "a_n"], [labelInvention "m_a" "n"],
      [labelInvention "m_a_n(k" "n"]] ∧
    labelOf 64 "m" "a_n" "1" "2" = labelOf 64 "m_a" "n" "1" "2" ∧
    labelOf 64 "m" "a_n" "k_n(1" "2" = labelOf 64 "m_a_n(k" "n" "1" "2" ∧
    labelOf 64 "m" "a_n" "a,b" "c" = labelOf 64 "m" "a_n" "a" "b,c" ∧
    labelOf 64 "m" "a_n" "a\x00b" "c" = labelOf 64 "m" "a_n" "a\x00d" "c" ∧
    labelOf (2 ^ 31) "m" "a_n" "1" "2" = labelOf (2 ^ 31) "m" "a_n" "3" "4" := by
  refine ⟨by cbv, ?valid, by cbv, ?names, ?parenthesis, ?commas, ?ended, ?wide⟩
  case valid =>
    rintro width (rfl | rfl)
    · exact ⟨rfl, by cbv⟩
    · exact ⟨rfl, by cbv⟩
  all_goals rw [labelOf_eq, labelOf_eq]
  case names | parenthesis | commas => rfl
  -- What follows the character that ends a text is in no value.
  case ended => exact Eq.trans (b := .text "m_a_n(a,c)") rfl rfl
  case wide => exact Eq.trans (b := .text "m_a_n(,)") rfl rfl

end Labels

end Mapping

end PeerExchange
