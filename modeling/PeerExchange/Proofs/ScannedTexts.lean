import Mathlib.Data.List.TakeWhile
import PeerExchange.Grammar.Catalog

namespace PeerExchange

def Term.IsUnmarked : Term → Prop
  | .variable v => v.existential = false ∧ v.skolem = none
  | .constant _ _ => True
  | .skolem _ _ => False

-- A mapping as the grammar has it: heads over relations, something in the body, no marks.
structure Rule.IsScanned (r : Rule) : Prop where
  heads : ∀ a ∈ r.head, a.relation?.isSome = true
  body : r.body ≠ []
  unmarked : ∀ a ∈ r.head ++ r.body, ∀ t ∈ a.args, t.IsUnmarked
  inventions : r.inventions = []

namespace Grammar

namespace Scan

variable {α β : Type} {p q : Scan α} {P : α → Prop} {Q : β → Prop}

def Yields (p : Scan α) (P : α → Prop) : Prop := ∀ s a rest, p s = some (a, rest) → P a

theorem yields_any (p : Scan α) : Yields p fun _ => True := fun _ _ _ _ => trivial

theorem yields_pure {a : α} (holds : P a) : Yields (pure a) P := by
  intro s b rest ran
  cases ran
  exact holds

theorem Yields.bind {f : α → Scan β} (first : Yields p P) (next : ∀ a, P a → Yields (f a) Q) :
    Yields (p >>= f) Q := by
  intro s b rest ran
  obtain ⟨⟨a, middle⟩, took, ran⟩ := Option.bind_eq_some_iff.mp ran
  exact next a (first s a middle took) middle b rest ran

theorem Yields.map {f : α → β} (first : Yields p P) (mapped : ∀ a, P a → Q (f a)) :
    Yields (f <$> p) Q := by
  intro s b rest ran
  obtain ⟨⟨a, middle⟩, took, ran⟩ := Option.bind_eq_some_iff.mp ran
  cases ran
  exact mapped a (first s a _ took)

theorem Yields.orElse (first : Yields p P) (second : Yields q P) : Yields (p <|> q) P := by
  intro s a rest ran
  change (p s <|> q s) = some (a, rest) at ran
  cases took : p s with
  | none =>
    rw [took] at ran
    exact second s a rest ran
  | some pair =>
    rw [took] at ran
    cases ran
    exact first s a rest took

theorem Yields.many (each : Yields p P) : Yields (Grammar.many p) fun as => ∀ a ∈ as, P a := by
  intro s
  induction size : s.length using Nat.strongRecOn generalizing s with
  | ind n ih =>
    intro as rest ran
    unfold Grammar.many at ran
    split at ran
    · cases ran
      exact List.forall_mem_nil _
    · rename_i a middle took
      have here := each s a middle took
      split at ran
      · rename_i shorter
        obtain ⟨⟨more, left⟩, later, same⟩ := Option.map_eq_some_iff.mp ran
        obtain ⟨rfl, -⟩ := Prod.mk.inj same
        exact List.forall_mem_cons.mpr ⟨here, ih _ (size ▸ shorter) middle rfl more left later⟩
      · cases ran
        exact List.forall_mem_singleton.mpr here

theorem Yields.commaList (each : Yields p P) :
    Yields (Grammar.commaList p) fun as => as ≠ [] ∧ ∀ a ∈ as, P a :=
  each.bind fun _ here =>
    (Yields.many ((yields_any (sign ",")).bind fun _ _ => each)).bind fun _ later =>
      yields_pure ⟨nofun, List.forall_mem_cons.mpr ⟨here, later⟩⟩

theorem Yields.whole {s : List Char} {a : α} (each : Yields p P) (found : whole? p s = some a) :
    P a := by
  obtain ⟨⟨b, rest⟩, ran, rfl⟩ := Option.map_eq_some_iff.mp found
  exact each.bind (fun b holds => (yields_any finished).bind fun _ _ => yields_pure holds) s b rest
    ran

end Scan

open Scan

theorem yields_relation : Yields relation (·.columns ≠ []) := by
  refine (yields_any _).bind fun _ _ => (yields_any _).bind fun _ _ => (yields_any _).bind fun _ _ =>
    (yields_any _).bind fun _ _ => (yields_any column).commaList.bind fun columns some => ?_
  exact (yields_any _).bind fun _ _ => (yields_any _).bind fun _ _ => (yields_any _).bind fun _ _ =>
    yields_pure some.1

theorem yields_term : Yields term Term.IsUnmarked := by
  have constants : Yields (Term.lit <$> literal) Term.IsUnmarked :=
    (yields_any _).map fun _ _ => trivial
  have named : Yields (Term.var <$> identifier) Term.IsUnmarked :=
    (yields_any _).map fun _ _ => ⟨rfl, rfl⟩
  exact constants.orElse named

section Terms

variable {P : Term → Prop} (terms : Yields term P)

include terms

theorem yields_atom : Yields atom fun a =>
    (a.relation?.isSome = true ∧ a.kind = .base) ∧ ∀ t ∈ a.args, P t := by
  have none : Yields (pure [] : Scan (List Term)) fun args => ∀ t ∈ args, P t :=
    yields_pure (List.forall_mem_nil _)
  refine (yields_any _).bind fun _ _ => (yields_any _).bind fun _ _ => Yields.bind
    (P := fun args => ∀ t ∈ args, P t) ?_ fun args each => (yields_any _).bind fun _ _ =>
      yields_pure ⟨⟨rfl, rfl⟩, each⟩
  exact Yields.orElse (fun s a rest ran => (terms.commaList s a rest ran).2) none

theorem yields_bodyItem : Yields bodyItem fun a => a.kind = .base ∧ ∀ t ∈ a.args, P t := by
  have read : Yields atom fun a => a.kind = .base ∧ ∀ t ∈ a.args, P t := fun s a rest ran =>
    (yields_atom terms s a rest ran).imp_left And.right
  have negated : Yields negatedAtom fun a => a.kind = .base ∧ ∀ t ∈ a.args, P t :=
    (yields_any _).bind fun _ _ => read.bind fun _ each => yields_pure each
  have called : Yields functionCall fun a => a.kind = .base ∧ ∀ t ∈ a.args, P t :=
    terms.bind fun _ output => (yields_any _).bind fun _ _ => (yields_any _).bind fun _ _ =>
      (yields_any _).bind fun _ _ => terms.bind fun _ first => (yields_any _).bind fun _ _ =>
        terms.bind fun _ second => (yields_any _).bind fun _ _ => yields_pure <|
          ⟨rfl, List.forall_mem_cons.mpr ⟨output, List.forall_mem_cons.mpr
            ⟨first, List.forall_mem_singleton.mpr second⟩⟩⟩
  have compared : Yields comparison fun a => a.kind = .base ∧ ∀ t ∈ a.args, P t :=
    terms.bind fun _ left => (yields_any _).bind fun _ _ => terms.bind fun _ right =>
      yields_pure <| ⟨rfl, List.forall_mem_cons.mpr ⟨left, List.forall_mem_singleton.mpr right⟩⟩
  exact negated.orElse (called.orElse (compared.orElse read))

theorem yields_rule : Yields mapping fun r => (∀ a ∈ r.head, a.relation?.isSome = true) ∧
    r.body ≠ [] ∧ (∀ a ∈ r.head ++ r.body, a.kind = .base ∧ ∀ t ∈ a.args, P t) ∧
      r.inventions = [] := by
  refine (yields_any _).bind fun _ _ => (yields_any _).bind fun _ _ => (yields_any _).bind fun _ _ =>
    (yields_atom terms).commaList.bind fun heads written => (yields_any _).bind fun _ _ =>
      (yields_bodyItem terms).commaList.bind fun body read => (yields_any _).bind fun _ _ =>
        yields_pure ?_
  exact ⟨fun a inside => (written.2 a inside).1.1, read.1, List.forall_mem_append.mpr
    ⟨fun a inside => (written.2 a inside).imp_left And.right, read.2⟩, rfl⟩

end Terms

theorem yields_mapping : Yields mapping Rule.IsScanned := fun s r rest ran => by
  obtain ⟨heads, body, terms, none⟩ := yields_rule yields_term s r rest ran
  exact ⟨heads, body, fun a inside => (terms a inside).2, none⟩

def Item.IsShaped : Item → Prop
  | .peer _ relations => ∀ r ∈ relations, r.columns ≠ []
  | .relation r => r.columns ≠ []
  | .mapping r => r.IsScanned
  | .trust _ _ _ => True

theorem yields_item : Yields item Item.IsShaped := by
  have peers : Yields peer Item.IsShaped :=
    (yields_any _).bind fun _ _ => (yields_any _).bind fun _ _ => (yields_any _).bind fun _ _ =>
      yields_relation.many.bind fun _ each => (yields_any _).bind fun _ _ => yields_pure each
  have trusts : Yields trust Item.IsShaped :=
    (yields_any _).bind fun _ _ => (yields_any _).bind fun _ _ => (yields_any _).bind fun _ _ =>
      (yields_any _).bind fun _ _ => (yields_any _).bind fun _ _ => yields_pure trivial
  have relations : Yields (Item.relation <$> relation) Item.IsShaped :=
    yields_relation.map fun _ columns => columns
  have mappings : Yields (Item.mapping <$> mapping) Item.IsShaped :=
    yields_mapping.map fun _ scanned => scanned
  exact peers.orElse (relations.orElse (mappings.orElse trusts))

def Item.Maps (P : Rule → Prop) : Item → Prop
  | .mapping r => P r
  | _ => True

theorem yields_maps {P : Rule → Prop} (each : Yields mapping P) : Yields item (Item.Maps P) := by
  have peers : Yields peer (Item.Maps P) :=
    (yields_any _).bind fun _ _ => (yields_any _).bind fun _ _ => (yields_any _).bind fun _ _ =>
      (yields_any _).bind fun _ _ => (yields_any _).bind fun _ _ => yields_pure trivial
  have trusts : Yields trust (Item.Maps P) :=
    (yields_any _).bind fun _ _ => (yields_any _).bind fun _ _ => (yields_any _).bind fun _ _ =>
      (yields_any _).bind fun _ _ => (yields_any _).bind fun _ _ => yields_pure trivial
  have relations : Yields (Item.relation <$> relation) (Item.Maps P) :=
    (yields_any _).map fun _ _ => trivial
  have mappings : Yields (Item.mapping <$> mapping) (Item.Maps P) := each.map fun _ here => here
  exact peers.orElse (relations.orElse (mappings.orElse trusts))

theorem yields_identifier : Yields identifier fun name => '$' ∉ name.toList := by
  have one : Yields (takeOne isLetter) (isLetter · = true) := by
    intro s c rest took
    unfold takeOne at took
    split at took
    · split at took
      · rename_i letter
        cases took
        exact letter
      · cases took
    · cases took
  have run : Yields (takeRun isWordChar) fun cs => ∀ c ∈ cs, isWordChar c = true := by
    intro s cs rest took
    cases took
    exact fun c inside => List.mem_takeWhile_imp inside
  refine fun s => (one.bind fun first letter => run.bind fun more word => yields_pure ?_)
    (skipTrivia false s)
  rw [String.toList_ofList, List.mem_cons, not_or]
  constructor
  · rintro rfl
    exact absurd letter (by decide)
  · exact fun inside => absurd (word _ inside) (by decide)

end Grammar

end PeerExchange
