import PeerExchange.Proofs.Compiled
import PeerExchange.Proofs.NameMap
import PeerExchange.Proofs.ScannedTexts

namespace PeerExchange

namespace Catalog

variable {c c' : Catalog} {r : Relation}

-- Relations of peers under their own names, each with columns, and mappings as they were scanned.
structure IsDeclared (c : Catalog) : Prop where
  relations : ∀ name r, c.relations.get? name = some r →
    r.name = name ∧ r.role = .peer ∧ r.columns ≠ []
  mappings : ∀ m ∈ c.mappings, m.IsScanned

theorem addRelation_ok (added : c.addRelation r = .ok c') :
    c.relations.contains r.name = false ∧ c'.relations = c.relations.insert r.name r ∧
      c'.mappings = c.mappings := by
  unfold addRelation at added
  split at added
  · cases added
  · rename_i new
    cases added
    exact ⟨by simpa using new, rfl, rfl⟩

theorem IsDeclared.addRelation (declared : c.IsDeclared) (role : r.role = .peer)
    (columns : r.columns ≠ []) (added : c.addRelation r = .ok c') : c'.IsDeclared := by
  obtain ⟨-, relations, mappings⟩ := addRelation_ok added
  refine ⟨fun name other found => ?_, mappings ▸ declared.mappings⟩
  rw [relations, NameMap.get?_insert] at found
  split at found
  · rename_i same
    cases found
    exact ⟨same, role, columns⟩
  · exact declared.relations name other found

end Catalog

namespace Program

variable {p p' : Program}

theorem addRelation_declared {peer : Option String} {r : Grammar.RelationText}
    (declared : p.catalog.IsDeclared) (some : r.columns ≠ [])
    (added : p.addRelation peer r = .ok p') : p'.catalog.IsDeclared := by
  unfold addRelation at added
  split at added
  · cases added
  · rename_i relation made
    obtain ⟨columns, typed, same⟩ := Compiled.bind_ok.mp made
    cases same
    have length := (Compiled.forall₂_of_mapM typed).length_eq
    split at added
    · cases added
    · rename_i catalog extended
      cases added
      refine declared.addRelation rfl (fun none => ?_) extended
      exact some (List.eq_nil_of_length_eq_zero (length.trans (congrArg List.length none)))

theorem foldlM_keeps {α : Type} {step : Program → α → Except ParseError Program} {P : α → Prop}
    {Q : Program → Prop} (kept : ∀ {p a p'}, P a → Q p → step p a = .ok p' → Q p')
    {items : List α} (shaped : ∀ a ∈ items, P a) (start : Q p)
    (ran : items.foldlM step p = .ok p') : Q p' := by
  induction items generalizing p with
  | nil =>
    cases ran
    exact start
  | cons a rest ih =>
    obtain ⟨here, later⟩ := List.forall_mem_cons.mp shaped
    rw [List.foldlM_cons] at ran
    cases made : step p a with
    | error cause =>
      rw [made] at ran
      cases ran
    | ok next =>
      rw [made] at ran
      exact ih later (kept here start made) ran

theorem addItem_declared {item : Grammar.Item} (shaped : item.IsShaped)
    (declared : p.catalog.IsDeclared) (added : p.addItem item = .ok p') :
    p'.catalog.IsDeclared := by
  cases item with
  | peer name relations =>
    have each : ∀ r ∈ relations, r.columns ≠ [] := shaped
    refine foldlM_keeps (P := fun r => r.columns ≠ []) (Q := fun p => p.catalog.IsDeclared) ?_ each
      declared added
    exact fun some declared => addRelation_declared declared some
  | relation r => exact addRelation_declared declared shaped added
  | mapping r =>
    cases added
    exact ⟨declared.relations, List.forall_mem_append.mpr
      ⟨declared.mappings, List.forall_mem_singleton.mpr shaped⟩⟩
  | trust peer source priority =>
    simp only [addItem] at added
    split at added
    · cases added
      exact declared
    · cases added

theorem parse_declared {text : String} (parsed : parse text = .ok p) : p.catalog.IsDeclared := by
  unfold parse at parsed
  split at parsed
  · rename_i items scanned
    refine foldlM_keeps (Q := fun p => p.catalog.IsDeclared) addItem_declared
      (Grammar.yields_item.many.whole scanned) ?_ parsed
    exact ⟨nofun, List.forall_mem_nil _⟩
  · cases parsed

section Mappings

variable {P : Rule → Prop}

theorem addRelation_mappings {peer : Option String} {r : Grammar.RelationText}
    (added : p.addRelation peer r = .ok p') : p'.catalog.mappings = p.catalog.mappings := by
  unfold addRelation at added
  split at added
  · cases added
  · split at added
    · cases added
    · rename_i catalog extended
      cases added
      exact (Catalog.addRelation_ok extended).2.2

theorem addItem_mappings {item : Grammar.Item} (shaped : item.Maps P)
    (each : ∀ m ∈ p.catalog.mappings, P m) (added : p.addItem item = .ok p') :
    ∀ m ∈ p'.catalog.mappings, P m := by
  cases item with
  | peer name relations =>
    refine foldlM_keeps (P := fun _ => True) (Q := fun p => ∀ m ∈ p.catalog.mappings, P m) ?_
      (fun _ _ => trivial) each added
    exact fun _ each added => addRelation_mappings added ▸ each
  | relation r => exact addRelation_mappings added ▸ each
  | mapping r =>
    cases added
    exact List.forall_mem_append.mpr ⟨each, List.forall_mem_singleton.mpr shaped⟩
  | trust peer source priority =>
    simp only [addItem] at added
    split at added
    · cases added
      exact each
    · cases added

theorem parse_mappings {text : String} (yields : Grammar.Scan.Yields Grammar.mapping P)
    (parsed : parse text = .ok p) : ∀ m ∈ p.catalog.mappings, P m := by
  unfold parse at parsed
  split at parsed
  · rename_i items scanned
    exact foldlM_keeps (Q := fun p => ∀ m ∈ p.catalog.mappings, P m) addItem_mappings
      ((Grammar.yields_maps yields).many.whole scanned) (List.forall_mem_nil _) parsed
  · cases parsed

end Mappings

def parsesTo (text : String) (catalog : Catalog) : Bool :=
  match parse text with
  | .ok p => p.catalog = catalog
  | .error _ => false

theorem parsesTo_parts {text : String} {catalog : Catalog} (parses : parsesTo text catalog = true) :
    ∃ p, parse text = .ok p ∧ p.catalog = catalog := by
  unfold parsesTo at parses
  split at parses
  · rename_i p parsed
    exact ⟨p, parsed, of_decide_eq_true parses⟩
  · cases parses

end Program

end PeerExchange
