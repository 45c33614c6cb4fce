import Mathlib.Data.List.Induction
import PeerExchange.NameMap

namespace PeerExchange

namespace NameMap

variable {α : Type}

theorem lookup_isSome_iff {name : String} {entries : List (String × α)} :
    (lookup name entries).isSome = true ↔ name ∈ entries.map Prod.fst := by
  induction entries with
  | nil => simp [lookup]
  | cons head rest ih =>
    obtain ⟨key, value⟩ := head
    by_cases same : key = name
    · simp [lookup, same]
    · have other : name ≠ key := fun equal => same equal.symm
      simp [lookup, same, other, ih]

theorem mem_keys {m : NameMap α} {name : String} :
    name ∈ m.keys ↔ m.contains name = true := lookup_isSome_iff.symm

theorem contains_of_get? {m : NameMap α} {name : String} {value : α}
    (found : m.get? name = some value) : m.contains name = true := by
  simp [contains, found]

theorem get?_of_contains {m : NameMap α} {name : String} (present : m.contains name = true) :
    ∃ value, m.get? name = some value := Option.isSome_iff_exists.mp present

theorem contains_insert {m : NameMap α} {name other : String} {value : α} :
    (m.insert name value).contains other = true ↔ name = other ∨ m.contains other = true := by
  by_cases same : name = other <;> simp [contains, same]

theorem lookup_of_mem {entries : List (String × α)} {entry : String × α}
    (sorted : entries.Pairwise (fun a b => a.1 < b.1)) (present : entry ∈ entries) :
    lookup entry.1 entries = some entry.2 := by
  induction entries with
  | nil => cases present
  | cons head rest ih =>
    obtain ⟨below, tail⟩ := List.pairwise_cons.mp sorted
    rcases List.mem_cons.mp present with rfl | there
    · simp [lookup]
    · have above := below entry there
      have differ : head.1 ≠ entry.1 := by
        intro same
        rw [same] at above
        exact String.lt_irrefl _ above
      obtain ⟨key, value⟩ := head
      simpa [lookup, differ] using ih tail there

theorem mem_of_lookup {name : String} {value : α} {entries : List (String × α)}
    (found : lookup name entries = some value) : (name, value) ∈ entries := by
  induction entries with
  | nil => cases found
  | cons head rest ih =>
    obtain ⟨key, old⟩ := head
    by_cases same : key = name
    · simp only [lookup, same, if_true] at found
      cases found
      simp [same]
    · simp only [lookup, same, if_false] at found
      exact List.mem_cons_of_mem _ (ih found)

theorem mem_values {m : NameMap α} {value : α} :
    value ∈ m.values ↔ ∃ name, m.get? name = some value := by
  constructor
  · intro present
    obtain ⟨entry, member, rfl⟩ := List.mem_map.mp present
    exact ⟨entry.1, lookup_of_mem m.sorted member⟩
  · rintro ⟨name, found⟩
    exact List.mem_map.mpr ⟨_, mem_of_lookup found, rfl⟩

theorem place_same {name : String} {value : α} {entries : List (String × α)}
    (sorted : entries.Pairwise (fun a b => a.1 < b.1)) (found : lookup name entries = some value) :
    place name value entries = entries := by
  induction entries with
  | nil => cases found
  | cons entry rest ih =>
    obtain ⟨key, old⟩ := entry
    obtain ⟨first, later⟩ := List.pairwise_cons.mp sorted
    unfold lookup at found
    split at found
    · rename_i same
      cases found
      simp [place, same]
    · rename_i differ
      have above : key < name := first _ (mem_of_lookup found)
      rw [place, if_neg (String.lt_asymm above), if_neg (Ne.symm differ), ih later found]

theorem length_place {name : String} {value : α} {entries : List (String × α)}
    (new : lookup name entries = none) : (place name value entries).length = entries.length + 1 := by
  induction entries with
  | nil => rfl
  | cons entry rest ih =>
    obtain ⟨key, old⟩ := entry
    unfold lookup at new
    split at new
    · cases new
    · rename_i differ
      unfold place
      split
      · rfl
      · rw [if_neg (Ne.symm differ), List.length_cons, ih new, List.length_cons]

theorem length_insert {m : NameMap α} {name : String} {value : α} (new : m.contains name = false) :
    (m.insert name value).entries.length = m.entries.length + 1 :=
  length_place (Option.isSome_eq_false_iff.mp new |> Option.isNone_iff_eq_none.mp)

theorem insert_same {m : NameMap α} {name : String} {value : α} (found : m.get? name = some value) :
    m.insert name value = m := by
  have entries := place_same m.sorted found
  simp only [insert, entries]

theorem place_place (name : String) (value other : α) (entries : List (String × α)) :
    place name value (place name other entries) = place name value entries := by
  induction entries with
  | nil => simp [place]
  | cons entry rest ih =>
    obtain ⟨key, old⟩ := entry
    by_cases before : name < key
    · simp [place, before]
    · by_cases same : name = key
      · simp [place, same]
      · simp [place, before, same, ih]

theorem insert_insert (m : NameMap α) (name : String) (value other : α) :
    (m.insert name other).insert name value = m.insert name value := by
  simp only [insert, place_place]

section Mapping

variable {β : Type} (f : α → β)

theorem lookup_map (name : String) (entries : List (String × α)) :
    lookup name (entries.map fun (key, value) => (key, f value)) =
      (lookup name entries).map f := by
  induction entries with
  | nil => rfl
  | cons head rest ih =>
    obtain ⟨key, value⟩ := head
    by_cases same : key = name <;> simp [lookup, same, ih]

@[simp] theorem get?_map (m : NameMap α) (name : String) :
    (m.map f).get? name = (m.get? name).map f := lookup_map f name m.entries

@[simp] theorem contains_map (m : NameMap α) (name : String) :
    (m.map f).contains name = m.contains name := by simp [contains]

@[simp] theorem keys_map (m : NameMap α) : (m.map f).keys = m.keys := by
  simp [keys, map, List.map_map, Function.comp_def]

theorem place_map (name : String) (value : α) (entries : List (String × α)) :
    place name (f value) (entries.map fun (key, value) => (key, f value)) =
      (place name value entries).map fun (key, value) => (key, f value) := by
  induction entries with
  | nil => rfl
  | cons head rest ih =>
    obtain ⟨key, old⟩ := head
    simp only [List.map_cons, place]
    split
    · rfl
    · split
      · rfl
      · rw [ih, List.map_cons]

theorem map_insert (m : NameMap α) (name : String) (value : α) :
    (m.insert name value).map f = (m.map f).insert name (f value) := by
  simp only [map, insert, place_map]

@[simp] theorem map_empty : (empty : NameMap α).map f = empty := rfl

end Mapping

theorem get?_ofList {entries : List (String × α)} (distinct : (entries.map Prod.fst).Nodup)
    {name : String} {value : α} :
    (ofList entries).get? name = some value ↔ (name, value) ∈ entries := by
  induction entries using List.reverseRecOn with
  | nil => simp [ofList]
  | append_singleton entries entry ih =>
    obtain ⟨key, new⟩ := entry
    rw [List.map_append, List.nodup_append] at distinct
    obtain ⟨before, -, apart⟩ := distinct
    have made : ofList (entries ++ [(key, new)]) = (ofList entries).insert key new := by
      simp [ofList]
    rw [made, get?_insert, List.mem_append, List.mem_singleton, ← ih before]
    split
    · rename_i same
      subst same
      constructor
      · intro found
        cases found
        exact .inr rfl
      · rintro (earlier | here)
        · have member := (ih before).mp earlier
          exact absurd rfl (apart key (List.mem_map_of_mem member) key (List.mem_singleton_self _))
        · exact congrArg some (Prod.mk.inj here).2.symm
    · rename_i differ
      exact ⟨.inl, fun either => either.resolve_right fun here => differ (Prod.mk.inj here).1.symm⟩

end NameMap

namespace NameSet

theorem mem_toList {s : NameSet} {name : String} : name ∈ s.toList ↔ s.has name = true :=
  NameMap.mem_keys

theorem has_add {s : NameSet} {name other : String} :
    (s.add name).has other = true ↔ name = other ∨ s.has other = true := NameMap.contains_insert

theorem has_foldl_add {names : List String} {s : NameSet} {name : String} :
    (names.foldl add s).has name = true ↔ name ∈ names ∨ s.has name = true := by
  induction names generalizing s with
  | nil => simp
  | cons first rest ih =>
    rw [List.foldl_cons, ih, has_add, List.mem_cons]
    constructor
    · rintro (later | rfl | old)
      · exact .inl (.inr later)
      · exact .inl (.inl rfl)
      · exact .inr old
    · rintro ((rfl | later) | old)
      · exact .inr (.inl rfl)
      · exact .inl later
      · exact .inr (.inr old)

theorem has_ofNames {names : List String} {name : String} :
    (ofNames names).has name = true ↔ name ∈ names := by
  rw [ofNames, has_foldl_add]
  exact or_iff_left (by simp [has, NameMap.contains])

end NameSet

end PeerExchange
