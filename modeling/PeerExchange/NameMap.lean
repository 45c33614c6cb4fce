namespace PeerExchange

structure NameMap (α : Type) where
  entries : List (String × α)
  sorted : entries.Pairwise (fun a b => a.1 < b.1)
deriving DecidableEq

namespace NameMap

variable {α β : Type}

def empty : NameMap α := ⟨[], .nil⟩

instance : Inhabited (NameMap α) := ⟨empty⟩

def lookup (name : String) : List (String × α) → Option α
  | [] => none
  | (key, value) :: rest => if key = name then some value else lookup name rest

def place (name : String) (value : α) : List (String × α) → List (String × α)
  | [] => [(name, value)]
  | (key, old) :: rest =>
    if name < key then (name, value) :: (key, old) :: rest
    else if name = key then (name, value) :: rest
    else (key, old) :: place name value rest

theorem fst_mem_place {name : String} {value : α} {entries : List (String × α)}
    {entry : String × α} (present : entry ∈ place name value entries) :
    entry = (name, value) ∨ entry ∈ entries := by
  induction entries with
  | nil => simpa [place] using present
  | cons head rest ih =>
    obtain ⟨key, old⟩ := head
    simp only [place] at present
    split at present
    · simpa using present
    · split at present
      · rcases List.mem_cons.mp present with here | there
        · exact .inl here
        · exact .inr (List.mem_cons_of_mem _ there)
      · rcases List.mem_cons.mp present with here | there
        · exact .inr (here ▸ List.mem_cons_self)
        · exact (ih there).imp_right (List.mem_cons_of_mem _)

theorem lt_of_not_lt_of_ne {a b : String} (above : ¬ a < b) (differ : a ≠ b) : b < a := by
  cases Classical.em (b < a) with
  | inl below => exact below
  | inr other =>
    exact absurd (String.le_antisymm (String.not_lt.mp other) (String.not_lt.mp above)) differ

theorem sorted_place (name : String) (value : α) {entries : List (String × α)}
    (sorted : entries.Pairwise (fun a b => a.1 < b.1)) :
    (place name value entries).Pairwise (fun a b => a.1 < b.1) := by
  induction entries with
  | nil => simp [place]
  | cons head rest ih =>
    obtain ⟨key, old⟩ := head
    obtain ⟨below, tail⟩ := List.pairwise_cons.mp sorted
    simp only [place]
    split
    · rename_i less
      refine List.pairwise_cons.mpr ⟨fun entry present => ?_, sorted⟩
      rcases List.mem_cons.mp present with here | there
      · exact here ▸ less
      · exact String.lt_trans less (below entry there)
    · rename_i notLess
      split
      · rename_i same
        exact List.pairwise_cons.mpr ⟨fun entry present => same ▸ below entry present, tail⟩
      · rename_i differ
        refine List.pairwise_cons.mpr ⟨fun entry present => ?_, ih tail⟩
        rcases fst_mem_place present with here | there
        · exact here ▸ lt_of_not_lt_of_ne notLess differ
        · exact below entry there

def get? (m : NameMap α) (name : String) : Option α := lookup name m.entries

def contains (m : NameMap α) (name : String) : Bool := (m.get? name).isSome

def insert (m : NameMap α) (name : String) (value : α) : NameMap α :=
  ⟨place name value m.entries, sorted_place name value m.sorted⟩

def keys (m : NameMap α) : List String := m.entries.map Prod.fst

def values (m : NameMap α) : List α := m.entries.map Prod.snd

def ofList (entries : List (String × α)) : NameMap α :=
  entries.foldl (fun m (name, value) => m.insert name value) empty

theorem sorted_map (f : α → β) {entries : List (String × α)}
    (sorted : entries.Pairwise (fun a b => a.1 < b.1)) :
    (entries.map fun (name, value) => (name, f value)).Pairwise (fun a b => a.1 < b.1) :=
  List.pairwise_map.mpr sorted

def map (f : α → β) (m : NameMap α) : NameMap β := ⟨_, sorted_map f m.sorted⟩

def modify (m : NameMap α) (name : String) (f : α → α) : NameMap α :=
  match m.get? name with
  | some value => m.insert name (f value)
  | none => m

def erase (m : NameMap α) (name : String) : NameMap α :=
  ⟨m.entries.filter fun entry => entry.1 ≠ name, m.sorted.filter _⟩

@[simp] theorem get?_empty (name : String) : (empty : NameMap α).get? name = none := rfl

theorem lookup_place (name : String) (value : α) (entries : List (String × α)) (other : String) :
    lookup other (place name value entries) =
      if name = other then some value else lookup other entries := by
  induction entries with
  | nil => simp [place, lookup]
  | cons head rest ih =>
    obtain ⟨key, old⟩ := head
    simp only [place]
    split
    · simp [lookup]
    · split
      · rename_i same
        subst same
        by_cases equal : name = other <;> simp [lookup, equal]
      · rename_i differ
        by_cases equal : key = other
        · subst equal
          simp [lookup, differ]
        · simp [lookup, equal, ih]

@[simp] theorem get?_insert (m : NameMap α) (name : String) (value : α) (other : String) :
    (m.insert name value).get? other = if name = other then some value else m.get? other :=
  lookup_place name value m.entries other

end NameMap

abbrev NameSet := NameMap Unit

namespace NameSet

def add (s : NameSet) (name : String) : NameSet := NameMap.insert s name ()

def ofNames (names : List String) : NameSet := names.foldl add NameMap.empty

def toList (s : NameSet) : List String := NameMap.keys s

def has (s : NameSet) (name : String) : Bool := NameMap.contains s name

end NameSet

end PeerExchange
