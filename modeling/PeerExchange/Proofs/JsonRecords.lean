import PeerExchange.Document.Catalog
import PeerExchange.Proofs.JsonTexts
import PeerExchange.Proofs.NameMap

namespace PeerExchange.Json

section Recovery

variable {α : Type} {encode : α → Json} {decode : Json → Option α} {a : α}

-- A value reads back from what it is written as, unless that is cut short.
structure Recovers (encode : α → Json) (decode : Json → Option α) (a : α) : Prop where
  plain : (encode a).isPlain = true
  read : ∀ n, decode ((encode a).cut n) = if (encode a).depth ≤ n then some a else none

theorem Recovers.whole (recovers : Recovers encode decode a) : decode (encode a) = some a := by
  have read := recovers.read (encode a).depth
  rwa [cut_of_depth_le _ (Nat.le_refl _), if_pos (Nat.le_refl _)] at read

theorem isReadable_of_isPlain {j : Json} (plain : j.isPlain = true) : j.isReadable = true := by
  have readable := isReadable_cut (n := j.depth) plain
  rw [cut_of_depth_le _ (Nat.le_refl _)] at readable
  exact readable.mpr (Nat.le_refl _)

theorem recovers_held (plain : (encode a).isPlain = true) (whole : decode (encode a) = some a)
    (refuses : ∀ j, j.isReadable = false → decode j = none) : Recovers encode decode a := by
  refine ⟨plain, fun n => ?_⟩
  split
  · rename_i shallow
    rw [cut_of_depth_le _ shallow, whole]
  · rename_i deep
    exact refuses _ (Bool.eq_false_iff.mpr fun readable => deep ((isReadable_cut plain).mp readable))

theorem recovers_shallow (plain : (encode a).isPlain = true) (shallow : (encode a).depth = 0)
    (whole : decode (encode a) = some a) : Recovers encode decode a := by
  refine ⟨plain, fun n => ?_⟩
  rw [cut_of_depth_le _ (by omega), whole, if_pos (by omega)]

theorem recovers_str (s : String) : Recovers str str? s := recovers_shallow rfl rfl rfl

theorem recovers_bool (b : Bool) : Recovers bool bool? b := recovers_shallow rfl rfl rfl

theorem recovers_index {n : Nat} (small : n < significandLimit) : Recovers nat index? n := by
  have limit : significandLimit = 18446744073709551616 := rfl
  refine recovers_shallow (decide_eq_true small) rfl ?_
  rw [index?, nat, intIn?, if_pos (by simp; omega)]
  rfl

theorem recovers_word {n : Int} (fits : fitsWord n = true) : Recovers int word? n := by
  have limit : significandLimit = 18446744073709551616 := rfl
  refine recovers_shallow (decide_eq_true ?_) rfl (if_pos fits)
  simp only [fitsWord, Bool.and_eq_true, decide_eq_true_eq] at fits
  omega

theorem recovers_list {items : List α} (each : ∀ a ∈ items, Recovers encode decode a) :
    Recovers (list encode) (list? decode) items := by
  refine ⟨?_, fun n => ?_⟩
  · rw [list, isPlain, allPlain_iff, List.forall_mem_map]
    exact fun a inside => (each a inside).plain
  · cases n with
    | zero => simp [list, cut, depth, list?]
    | succ n =>
      have all : (items.map fun a => (encode a).cut n).mapM decode =
          if ∀ a ∈ items, (encode a).depth ≤ n then some items else none :=
        mapM_map_if fun a inside => (each a inside).read n
      rw [list, cut, cutAll_eq_map, List.map_map, list?, depth]
      refine Eq.trans all ?_
      simp only [Nat.add_le_add_iff_right, depthAll_le_iff, List.forall_mem_map]

theorem recovers_option {o : Option α} (each : ∀ a, o = some a → Recovers encode decode a)
    (apart : ∀ a, encode a ≠ null) : Recovers (ofOption encode) (option? decode) o := by
  match o with
  | none => exact recovers_shallow rfl rfl rfl
  | some a =>
    have here := each a rfl
    refine ⟨here.plain, fun n => ?_⟩
    have other : (encode a).cut n ≠ null := fun same => by
      cases shape : encode a with
      | null => exact apart a shape
      | arr _ => rw [shape] at same; cases n <;> cases same
      | obj _ => rw [shape] at same; cases n <;> cases same
      | _ => rw [shape] at same; cases same
    have read : option? decode ((encode a).cut n) = (decode ((encode a).cut n)).map some := by
      generalize (encode a).cut n = j at other
      cases j <;> first | rfl | exact absurd rfl other
    rw [ofOption, read, here.read]
    split <;> rfl

end Recovery

section Records

variable {α : Type} {decode : Json → Option α} {name other : String} {j : Json} {default : α}
  {rest members more : List (String × Json)} {present : Bool} {names later : List String} {n : Nat}

def field? (members : List (String × Json)) (name : String) : Option Json :=
  (members.find? (·.1 = name)).map Prod.snd

theorem need?_eq : need? members name decode = (field? members name).bind decode := by
  unfold need? field?
  cases members.find? (·.1 = name) <;> rfl

theorem needD?_eq :
    needD? members name default decode = (field? members name).elim (some default) decode := by
  unfold needD? field?
  cases members.find? (·.1 = name) <;> rfl

@[simp] theorem field?_nil : field? [] name = none := rfl

@[simp] theorem field?_self : field? ((name, j) :: rest) name = some j := by
  simp [field?]

@[simp] theorem field?_other (apart : other ≠ name) :
    field? ((other, j) :: rest) name = field? rest name := by
  simp [field?, apart]

@[simp] theorem field?_append :
    field? (members ++ more) name = (field? members name).or (field? more name) := by
  rw [field?, List.find?_append]
  unfold field?
  cases members.find? (·.1 = name) <;> rfl

@[simp] theorem field?_member :
    field? (member? present name j) name = if present = true then some j else none := by
  cases present <;> simp [member?, field?]

@[simp] theorem field?_member_other (apart : other ≠ name) :
    field? (member? present other j) name = none := by
  cases present <;> simp [member?, field?, apart]

@[simp] theorem cutMembers_append :
    cutMembers (members ++ more) n = cutMembers members n ++ cutMembers more n := by
  simp only [cutMembers_eq_map, List.map_append]

@[simp] theorem cutMembers_member :
    cutMembers (member? present name j) n = member? present name (j.cut n) := by
  cases present <;> rfl

@[simp] theorem membersPlain_append :
    membersPlain (members ++ more) = (membersPlain members && membersPlain more) := by
  rw [Bool.eq_iff_iff, Bool.and_eq_true]
  simp only [membersPlain_iff, List.forall_mem_append]

@[simp] theorem membersPlain_member : membersPlain (member? present name j) = (!present || j.isPlain) := by
  cases present <;> simp [member?, membersPlain]

@[simp] theorem depthMembers_nil_le : depthMembers [] ≤ n := Nat.zero_le n

@[simp] theorem depthMembers_cons_le :
    depthMembers ((name, j) :: rest) ≤ n ↔ j.depth ≤ n ∧ depthMembers rest ≤ n := Nat.max_le

@[simp] theorem depthMembers_append_le :
    depthMembers (members ++ more) ≤ n ↔ depthMembers members ≤ n ∧ depthMembers more ≤ n := by
  simp only [depthMembers_le_iff, List.forall_mem_append]

@[simp] theorem depthMembers_member_le :
    depthMembers (member? present name j) ≤ n ↔ (present = true → j.depth ≤ n) := by
  cases present <;> simp [member?]

theorem member?_flag : member? present name (.bool true) = member? present name (.bool present) := by
  cases present <;> rfl

def Placed (members : List (String × Json)) (names : List String) : Prop :=
  (members.map Prod.fst).Sublist names

theorem placed_all (members : List (String × Json)) : Placed members (members.map Prod.fst) :=
  List.Sublist.refl _

theorem placed_member : Placed (member? present name j) [name] := by
  cases present with
  | true => exact List.Sublist.refl _
  | false => exact List.nil_sublist _

theorem Placed.append (here : Placed members names) (there : Placed more later) :
    Placed (members ++ more) (names ++ later) := by
  rw [Placed, List.map_append]
  exact List.Sublist.append here there

theorem Placed.member (here : Placed members names) :
    Placed (members ++ member? present name j) (names ++ [name]) := here.append placed_member

theorem fields?_of_placed (placed : Placed members names) (distinct : names.Nodup) :
    fields? names (obj members) = some members := by
  refine if_pos (List.all_eq_true.mpr fun name _ => decide_eq_true ?_)
  have same : (members.filter (·.1 = name)).map Prod.fst = List.replicate _ name :=
    List.eq_replicate_of_mem fun other inside => by
      obtain ⟨m, kept, rfl⟩ := List.mem_map.mp inside
      exact of_decide_eq_true (List.mem_filter.mp kept).2
  have kept : (members.filter (·.1 = name)).Sublist members := List.filter_sublist
  have once := (kept.map Prod.fst).nodup (placed.nodup distinct)
  rwa [same, List.nodup_replicate, List.length_map] at once

theorem recovers_record {encode : α → Json} {a : α} {read : List (String × Json) → Option α}
    {names : List String} (distinct : names.Nodup) (encoded : encode a = obj members)
    (placed : Placed members names) (plain : membersPlain members = true)
    (fields : ∀ n, read (cutMembers members n) = if depthMembers members ≤ n then some a else none) :
    Recovers encode (fun j => (fields? names j).bind read) a := by
  refine ⟨by rwa [encoded, isPlain], fun n => ?_⟩
  rw [encoded]
  cases n with
  | zero => simp [cut, depth, fields?]
  | succ n =>
    have cutPlaced : Placed (cutMembers members n) names := by
      rw [Placed, cutMembers_eq_map, List.map_map]
      exact placed
    rw [cut, fields?_of_placed cutPlaced distinct, Option.bind_some, fields]
    simp only [depth, Nat.add_le_add_iff_right]

theorem ite_bind {β : Type} {p : Prop} [Decidable p] {a : α} {f : α → Option β} :
    (if p then some a else none).bind f = if p then f a else none := by
  split <;> rfl

theorem ite_elim {p : Prop} [Decidable p] {usual : Option α} :
    (if p then some j else none).elim usual decode = if p then decode j else usual := by
  split <;> rfl

theorem ite_present {a usual : α} (left : present = false → a = usual) :
    (if present = true then some a else some usual) = some a := by
  cases present with
  | true => rfl
  | false => rw [left rfl]; rfl

theorem ite_usual {p : Prop} [Decidable p] {a usual : α} (left : present = false → a = usual) :
    (if present = true then (if p then some a else none) else some usual) =
      if present = true → p then some a else none := by
  cases present with
  | true => simp
  | false => simp [left]

end Records

theorem recovers_variant {α β : Type} {encode : α → Json} {decode : Json → Option α} {inner : β → Json}
    {read : Json → Option β} {b : β} {name : String} {choice : β → α} (held : Recovers inner read b)
    (encoded : encode (choice b) = obj [(name, inner b)])
    (decoded : ∀ j, decode (obj [(name, j)]) = (read j).map choice)
    (refuses : decode unreadable = none) : Recovers encode decode (choice b) := by
  refine ⟨by simp [encoded, isPlain, membersPlain, held.plain], fun n => ?_⟩
  rw [encoded]
  cases n with
  | zero => simpa [cut, depth] using refuses
  | succ n =>
    rw [cut, cutMembers, cutMembers, decoded, held.read, apply_ite (Option.map choice)]
    simp [depth, depthMembers]

section Tagged

variable {tag kind : String} {rest : List (String × Json)} {reading : Reading} {names kinds : List String}

theorem tagged?_record (readable : (obj ((tag, .str kind) :: rest)).isReadable = true)
    (placed : Placed rest names) (new : tag ∉ names) :
    tagged? reading tag kinds (obj ((tag, .str kind) :: rest)) = some (kind, obj rest) := by
  have apart : ∀ m ∈ rest, m.1 ≠ tag := fun m inside same =>
    new (same ▸ placed.subset (List.mem_map_of_mem inside))
  have one : ((tag, str kind) :: rest).filter (·.1 = tag) = [(tag, str kind)] := by
    rw [List.filter_cons_of_pos (by simp), List.filter_eq_nil_iff.mpr]
    exact fun m inside same => apart m inside (of_decide_eq_true same)
  have others : ((tag, str kind) :: rest).filter (·.1 ≠ tag) = rest := by
    rw [List.filter_cons_of_neg (by simp), List.filter_eq_self]
    exact fun m inside => decide_eq_true (apart m inside)
  rw [tagged?, if_pos (by rw [readable, Bool.or_true])]
  simp only [one, others]
  rfl

theorem tagged?_unreadable {j : Json} (unreadable : j.isReadable = false) :
    tagged? .direct tag kinds j = none := by
  simp [tagged?, unreadable]

end Tagged

end PeerExchange.Json

namespace PeerExchange

open Json

section Maps

variable {α : Type}

namespace NameMap

theorem place_above {name : String} {value : α} {entries : List (String × α)}
    (above : ∀ entry ∈ entries, entry.1 < name) : place name value entries = entries ++ [(name, value)] := by
  induction entries with
  | nil => rfl
  | cons entry rest ih =>
    obtain ⟨here, later⟩ := List.forall_mem_cons.mp above
    rw [place, if_neg (String.lt_asymm here), if_neg fun same => String.lt_irrefl _ (same ▸ here),
      ih later, List.cons_append]

theorem ofList_entries (m : NameMap α) : ofList m.entries = m := by
  have behind (entries : List (String × α)) (start : NameMap α)
      (sorted : (start.entries ++ entries).Pairwise fun a b => a.1 < b.1) :
      (entries.foldl (fun m entry => m.insert entry.1 entry.2) start).entries =
        start.entries ++ entries := by
    induction entries generalizing start with
    | nil => exact (List.append_nil _).symm
    | cons entry rest ih =>
      have above : ∀ other ∈ start.entries, other.1 < entry.1 := fun other inside =>
        (List.pairwise_append.mp sorted).2.2 other inside entry List.mem_cons_self
      have placed : (start.insert entry.1 entry.2).entries = start.entries ++ [entry] :=
        place_above above
      rw [List.foldl_cons, ih _ (by rwa [placed, List.append_assoc]), placed, List.append_assoc]
      rfl
  have same : (ofList m.entries).entries = m.entries := behind m.entries empty m.sorted
  obtain ⟨entries, sorted⟩ := m
  generalize ofList entries = made at same
  subst same
  rfl

theorem recovers {encode : α → Json} {decode : Json → Option α} {m : NameMap α}
    (each : ∀ entry ∈ m.entries, Recovers encode decode entry.2) :
    Recovers (NameMap.toJson encode) (NameMap.ofJson? decode) m := by
  refine ⟨?_, fun n => ?_⟩
  · rw [NameMap.toJson, isPlain, membersPlain_iff, List.forall_mem_map]
    exact fun entry inside => (each entry inside).plain
  · cases n with
    | zero => simp [NameMap.toJson, cut, depth, NameMap.ofJson?]
    | succ n =>
      have all : (m.entries.map fun entry => (entry.1, (encode entry.2).cut n)).mapM
          (fun member => (decode member.2).map (member.1, ·)) =
            if ∀ entry ∈ m.entries, (encode entry.2).depth ≤ n then some m.entries else none :=
        mapM_map_if fun entry inside => by
          simp only [(each entry inside).read]
          split <;> rfl
      rw [NameMap.toJson, cut, cutMembers_eq_map, List.map_map, NameMap.ofJson?, depth]
      simp only [Nat.add_le_add_iff_right, depthMembers_le_iff, List.forall_mem_map]
      refine (congrArg (Option.bind · _) all).trans ?_
      rw [ite_bind, ofList_entries]
      rfl

end NameMap

namespace NameSet

theorem ofNames_toList (s : NameSet) : ofNames s.toList = s := by
  have made := NameMap.ofList_entries s
  rw [NameMap.ofList] at made
  rw [ofNames, toList, NameMap.keys, List.foldl_map]
  exact made

theorem recovers (s : NameSet) : Recovers toJson ofJson? s := by
  have names : Recovers (list str) (list? str?) s.toList := recovers_list fun name _ => recovers_str name
  refine ⟨names.plain, fun n => ?_⟩
  have read : list? str? ((list str s.toList).cut n) = _ := names.read n
  change ((list? str? ((list str s.toList).cut n)).map ofNames) = _
  rw [read, apply_ite (Option.map ofNames), Option.map_some, ofNames_toList]
  rfl

end NameSet

end Maps

end PeerExchange
