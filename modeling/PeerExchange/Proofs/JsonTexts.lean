import PeerExchange.Proofs.JsonTokens

namespace PeerExchange.Json

theorem nested_induct {P : Json → Prop}
    (leaf : ∀ j, (∀ items, j ≠ arr items) → (∀ members, j ≠ obj members) → P j)
    (array : ∀ items, (∀ j ∈ items, P j) → P (arr items))
    (object : ∀ members, (∀ m ∈ members, P m.2) → P (obj members)) (j : Json) : P j :=
  @Json.rec P (fun items => ∀ j ∈ items, P j) (fun members => ∀ m ∈ members, P m.2) (fun m => P m.2)
    (leaf _ nofun nofun) (fun _ => leaf _ nofun nofun) (fun _ => leaf _ nofun nofun)
    (fun _ => leaf _ nofun nofun) (fun _ => leaf _ nofun nofun) array object (leaf _ nofun nofun)
    (List.forall_mem_nil _) (fun _ _ here later => List.forall_mem_cons.mpr ⟨here, later⟩)
    (List.forall_mem_nil _) (fun _ _ here later => List.forall_mem_cons.mpr ⟨here, later⟩)
    (fun _ _ here => here) j

theorem mapM_map_if {α β : Type} {encode : α → β} {decode : β → Option α} {items : List α}
    {fits : α → Prop} [DecidablePred fits]
    (each : ∀ a ∈ items, decode (encode a) = if fits a then some a else none) :
    (items.map encode).mapM decode = if ∀ a ∈ items, fits a then some items else none := by
  induction items with
  | nil => simp
  | cons a rest ih =>
    obtain ⟨here, later⟩ := List.forall_mem_cons.mp each
    rw [List.map_cons, List.mapM_cons, here, ih later]
    simp only [List.forall_mem_cons]
    by_cases one : fits a
    · by_cases all : ∀ a ∈ rest, fits a
      · simp only [if_pos one, if_pos all, if_pos (And.intro one all)]
        rfl
      · simp only [if_pos one, if_neg all, if_neg (all ∘ And.right)]
        rfl
    · simp only [if_neg one, if_neg (one ∘ And.left)]
      rfl

theorem mapM_map_some {α β : Type} {encode : α → β} {decode : β → Option α} {items : List α}
    (each : ∀ a ∈ items, decode (encode a) = some a) : (items.map encode).mapM decode = some items := by
  have all : (items.map encode).mapM decode = if ∀ a ∈ items, True then some items else none :=
    mapM_map_if fun a inside => (each a inside).trans (if_pos trivial).symm
  exact all.trans (if_pos fun _ _ => trivial)

section Nesting

mutual

def isPlain : Json → Bool
  | .arr items => allPlain items
  | .obj members => membersPlain members
  | .int n => n.natAbs < significandLimit
  | .real _ | .unreadable => false
  | .null | .bool _ | .str _ => true

def allPlain : List Json → Bool
  | [] => true
  | j :: rest => isPlain j && allPlain rest

def membersPlain : List (String × Json) → Bool
  | [] => true
  | (_, j) :: rest => isPlain j && membersPlain rest

end

mutual

def cut : Json → Nat → Json
  | .arr items, depth + 1 => .arr (cutAll items depth)
  | .obj members, depth + 1 => .obj (cutMembers members depth)
  | .arr _, 0 | .obj _, 0 => .unreadable
  | j, _ => j

def cutAll : List Json → Nat → List Json
  | [], _ => []
  | j :: rest, depth => cut j depth :: cutAll rest depth

def cutMembers : List (String × Json) → Nat → List (String × Json)
  | [], _ => []
  | (name, j) :: rest, depth => (name, cut j depth) :: cutMembers rest depth

end

variable {j : Json} {items : List Json} {members : List (String × Json)} {n : Nat}

theorem allPlain_iff : allPlain items = true ↔ ∀ j ∈ items, isPlain j = true := by
  induction items with
  | nil => simp [allPlain]
  | cons j rest ih => simp [allPlain, ih]

theorem membersPlain_iff : membersPlain members = true ↔ ∀ m ∈ members, isPlain m.2 = true := by
  induction members with
  | nil => simp [membersPlain]
  | cons m rest ih => simp [membersPlain, ih]

theorem cutAll_eq_map : cutAll items n = items.map (cut · n) := by
  induction items with
  | nil => rfl
  | cons j rest ih => rw [cutAll, ih, List.map_cons]

theorem cutMembers_eq_map : cutMembers members n = members.map fun m => (m.1, m.2.cut n) := by
  induction members with
  | nil => rfl
  | cons m rest ih => rw [cutMembers, ih, List.map_cons]

theorem depthAll_le_iff : depthAll items ≤ n ↔ ∀ j ∈ items, j.depth ≤ n := by
  induction items with
  | nil => simp [depthAll]
  | cons j rest ih => rw [depthAll, Nat.max_le, ih, List.forall_mem_cons]

theorem depthMembers_le_iff : depthMembers members ≤ n ↔ ∀ m ∈ members, m.2.depth ≤ n := by
  induction members with
  | nil => simp [depthMembers]
  | cons m rest ih => rw [depthMembers, Nat.max_le, ih, List.forall_mem_cons]

theorem cut_leaf (noArray : ∀ items, j ≠ arr items) (noObject : ∀ members, j ≠ obj members) :
    j.cut n = j := by
  cases j with
  | arr items => exact absurd rfl (noArray items)
  | obj members => exact absurd rfl (noObject members)
  | _ => rfl

theorem cut_of_depth_le (j : Json) {n : Nat} (shallow : j.depth ≤ n) : j.cut n = j := by
  induction j using nested_induct generalizing n with
  | leaf j noArray noObject => exact cut_leaf noArray noObject
  | array items ih =>
    match n with
    | 0 => simp [depth] at shallow
    | n + 1 =>
      have each := depthAll_le_iff.mp (Nat.le_of_succ_le_succ shallow)
      rw [cut, cutAll_eq_map, List.map_congr_left fun j inside => ih j inside (each j inside), List.map_id']
  | object members ih =>
    match n with
    | 0 => simp [depth] at shallow
    | n + 1 =>
      have each := depthMembers_le_iff.mp (Nat.le_of_succ_le_succ shallow)
      rw [cut, cutMembers_eq_map, List.map_congr_left fun m inside => by
        rw [ih m inside (each m inside)], List.map_id']

theorem allReadable_iff : allReadable items = true ↔ ∀ j ∈ items, j.isReadable = true := by
  induction items with
  | nil => simp [allReadable]
  | cons j rest ih => simp [allReadable, ih]

theorem membersReadable_iff :
    membersReadable members = true ↔ ∀ m ∈ members, m.2.isReadable = true := by
  induction members with
  | nil => simp [membersReadable]
  | cons m rest ih => simp [membersReadable, ih]

theorem isReadable_cut (plain : j.isPlain = true) : (j.cut n).isReadable = true ↔ j.depth ≤ n := by
  induction j using nested_induct generalizing n with
  | leaf j noArray noObject =>
    cases j with
    | arr items => exact absurd rfl (noArray items)
    | obj members => exact absurd rfl (noObject members)
    | unreadable => cases plain
    | _ => simp [cut, isReadable, depth]
  | array items ih =>
    rw [isPlain, allPlain_iff] at plain
    match n with
    | 0 => simp [cut, isReadable, depth]
    | n + 1 =>
      rw [cut, isReadable, allReadable_iff, cutAll_eq_map, List.forall_mem_map, depth,
        Nat.add_le_add_iff_right, depthAll_le_iff]
      exact forall₂_congr fun j inside => ih j inside (plain j inside)
  | object members ih =>
    rw [isPlain, membersPlain_iff] at plain
    match n with
    | 0 => simp [cut, isReadable, depth]
    | n + 1 =>
      rw [cut, isReadable, membersReadable_iff, cutMembers_eq_map, List.forall_mem_map, depth,
        Nat.add_le_add_iff_right, depthMembers_le_iff]
      exact forall₂_congr fun m inside => ih m inside (plain m inside)

end Nesting

section Layouts

-- The blanks that a text has between its tokens: behind an opening bracket or a comma and before a
-- closing bracket, by the depth, and behind a colon.
structure Layout where
  line : Nat → List Char
  gap : List Char
  line_blank : ∀ depth, ∀ c ∈ line depth, isBlank c = true
  gap_blank : ∀ c ∈ gap, isBlank c = true

def oneLine : Layout := ⟨fun _ => [], [], fun _ => List.forall_mem_nil _, List.forall_mem_nil _⟩

def indented : Layout where
  line := lineBreak
  gap := [' ']
  line_blank depth := List.forall_mem_cons.mpr ⟨rfl, fun _ inside => by
    rw [(List.mem_replicate.mp inside).2]; rfl⟩
  gap_blank := List.forall_mem_singleton.mpr rfl

def further (l : Layout) (depth : Nat) (parts : List (List Char)) : List Char :=
  parts.flatMap fun part => ',' :: l.line depth ++ part

def inside (l : Layout) (depth : Nat) (closing : Char) : List (List Char) → List Char
  | [] => [closing]
  | part :: rest =>
    l.line (depth + 1) ++ part ++ (further l (depth + 1) rest ++ (l.line depth ++ [closing]))

def bracketed (l : Layout) (depth : Nat) (opening closing : Char) (parts : List (List Char)) :
    List Char :=
  opening :: inside l depth closing parts

mutual

def textChars (l : Layout) (depth : Nat) : Json → List Char
  | .arr items => bracketed l depth '[' ']' (textItems l (depth + 1) items)
  | .obj members => bracketed l depth '\x7b' '\x7d' (textMembers l (depth + 1) members)
  | .null => compactChars .null
  | .bool b => compactChars (.bool b)
  | .int n => compactChars (.int n)
  | .real text => compactChars (.real text)
  | .str s => compactChars (.str s)
  | .unreadable => compactChars .unreadable

def textItems (l : Layout) (depth : Nat) : List Json → List (List Char)
  | [] => []
  | j :: rest => textChars l depth j :: textItems l depth rest

def textMembers (l : Layout) (depth : Nat) : List (String × Json) → List (List Char)
  | [] => []
  | (name, j) :: rest =>
    (quote name ++ ':' :: (l.gap ++ textChars l depth j)) :: textMembers l depth rest

end

def memberChars (l : Layout) (depth : Nat) (m : String × Json) : List Char :=
  quote m.1 ++ ':' :: (l.gap ++ textChars l depth m.2)

variable {l : Layout} {j : Json} {items : List Json} {members : List (String × Json)} {depth : Nat}

theorem textItems_eq_map : textItems l depth items = items.map (textChars l depth) := by
  induction items with
  | nil => rfl
  | cons j rest ih => rw [textItems, ih, List.map_cons]

theorem textMembers_eq_map : textMembers l depth members = members.map (memberChars l depth) := by
  induction members with
  | nil => rfl
  | cons m rest ih =>
    rw [textMembers, ih, List.map_cons]
    rfl

theorem joined_cons (separator part : List Char) (rest : List (List Char)) :
    joined separator (part :: rest) = part ++ rest.flatMap fun p => separator ++ p := by
  induction rest generalizing part with
  | nil => simp [joined]
  | cons next rest ih =>
    rw [joined, ih, List.flatMap_cons, List.append_assoc, List.append_assoc]
    exact List.cons_ne_nil _ _

theorem compactItems_eq_map : compactItems items = items.map compactChars := by
  induction items with
  | nil => rfl
  | cons j rest ih => rw [compactItems, ih, List.map_cons]

theorem compactMembers_eq_map :
    compactMembers members = members.map fun m => quote m.1 ++ ':' :: compactChars m.2 := by
  induction members with
  | nil => rfl
  | cons m rest ih => rw [compactMembers, ih, List.map_cons]

theorem prettyItems_eq_map : prettyItems depth items = items.map (prettyChars depth) := by
  induction items with
  | nil => rfl
  | cons j rest ih => rw [prettyItems, ih, List.map_cons]

theorem prettyMembers_eq_map : prettyMembers depth members =
    members.map fun m => quote m.1 ++ ':' :: ' ' :: prettyChars depth m.2 := by
  induction members with
  | nil => rfl
  | cons m rest ih => rw [prettyMembers, ih, List.map_cons]

theorem textChars_arr :
    textChars l depth (arr items) = bracketed l depth '[' ']' (items.map (textChars l (depth + 1))) :=
  congrArg (bracketed l depth '[' ']') textItems_eq_map

theorem textChars_obj : textChars l depth (obj members) =
    bracketed l depth '\x7b' '\x7d' (members.map (memberChars l (depth + 1))) :=
  congrArg (bracketed l depth '\x7b' '\x7d') textMembers_eq_map

theorem compactChars_arr :
    (arr items).compactChars = '[' :: joined [','] (items.map compactChars) ++ [']'] := by
  rw [← compactItems_eq_map]
  rfl

theorem compactChars_obj : (obj members).compactChars =
    '\x7b' :: joined [','] (members.map fun m => quote m.1 ++ ':' :: compactChars m.2) ++ ['\x7d'] := by
  rw [← compactMembers_eq_map]
  rfl

theorem prettyChars_arr :
    (arr items).prettyChars depth = block depth '[' ']' (items.map (prettyChars (depth + 1))) :=
  congrArg (block depth '[' ']') prettyItems_eq_map

theorem prettyChars_obj : (obj members).prettyChars depth = block depth '\x7b' '\x7d'
    (members.map fun m => quote m.1 ++ ':' :: ' ' :: prettyChars (depth + 1) m.2) :=
  congrArg (block depth '\x7b' '\x7d') prettyMembers_eq_map

theorem bracketed_oneLine (opening closing : Char) (parts : List (List Char)) :
    bracketed oneLine depth opening closing parts = opening :: joined [','] parts ++ [closing] := by
  cases parts with
  | nil => rfl
  | cons part rest =>
    rw [joined_cons]
    simp [bracketed, inside, further, oneLine]

theorem bracketed_indented (opening closing : Char) (parts : List (List Char)) :
    bracketed indented depth opening closing parts = block depth opening closing parts := by
  cases parts with
  | nil => rfl
  | cons part rest =>
    rw [block, joined_cons]
    · simp [bracketed, inside, further, indented]
    · exact List.cons_ne_nil _ _

theorem textChars_leaf (noArray : ∀ items, j ≠ arr items) (noObject : ∀ members, j ≠ obj members) :
    textChars l depth j = compactChars j := by
  cases j with
  | arr items => exact absurd rfl (noArray items)
  | obj members => exact absurd rfl (noObject members)
  | _ => rfl

theorem textChars_oneLine (j : Json) (depth : Nat) : textChars oneLine depth j = j.compactChars := by
  induction j using nested_induct generalizing depth with
  | leaf j noArray noObject => exact textChars_leaf noArray noObject
  | array items ih =>
    rw [textChars_arr, bracketed_oneLine, compactChars_arr,
      List.map_congr_left fun j inside => ih j inside _]
  | object members ih =>
    rw [textChars_obj, bracketed_oneLine, compactChars_obj,
      List.map_congr_left fun m inside => by rw [memberChars, ih m inside _]]
    rfl

theorem textChars_indented (j : Json) : textChars indented depth j = j.prettyChars depth := by
  induction j using nested_induct generalizing depth with
  | leaf j noArray noObject =>
    cases j with
    | arr items => exact absurd rfl (noArray items)
    | obj members => exact absurd rfl (noObject members)
    | _ => rfl
  | array items ih =>
    rw [textChars_arr, bracketed_indented, prettyChars_arr,
      List.map_congr_left fun j inside => ih j inside]
  | object members ih =>
    rw [textChars_obj, bracketed_indented, prettyChars_obj,
      List.map_congr_left fun m inside => by rw [memberChars, ih m inside]]
    rfl

end Layouts

section Scalars

variable {j : Json} {rest : List Char} {l : Layout} {depth : Nat}

theorem isDigit_dark {c : Char} (digit : c.isDigit = true) : c ≠ '"' ∧ c ≠ '[' ∧ c ≠ '\x7b' ∧
    c ≠ ']' ∧ c ≠ '\x7d' ∧ c ≠ ',' ∧ c ≠ 'n' ∧ c ≠ 't' ∧ c ≠ 'f' ∧ isBlank c = false := by
  have other {d : Char} (plain : d.isDigit = false) : c ≠ d := by
    rintro rfl
    rw [digit] at plain
    cases plain
  refine ⟨other rfl, other rfl, other rfl, other rfl, other rfl, other rfl, other rfl, other rfl,
    other rfl, ?_⟩
  simp [isBlank, other (d := ' ') rfl, other (d := '\n') rfl, other (d := '\t') rfl,
    other (d := '\r') rfl]

theorem constant_none {c : Char} {s : List Char} (n : c ≠ 'n') (t : c ≠ 't') (f : c ≠ 'f') :
    constant? (c :: s) = none := by
  rw [constant?]
  · rintro _ ⟨⟩; exact n rfl
  · rintro _ ⟨⟩; exact t rfl
  · rintro _ ⟨⟩; exact f rfl

theorem lt_append {part rest : List Char} (some : 0 < part.length) :
    rest.length < (part ++ rest).length := by
  rw [List.length_append]
  exact Nat.lt_add_of_pos_left some

theorem reads_scalar (noArray : ∀ items, j ≠ arr items) (noObject : ∀ members, j ≠ obj members)
    (plain : j.isPlain = true) (ends : Ends rest) :
    Reads scalar? (compactChars j ++ rest) j rest := by
  cases j with
  | arr items => exact absurd rfl (noArray items)
  | obj members => exact absurd rfl (noObject members)
  | unreadable => cases plain
  | real text => cases plain
  | null => exact ⟨lt_append (by decide), rfl⟩
  | bool b => cases b <;> exact ⟨lt_append (by decide), rfl⟩
  | str s =>
    obtain ⟨shorter, read⟩ := reads_quote s rest
    have none : constant? (quote s ++ rest) = none :=
      constant_none (by decide) (by decide) (by decide)
    refine ⟨shorter, ?_⟩
    change scalar? (quote s ++ rest) = _
    simp only [scalar?, none, read]
    rfl
  | int n =>
    obtain ⟨shorter, read⟩ := reads_integer n (of_decide_eq_true plain) ends
    obtain ⟨c, left, shape, kind⟩ := head_integer n
    have dark : c ≠ '"' ∧ c ≠ 'n' ∧ c ≠ 't' ∧ c ≠ 'f' := by
      rcases kind with rfl | digit
      · decide
      · obtain ⟨quote, -, -, -, -, -, n, t, f, -⟩ := isDigit_dark digit
        exact ⟨quote, n, t, f⟩
    have noConstant : constant? ((toString n).toList ++ rest) = none := by
      rw [shape]
      exact constant_none dark.2.1 dark.2.2.1 dark.2.2.2
    have noString : string? ((toString n).toList ++ rest) = none := by
      rw [shape]
      exact if_neg dark.1
    refine ⟨shorter, ?_⟩
    change scalar? ((toString n).toList ++ rest) = _
    simp only [scalar?, noConstant, noString, read]
    rfl

theorem reads_leaf (noArray : ∀ items, j ≠ arr items) (noObject : ∀ members, j ≠ obj members)
    (plain : j.isPlain = true) (ends : Ends rest) :
    Reads scalar? (textChars l depth j ++ rest) j rest := by
  rw [textChars_leaf noArray noObject]
  exact reads_scalar noArray noObject plain ends

-- A value starts with no blank, no comma and no closing bracket, and only lists with an opening one.
theorem head_text (l : Layout) (depth : Nat) (plain : j.isPlain = true) :
    ∃ c s, textChars l depth j = c :: s ∧
    isBlank c = false ∧ c ≠ ']' ∧ c ≠ '\x7d' ∧ c ≠ ',' ∧
      ((∀ items, j ≠ arr items) → (∀ members, j ≠ obj members) → closing? c = none) := by
  cases j with
  | arr items =>
    exact ⟨_, _, rfl, rfl, by decide, by decide, by decide, fun none => absurd rfl (none items)⟩
  | obj members =>
    exact ⟨_, _, rfl, rfl, by decide, by decide, by decide, fun _ none => absurd rfl (none members)⟩
  | unreadable => cases plain
  | real text => cases plain
  | null => exact ⟨_, _, rfl, rfl, by decide, by decide, by decide, fun _ _ => rfl⟩
  | bool b => cases b <;> exact ⟨_, _, rfl, rfl, by decide, by decide, by decide, fun _ _ => rfl⟩
  | str s => exact ⟨_, _, rfl, rfl, by decide, by decide, by decide, fun _ _ => rfl⟩
  | int n =>
    obtain ⟨c, left, shape, kind⟩ := head_integer n
    refine ⟨c, left, shape, ?_⟩
    rcases kind with rfl | digit
    · exact ⟨rfl, by decide, by decide, by decide, fun _ _ => rfl⟩
    · obtain ⟨-, square, curly, closing, brace, comma, -, -, -, dark⟩ := isDigit_dark digit
      exact ⟨dark, closing, brace, comma, fun _ _ => by rw [closing?, if_neg square, if_neg curly]⟩

end Scalars

section Lists

variable {α ι : Type} {part : Reader α} {closing c : Char} {s t middle rest : List Char} {a : α}
  {as : List α}

theorem moreParts_end (skipped : skipBlanks s = closing :: rest) :
    Reads (moreParts? part closing) s [] rest := by
  have shorter : rest.length < s.length := by
    have bound := length_skipBlanks_le s
    rw [skipped] at bound
    exact bound
  refine ⟨shorter, ?_⟩
  rw [moreParts?]
  split
  · rename_i found
    rw [skipped] at found
    cases found
  · rename_i c left found
    rw [skipped] at found
    cases found
    exact if_pos rfl

theorem moreParts_more (skipped : skipBlanks s = ',' :: t) (apart : ',' ≠ closing)
    (here : Reads part t a middle) (later : Reads (moreParts? part closing) middle as rest) :
    Reads (moreParts? part closing) s (a :: as) rest := by
  obtain ⟨shorter, read⟩ := here
  obtain ⟨less, ran⟩ := later
  have bound := length_skipBlanks_le s
  rw [skipped] at bound
  refine ⟨Nat.lt_trans less (Nat.lt_trans shorter bound), ?_⟩
  rw [moreParts?]
  split
  · rename_i found
    rw [skipped] at found
    cases found
  · rename_i c left found
    rw [skipped] at found
    cases found
    simp only [if_neg apart, if_pos, read, ran, Option.map_some]
    rfl

theorem parts_end (skipped : skipBlanks s = closing :: rest) :
    Reads (parts? part closing) s [] rest :=
  reads_afterBlanks skipped ⟨Nat.lt_succ_self _, if_pos rfl⟩

theorem parts_first (skipped : skipBlanks s = c :: t) (apart : c ≠ closing)
    (here : Reads part (c :: t) a middle) (later : Reads (moreParts? part closing) middle as rest) :
    Reads (parts? part closing) s (a :: as) rest := by
  obtain ⟨shorter, read⟩ := here
  obtain ⟨less, ran⟩ := later
  refine reads_afterBlanks skipped ⟨Nat.lt_trans less shorter, ?_⟩
  simp only [if_neg apart, read, ran, Option.map_some]
  rfl

theorem nextSign_eq (skipped : skipBlanks s = c :: t) : Reads nextSign? s c t :=
  reads_afterBlanks skipped ⟨Nat.lt_succ_self _, rfl⟩

-- What closes a list.
def Closes (c : Char) : Prop := c = ']' ∨ c = '\x7d'

theorem Closes.dark (closes : Closes c) : isBlank c = false ∧ ',' ≠ c := by
  rcases closes with rfl | rfl <;> exact ⟨rfl, by decide⟩

theorem ends_blank (blanks : ∀ d ∈ t, isBlank d = true) (ends : Ends s) : Ends (t ++ s) := by
  match t with
  | [] => exact ends
  | d :: _ =>
    rintro _ _ ⟨⟩
    have blank := blanks d List.mem_cons_self
    simp only [isBlank, Bool.or_eq_true, decide_eq_true_eq] at blank
    rcases blank with ((rfl | rfl) | rfl) | rfl <;> decide

theorem ends_closing (closes : Closes c) : Ends (c :: rest) := by
  rintro _ _ ⟨⟩
  rcases closes with rfl | rfl <;> decide

variable {l : Layout} {depth : Nat} {items : List ι} {text : ι → List Char}

theorem skip_line (closes : Closes c) : skipBlanks (l.line depth ++ c :: rest) = c :: rest := by
  rw [skipBlanks_append (l.line_blank depth), skipBlanks_cons closes.dark.1]

theorem skip_first (dark : isBlank c = false) :
    skipBlanks (l.line depth ++ (c :: t ++ rest)) = c :: (t ++ rest) := by
  rw [skipBlanks_append (l.line_blank depth), List.cons_append, skipBlanks_cons dark]

theorem further_cons (part : List Char) (parts : List (List Char)) :
    further l depth (part :: parts) ++ rest =
      ',' :: (l.line depth ++ (part ++ (further l depth parts ++ rest))) := by
  simp [further]

theorem inside_cons (part : List Char) (parts : List (List Char)) :
    inside l depth closing (part :: parts) ++ rest = l.line (depth + 1) ++
      (part ++ (further l (depth + 1) parts ++ (l.line depth ++ closing :: rest))) := by
  simp [inside]

theorem ends_further (closes : Closes c) (parts : List (List Char)) :
    Ends (further l (depth + 1) parts ++ (l.line depth ++ c :: rest)) := by
  cases parts with
  | nil => exact ends_blank (t := l.line depth) (l.line_blank depth) (ends_closing closes)
  | cons part parts =>
    rintro _ _ ⟨⟩
    decide

variable {value : ι → α} (each : ∀ i ∈ items, ∀ blanks rest, (∀ c ∈ blanks, isBlank c = true) →
  Ends rest → Reads part (blanks ++ (text i ++ rest)) (value i) rest) (closes : Closes closing)

include each closes

theorem reads_further : Reads (moreParts? part closing)
    (further l (depth + 1) (items.map text) ++ (l.line depth ++ closing :: rest)) (items.map value)
      rest := by
  induction items with
  | nil => exact moreParts_end (skip_line closes)
  | cons i items ih =>
    obtain ⟨here, later⟩ := List.forall_mem_cons.mp each
    rw [List.map_cons, further_cons]
    exact moreParts_more (skipBlanks_cons rfl) closes.dark.2
      (here _ _ (l.line_blank _) (ends_further closes _)) (ih later)

theorem reads_inside (first : ∀ i ∈ items, ∃ c s, text i = c :: s ∧ isBlank c = false ∧ c ≠ closing) :
    Reads (parts? part closing) (inside l depth closing (items.map text) ++ rest) (items.map value)
      rest := by
  match items with
  | [] => exact parts_end (skipBlanks_cons closes.dark.1)
  | i :: items =>
    obtain ⟨here, later⟩ := List.forall_mem_cons.mp each
    obtain ⟨c, s, shape, dark, apart⟩ := first i List.mem_cons_self
    have part : Reads part ([] ++ (text i ++ (further l (depth + 1) (items.map text) ++
        (l.line depth ++ closing :: rest)))) (value i) _ :=
      here _ _ (List.forall_mem_nil _) (ends_further closes _)
    rw [List.nil_append, shape, List.cons_append] at part
    rw [List.map_cons, inside_cons, shape]
    exact parts_first (skip_first dark) apart part (reads_further later closes)

end Lists

section Members

variable {blanks rest : List Char}

theorem reads_memberName (name : String) (s : List Char) (all : ∀ c ∈ blanks, isBlank c = true) :
    Reads memberName? (blanks ++ (quote name ++ ':' :: s)) (some name) s := by
  have skipped : skipBlanks (blanks ++ (quote name ++ ':' :: s)) = quote name ++ ':' :: s := by
    rw [skipBlanks_append all]
    exact skipBlanks_cons rfl
  have colon : Reads colon? (':' :: s) () s := ⟨Nat.lt_succ_self _, rfl⟩
  obtain ⟨shorter, read⟩ := reads_afterBlanks skipped (reads_quote name _)
  obtain ⟨less, ran⟩ := reads_afterBlanks (skipBlanks_cons rfl) colon
  refine ⟨Nat.lt_trans less shorter, ?_⟩
  simp only [memberName?, read, ran, Option.bind_eq_bind, Option.bind_some]
  rfl

theorem reads_member {value : Reader Json} {name : String} {s : List Char} {j : Json}
    (all : ∀ c ∈ blanks, isBlank c = true)
    (later : Reads value s j rest) :
    Reads (readMember value) (blanks ++ (quote name ++ ':' :: s)) (some (name, j)) rest := by
  obtain ⟨shorter, read⟩ := reads_memberName name s all
  obtain ⟨less, ran⟩ := later
  refine ⟨Nat.lt_trans less shorter, ?_⟩
  simp only [readMember, read, ran, Option.bind_eq_bind, Option.bind_some]
  rfl

end Members

section Passing

variable {s t rest : List Char} {c closing : Char} {closings : List Char} {j : Json}

def left {s : List Char} (passed : Option (NoLonger s)) : Option (List Char) := passed.map (·.1)

theorem left_widen {passed : Option (NoLonger s)} (longer : s.length ≤ t.length) :
    left (passed.map (·.widen longer)) = left passed := by
  cases passed <;> rfl

theorem pass_open (sign : Reads nextSign? s c t) (opens : closing? c = some closing) :
    left (pass? .value closings s) = left (pass? .opened (closing :: closings) t) := by
  obtain ⟨shorter, read⟩ := sign
  rw [pass?, read]
  simp only [opens]
  exact left_widen _

theorem pass_scalar (sign : Reads nextSign? s c t) (opens : closing? c = none)
    (here : Reads (afterBlanks scalar?) s j rest) :
    left (pass? .value closings s) = left (pass? .between closings rest) := by
  obtain ⟨shorter, read⟩ := sign
  obtain ⟨less, ran⟩ := here
  rw [pass?, read]
  simp only [opens, ran]
  exact left_widen _

theorem pass_empty (sign : Reads nextSign? s closing t) :
    left (pass? .opened (closing :: closings) s) = left (pass? .between closings t) := by
  obtain ⟨shorter, read⟩ := sign
  rw [pass?, read]
  simp only [if_true]
  exact left_widen _

theorem pass_end (sign : Reads nextSign? s closing t) :
    left (pass? .between (closing :: closings) s) = left (pass? .between closings t) := by
  obtain ⟨shorter, read⟩ := sign
  rw [pass?, read]
  simp only [if_true]
  exact left_widen _

def PartStarts (closing : Char) (s t : List Char) : Prop :=
  ∃ short, partStart? closing s = some ⟨t, short⟩

theorem pass_first (sign : Reads nextSign? s c t) (apart : c ≠ closing)
    (starts : PartStarts closing s rest) :
    left (pass? .opened (closing :: closings) s) = left (pass? .value (closing :: closings) rest) := by
  obtain ⟨shorter, read⟩ := sign
  obtain ⟨short, ran⟩ := starts
  conv => lhs; rw [pass?, read]
  simp only [if_neg apart, ran]
  exact left_widen _

theorem pass_more (sign : Reads nextSign? s ',' t) (apart : ',' ≠ closing)
    (starts : PartStarts closing t rest) :
    left (pass? .between (closing :: closings) s) =
      left (pass? .value (closing :: closings) rest) := by
  obtain ⟨shorter, read⟩ := sign
  obtain ⟨short, ran⟩ := starts
  conv => lhs; rw [pass?, read]
  simp only [if_neg apart, if_true, ran]
  exact left_widen _

section Parts

variable {ι : Type} {l : Layout} {depth : Nat} {items : List ι} {text : ι → List Char}
  (each : ∀ i ∈ items, ∀ blanks rest, (∀ c ∈ blanks, isBlank c = true) → Ends rest →
    ∃ t, PartStarts closing (blanks ++ (text i ++ rest)) t ∧
      left (pass? .value (closing :: closings) t) = left (pass? .between (closing :: closings) rest))
  (closes : Closes closing)

include each closes

theorem pass_further : left (pass? .between (closing :: closings)
      (further l (depth + 1) (items.map text) ++ (l.line depth ++ closing :: rest))) =
    left (pass? .between closings rest) := by
  induction items with
  | nil => exact pass_end (nextSign_eq (skip_line closes))
  | cons i items ih =>
    obtain ⟨here, later⟩ := List.forall_mem_cons.mp each
    obtain ⟨t, starts, passed⟩ := here _ _ (l.line_blank _) (ends_further closes _)
    rw [List.map_cons, further_cons, pass_more (nextSign_eq (skipBlanks_cons rfl)) closes.dark.2 starts, passed]
    exact ih later

theorem pass_inside (first : ∀ i ∈ items, ∃ c s, text i = c :: s ∧ isBlank c = false ∧ c ≠ closing) :
    left (pass? .opened (closing :: closings) (inside l depth closing (items.map text) ++ rest)) =
      left (pass? .between closings rest) := by
  match items with
  | [] => exact pass_empty (nextSign_eq (skipBlanks_cons closes.dark.1))
  | i :: items =>
    obtain ⟨here, later⟩ := List.forall_mem_cons.mp each
    obtain ⟨c, s, shape, dark, apart⟩ := first i List.mem_cons_self
    obtain ⟨t, starts, passed⟩ := here _ _ (l.line_blank (depth + 1))
      (ends_further closes (items.map text))
    rw [shape] at starts
    rw [List.map_cons, inside_cons, shape, pass_first (nextSign_eq (skip_first dark)) apart starts, passed]
    exact pass_further later closes

end Parts

end Passing

section Values

variable {l : Layout} {depth : Nat} {name : String}

theorem partStarts_item (s : List Char) : PartStarts ']' s s := ⟨Nat.le_refl _, if_neg (by decide)⟩

theorem partStarts_member {blanks s : List Char} (all : ∀ c ∈ blanks, isBlank c = true) :
    PartStarts '\x7d' (blanks ++ (quote name ++ ':' :: s)) s := by
  obtain ⟨shorter, read⟩ := reads_memberName name s all
  refine ⟨Nat.le_of_lt shorter, ?_⟩
  rw [partStart?, if_pos rfl, read]
  rfl

theorem skip_text (l : Layout) (depth : Nat) (rest : List Char) {j : Json} (plain : j.isPlain = true)
    {blanks : List Char} (all : ∀ c ∈ blanks, isBlank c = true) :
    skipBlanks (blanks ++ (textChars l depth j ++ rest)) = textChars l depth j ++ rest := by
  obtain ⟨c, s, shape, dark, -⟩ := head_text l depth plain
  rw [skipBlanks_append all, shape]
  exact skipBlanks_cons dark

theorem first_item {items : List Json} (plain : ∀ i ∈ items, i.isPlain = true) : ∀ i ∈ items,
    ∃ c s, textChars l depth i = c :: s ∧ isBlank c = false ∧ c ≠ ']' := fun i inside => by
  obtain ⟨c, s, shape, dark, apart, -⟩ := head_text l depth (plain i inside)
  exact ⟨c, s, shape, dark, apart⟩

theorem first_member {members : List (String × Json)} : ∀ m ∈ members,
    ∃ c s, memberChars l depth m = c :: s ∧ isBlank c = false ∧ c ≠ '\x7d' :=
  fun _ _ => ⟨_, _, rfl, rfl, by decide⟩

theorem pass_value (j : Json) (plain : j.isPlain = true) (closings : List Char) (depth : Nat)
    (blanks rest : List Char) (all : ∀ c ∈ blanks, isBlank c = true) (ends : Ends rest) :
    left (pass? .value closings (blanks ++ (textChars l depth j ++ rest))) =
      left (pass? .between closings rest) := by
  induction j using nested_induct generalizing closings depth blanks rest with
  | leaf j noArray noObject =>
    obtain ⟨c, s, shape, dark, -, -, -, opens⟩ := head_text l depth plain
    have skipped := skip_text l depth rest plain all
    have sign : Reads nextSign? (blanks ++ (textChars l depth j ++ rest)) c (s ++ rest) :=
      nextSign_eq (skipped.trans (by rw [shape]; rfl))
    exact pass_scalar sign (opens noArray noObject)
      (reads_afterBlanks skipped (reads_leaf noArray noObject plain ends))
  | array items ih =>
    rw [isPlain, allPlain_iff] at plain
    have each : ∀ i ∈ items, ∀ blanks rest, (∀ c ∈ blanks, isBlank c = true) → Ends rest →
        ∃ t, PartStarts ']' (blanks ++ (textChars l (depth + 1) i ++ rest)) t ∧
          left (pass? .value (']' :: closings) t) = left (pass? .between (']' :: closings) rest) :=
      fun i inside blanks rest all ends => ⟨_, partStarts_item _,
        ih i inside (plain i inside) _ _ blanks rest all ends⟩
    rw [textChars_arr]
    refine (pass_open (nextSign_eq ((skipBlanks_append all).trans (skipBlanks_cons rfl))) rfl).trans ?_
    exact pass_inside each (.inl rfl) (first_item plain)
  | object members ih =>
    rw [isPlain, membersPlain_iff] at plain
    have each : ∀ m ∈ members, ∀ blanks rest, (∀ c ∈ blanks, isBlank c = true) → Ends rest →
        ∃ t, PartStarts '\x7d' (blanks ++ (memberChars l (depth + 1) m ++ rest)) t ∧
          left (pass? .value ('\x7d' :: closings) t) =
            left (pass? .between ('\x7d' :: closings) rest) := by
      intro m inside blanks rest all ends
      refine ⟨l.gap ++ (textChars l (depth + 1) m.2 ++ rest), ?_,
        ih m inside (plain m inside) _ _ l.gap rest l.gap_blank ends⟩
      rw [memberChars, List.append_assoc, List.cons_append, List.append_assoc]
      exact partStarts_member all
    rw [textChars_obj]
    refine (pass_open (nextSign_eq ((skipBlanks_append all).trans (skipBlanks_cons rfl))) rfl).trans ?_
    exact pass_inside each (.inr rfl) first_member

theorem passed_of_left {c closing : Char} {s rest : List Char} (opens : closing? c = some closing)
    (passed : left (pass? .opened [closing] s) = some rest) : Reads passed? (c :: s) unreadable rest := by
  obtain ⟨after, ran, rfl⟩ := Option.map_eq_some_iff.mp passed
  refine ⟨Nat.lt_succ_of_le after.2, ?_⟩
  rw [passed?, opens]
  simp only [ran, Option.map_some]

theorem reads_passed {j : Json} (plain : j.isPlain = true) {c closing : Char} {s rest : List Char}
    (shape : textChars l depth j ++ rest = c :: s) (opens : closing? c = some closing)
    (dark : isBlank c = false) (ends : Ends rest) :
    Reads passed? (textChars l depth j ++ rest) unreadable rest := by
  have passed := pass_value (l := l) j plain [] depth [] rest (List.forall_mem_nil _) ends
  rw [List.nil_append, shape, pass_open (nextSign_eq (skipBlanks_cons dark)) opens] at passed
  have nothing : left (pass? .between [] rest) = some rest := by
    rw [pass?]
    rfl
  rw [shape]
  exact passed_of_left opens (passed.trans nothing)

theorem reads_beyond {s t rest : List Char} {j : Json} (skipped : skipBlanks s = t)
    (passed : Reads passed? t j rest) : Reads (value? 0) s j rest := by
  obtain ⟨shorter, read⟩ := passed
  rw [value?]
  exact reads_afterBlanks skipped ⟨shorter, by simp only [read]⟩

theorem reads_unopened {c : Char} {s t rest : List Char} {j : Json} (skipped : skipBlanks s = c :: t)
    (opens : closing? c = none) (here : Reads scalar? (c :: t) j rest) (n : Nat) :
    Reads (value? n) s j rest := by
  obtain ⟨shorter, read⟩ := here
  match n with
  | 0 =>
    have none : passed? (c :: t) = none := by rw [passed?, opens]
    rw [value?]
    exact reads_afterBlanks skipped ⟨shorter, by simp only [none, read]⟩
  | n + 1 =>
    have square : c ≠ '[' := fun same => by rw [same] at opens; cases opens
    have curly : c ≠ '\x7b' := fun same => by rw [same] at opens; cases opens
    rw [value?]
    exact reads_afterBlanks skipped ⟨shorter, by simp [square, curly, read]⟩

theorem reads_arr {s t rest : List Char} {items : List Json} {n : Nat} (skipped : skipBlanks s = '[' :: t)
    (here : Reads (parts? (value? n) ']') t items rest) : Reads (value? (n + 1)) s (arr items) rest := by
  obtain ⟨shorter, read⟩ := here
  rw [value?]
  refine reads_afterBlanks skipped ⟨Nat.lt_succ_of_lt shorter, ?_⟩
  simp only [read, Option.map_some]
  rfl

theorem reads_obj {s t rest : List Char} {members : List (String × Json)} {n : Nat}
    (skipped : skipBlanks s = '\x7b' :: t)
    (here : Reads (parts? (readMember (value? n)) '\x7d') t (members.map some) rest) :
    Reads (value? (n + 1)) s (obj members) rest := by
  have all : ofMembers (members.map some) = obj members := by
    have held : (members.map some).mapM id = some members := mapM_map_some fun _ _ => rfl
    rw [ofMembers, held]
  obtain ⟨shorter, read⟩ := here
  rw [value?]
  refine reads_afterBlanks skipped ⟨Nat.lt_succ_of_lt shorter, ?_⟩
  simp only [read, Option.map_some, all]
  rfl

theorem reads_value (j : Json) (plain : j.isPlain = true) (n depth : Nat) (blanks rest : List Char)
    (all : ∀ c ∈ blanks, isBlank c = true) (ends : Ends rest) :
    Reads (value? n) (blanks ++ (textChars l depth j ++ rest)) (j.cut n) rest := by
  have skipped := skip_text l depth rest plain all
  induction j using nested_induct generalizing n depth blanks rest with
  | leaf j noArray noObject =>
    obtain ⟨c, s, shape, -, -, -, -, opens⟩ := head_text l depth plain
    have here : Reads scalar? (textChars l depth j ++ rest) j rest :=
      reads_leaf noArray noObject plain ends
    rw [cut_leaf noArray noObject]
    rw [shape] at here
    exact reads_unopened (skipped.trans (by rw [shape]; rfl)) (opens noArray noObject) here n
  | array items ih =>
    match n with
    | 0 => exact reads_beyond skipped (reads_passed plain rfl rfl rfl ends)
    | n + 1 =>
      rw [isPlain, allPlain_iff] at plain
      rw [cut, cutAll_eq_map]
      refine reads_arr skipped ?_
      rw [textItems_eq_map]
      exact reads_inside (fun i inside blanks rest all ends => ih i inside (plain i inside) n _ blanks rest
        all ends (skip_text l _ rest (plain i inside) all)) (.inl rfl) (first_item plain)
  | object members ih =>
    match n with
    | 0 => exact reads_beyond skipped (reads_passed plain rfl rfl rfl ends)
    | n + 1 =>
      rw [isPlain, membersPlain_iff] at plain
      rw [cut, cutMembers_eq_map]
      refine reads_obj skipped ?_
      rw [textMembers_eq_map, List.map_map]
      refine reads_inside (fun m inside blanks rest all ends => ?_) (.inr rfl) first_member
      rw [memberChars, List.append_assoc, List.cons_append, List.append_assoc]
      exact reads_member all (ih m inside (plain m inside) n _ l.gap rest l.gap_blank ends
        (skip_text l _ rest (plain m inside) l.gap_blank))

theorem parse_of_reads {text : String} {j : Json} (reads : Reads (value? nestingLimit) text.toList j []) :
    parse? text = some j := by
  obtain ⟨shorter, read⟩ := reads
  rw [parse?, read]
  rfl

theorem parse_text {j : Json} (plain : j.isPlain = true) (depth : Nat) :
    parse? (String.ofList (textChars l depth j)) = some (j.cut nestingLimit) := by
  have read := reads_value (l := l) j plain nestingLimit depth [] [] (List.forall_mem_nil _) nofun
  rw [List.nil_append, List.append_nil] at read
  exact parse_of_reads (by rwa [String.toList_ofList])

theorem parse_compact {j : Json} (plain : j.isPlain = true) :
    parse? j.compact = some (j.cut nestingLimit) := by
  rw [compact, ← textChars_oneLine j 0]
  exact parse_text plain 0

theorem parse_pretty {j : Json} (plain : j.isPlain = true) :
    parse? j.pretty = some (j.cut nestingLimit) := by
  rw [pretty, ← textChars_indented]
  exact parse_text plain 0

end Values

end PeerExchange.Json
