import Mathlib
import PeerExchange.Proofs.DecimalDigits
import PeerExchange.Sql.Printer
import PeerExchange.Sql.Token
import PeerExchange.Text.Hidden

namespace PeerExchange.Sql

namespace Token

variable {cs cs' rest : List Char} {ts ts' : List Token} {name : String} {c : Char}

-- Characters that are read as tokens, whatever is read behind them. They neither start with a vertical
-- tab, which a blank before them would swallow, nor end with a blank, which trimming would take away.
structure Spells (cs : List Char) (ts : List Token) (rest : List Char) : Prop where
  opens : ∃ c more, cs = c :: more ∧ c ≠ '\x0b'
  closes : ∃ front c, cs = front ++ [c] ∧ Text.isBlank c = false
  plain : '\x00' ∉ cs
  reads : ∀ steps, (cs ++ rest).length ≤ steps →
    ∃ left, rest.length ≤ left ∧ readAll steps (cs ++ rest) = ts ++ readAll left rest

-- What may stand behind a word or a number that is complete.
def Closed (rest : List Char) : Prop := ∀ c ∈ rest.head?, c ∈ [' ', ')', ',', ';']

namespace Spells

theorem append (first : Spells cs ts (cs' ++ rest)) (second : Spells cs' ts' rest) :
    Spells (cs ++ cs') (ts ++ ts') rest := by
  obtain ⟨c, more, rfl, tab⟩ := first.opens
  obtain ⟨front, d, shape, dark⟩ := second.closes
  refine ⟨⟨c, more ++ cs', rfl, tab⟩, ⟨c :: more ++ front, d, by simp [shape], dark⟩, ?_, ?_⟩
  · exact fun inside => (List.mem_append.mp inside).elim first.plain second.plain
  · intro steps enough
    rw [List.append_assoc] at enough ⊢
    obtain ⟨left, more, ran⟩ := first.reads steps enough
    obtain ⟨left', more', ran'⟩ := second.reads left more
    exact ⟨left', more', by rw [ran, ran', List.append_assoc]⟩

theorem space {b : Char} (space : b ∈ [' ', '\n']) (later : Spells cs ts rest) :
    Spells (b :: cs) ts rest := by
  obtain ⟨c, more, rfl, tab⟩ := later.opens
  obtain ⟨front, d, shape, dark⟩ := later.closes
  have known : b ≠ '\x0b' ∧ b ≠ '\x00' ∧ isBlank b = true := by
    simp only [List.mem_cons, List.not_mem_nil, or_false] at space
    rcases space with rfl | rfl <;> decide
  refine ⟨⟨b, c :: more, rfl, known.1⟩, ⟨b :: front, d, by rw [shape]; rfl, dark⟩, ?_, ?_⟩
  · exact List.not_mem_cons_of_ne_of_not_mem known.2.1.symm later.plain
  · intro steps enough
    cases steps with
    | zero => cases enough
    | succ steps =>
      obtain ⟨left, more', ran⟩ := later.reads steps (Nat.le_of_succ_le_succ enough)
      refine ⟨left, more', ?_⟩
      rw [← ran, List.cons_append, readAll, if_pos known.2.2, List.cons_append, List.dropWhile_cons_of_neg]
      simpa using tab

theorem blank (later : Spells cs ts rest) : Spells (' ' :: cs) ts rest := later.space (by decide)

end Spells

-- A part that may be missing: what is behind is closed, and the tokens before it are read as they are.
structure Continues (cs : List Char) (ts : List Token) (rest : List Char) : Prop where
  closed : Closed (cs ++ rest)
  after : ∀ {front earlier}, Spells front earlier (cs ++ rest) → Spells (front ++ cs) (earlier ++ ts) rest

namespace Continues

theorem none (closed : Closed rest) : Continues [] [] rest :=
  ⟨closed, fun first => by simpa using first⟩

theorem of_spells (closed : Closed (cs ++ rest)) (spells : Spells cs ts rest) : Continues cs ts rest :=
  ⟨closed, fun first => first.append spells⟩

theorem append (first : Continues cs ts (cs' ++ rest)) (second : Continues cs' ts' rest) :
    Continues (cs ++ cs') (ts ++ ts') rest where
  closed := by simpa using first.closed
  after earlier := by
    rw [List.append_assoc] at earlier
    simpa using second.after (first.after earlier)

end Continues

theorem readAll_read {s : List Char} (steps : Nat) (dark : isBlank c = false) (mark : c ≠ '\uFEFF')
    (dash : c = '-' → s.head? ≠ some '-') (slash : c ≠ '/') :
    readAll (steps + 1) (c :: s) = (read (c :: s)).1 :: readAll steps (read (c :: s)).2 := by
  have single : (c = '-' && s.head? = some '-') = false := by
    by_cases same : c = '-'
    · simpa [same] using dash same
    · simp [same]
  simp only [readAll, dark, Bool.false_eq_true, if_neg mark, single, slash, decide_false, Bool.false_and,
    if_false]

theorem spells_of_read {more : List Char} {t : Token} (dark : isBlank c = false) (mark : c ≠ '\uFEFF')
    (dash : c = '-' → (more ++ rest).head? ≠ some '-') (slash : c ≠ '/') (tab : c ≠ '\x0b')
    (closes : ∃ front d, c :: more = front ++ [d] ∧ Text.isBlank d = false) (plain : '\x00' ∉ c :: more)
    (taken : read (c :: (more ++ rest)) = (t, rest)) : Spells (c :: more) [t] rest := by
  refine ⟨⟨c, more, rfl, tab⟩, closes, plain, fun steps enough => ?_⟩
  cases steps with
  | zero => cases enough
  | succ steps =>
    refine ⟨steps, ?_, ?_⟩
    · simp only [List.cons_append, List.length_cons, List.length_append] at enough
      omega
    · rw [List.cons_append, readAll_read steps dark mark dash slash, taken]
      rfl

theorem forall_of_all {P : Char → Prop} [DecidablePred P] {s : List Char}
    (all : s.all (fun d => decide (P d)) = true) : ∀ d ∈ s, P d :=
  fun d inside => of_decide_eq_true (List.all_eq_true.mp all d inside)

def isBareChar (c : Char) : Bool := c.isAlphanum || c = '_'

def isBare (name : String) : Bool :=
  match name.toList with
  | c :: rest => !c.isDigit && (c :: rest).all isBareChar
  | [] => false

theorem isBare_cases (bare : isBare name = true) :
    ∃ c more, name.toList = c :: more ∧ c.isDigit = false ∧ ∀ d ∈ c :: more, isBareChar d = true := by
  unfold isBare at bare
  split at bare
  · rename_i c more shape
    rw [Bool.and_eq_true, Bool.not_eq_true', List.all_eq_true] at bare
    exact ⟨c, more, shape, bare⟩
  · cases bare

theorem ne_of_bare {d : Char} (bare : isBareChar c = true) (other : isBareChar d = false) : c ≠ d := by
  rintro rfl
  rw [bare] at other
  cases other

theorem bare_of_digit (digit : c.isDigit = true) : isBareChar c = true := by
  simp [isBareChar, Char.isAlphanum, digit]

theorem isNameChar_of_bare (bare : isBareChar c = true) : isNameChar c = true := by
  rw [isBareChar, Bool.or_eq_true] at bare
  rcases bare with alpha | line
  · simp [isNameChar, alpha]
  · simp [isNameChar, line]

theorem bounds_of_bare (bare : isBareChar c = true) :
    (48 ≤ c.toNat ∧ c.toNat ≤ 57) ∨ (65 ≤ c.toNat ∧ c.toNat ≤ 90) ∨ c.toNat = 95 ∨
      (97 ≤ c.toNat ∧ c.toNat ≤ 122) := by
  simp only [isBareChar, Char.isAlphanum, Char.isAlpha, Char.isUpper, Char.isLower, Char.isDigit,
    Bool.or_eq_true, Bool.and_eq_true, decide_eq_true_eq, UInt32.le_iff_toNat_le, ge_iff_le] at bare
  rcases bare with ((bare | bare) | bare) | rfl
  · exact .inr (.inl bare)
  · exact .inr (.inr (.inr bare))
  · exact .inl bare
  · exact .inr (.inr (.inl rfl))

theorem dark_of_bare (bare : isBareChar c = true) : Text.isBlank c = false := by
  have bounds := bounds_of_bare bare
  simp only [Text.isBlank, Bool.or_eq_false_iff, Bool.and_eq_false_iff, decide_eq_false_iff_not,
    beq_eq_false_iff_ne]
  omega

theorem isBlank_of_bare (bare : isBareChar c = true) : isBlank c = false := by
  simp only [isBlank, List.contains_eq_mem, decide_eq_false_iff_not, List.mem_cons, List.not_mem_nil,
    or_false, not_or]
  exact ⟨ne_of_bare bare (by decide), ne_of_bare bare (by decide), ne_of_bare bare (by decide),
    ne_of_bare bare (by decide), ne_of_bare bare (by decide)⟩

theorem closes_of_all {more : List Char} (all : ∀ d ∈ c :: more, Text.isBlank d = false) :
    ∃ front d, c :: more = front ++ [d] ∧ Text.isBlank d = false :=
  ⟨_, _, (List.dropLast_append_getLast (List.cons_ne_nil c more)).symm, all _ (List.getLast_mem _)⟩

theorem spells_bare {more : List Char} {t : Token} (bare : ∀ d ∈ c :: more, isBareChar d = true)
    (taken : read (c :: (more ++ rest)) = (t, rest)) : Spells (c :: more) [t] rest := by
  have own := bare c List.mem_cons_self
  have apart {d : Char} (other : isBareChar d = false) : c ≠ d := ne_of_bare own other
  refine spells_of_read (isBlank_of_bare own) (apart (by decide))
    (fun same => absurd same (apart (by decide)))
    (apart (by decide)) (apart (by decide)) (closes_of_all fun d inside =>
    dark_of_bare (bare d inside)) ?_ taken
  exact fun inside => ne_of_bare (bare _ inside) (by decide) rfl

theorem span_append {p : Char → Bool} {inside : List Char} (all : ∀ d ∈ inside, p d = true)
    (stops : ∀ d ∈ rest.head?, p d = false) : span p (inside ++ rest) = (inside, rest) := by
  have none : rest.takeWhile p = [] ∧ rest.dropWhile p = rest := by
    cases rest with
    | nil => exact ⟨rfl, rfl⟩
    | cons d rest => simp [stops d rfl]
  rw [span, List.takeWhile_append_of_pos all, List.dropWhile_append_of_pos all, none.1, none.2,
    List.append_nil]

def markers : List Char := ['\'', '"', Char.ofNat 96, '[', '?', '$', '@', '#', ':']

-- Characters that start neither a quoted name, nor a number, nor a parameter.
structure Starts (c : Char) (s : List Char) : Prop where
  apart : c ∉ markers
  digit : c.isDigit = false
  dot : c = '.' → ∀ d ∈ s.head?, d.isDigit = false
  bytes : c = 'x' ∨ c = 'X' → s.head? ≠ some '\''

theorem read_of_starts {s : List Char} (starts : Starts c s) : read (c :: s) =
    if isNameStart c then (word (String.ofList (c :: (span isNameChar s).1)), (span isNameChar s).2)
    else readSign (c :: s) := by
  obtain ⟨apart, digit, dot, bytes⟩ := starts
  simp only [markers, List.mem_cons, not_or] at apart
  obtain ⟨quote, double, back, bracket, ask, dollar, at_, hash, colon, -⟩ := apart
  have number : (c.isDigit || c = '.' && s.head?.any Char.isDigit) = false := by
    by_cases same : c = '.'
    · cases s with
      | nil => simp [digit]
      | cons d s => simp [digit, dot same d rfl]
    · simp [digit, same]
  have hex : ((c = 'x' || c = 'X') && s.head? = some '\'') = false := by
    by_cases same : c = 'x' ∨ c = 'X'
    · simp [bytes same]
    · simpa using fun known => absurd known same
  simp only [read, number, hex]
  simp [quote, double, back, bracket, ask, dollar, at_, hash, colon]

theorem spells_word (name : String) (bare : isBare name = true)
    (stops : ∀ d ∈ rest.head?, isNameChar d = false ∧ d ≠ '\'') : Spells name.toList [word name] rest := by
  obtain ⟨c, more, shape, digit, all⟩ := isBare_cases bare
  obtain ⟨own, others⟩ := List.forall_mem_cons.mp all
  have apart {d : Char} (other : isBareChar d = false) : c ≠ d := ne_of_bare own other
  have start : isNameStart c = true := by
    have known := own
    simp only [isBareChar, Char.isAlphanum, digit, Bool.or_false] at known
    simp only [isNameStart, known, Bool.true_or]
  have head : (more ++ rest).head? ≠ some '\'' := by
    cases more with
    | nil => exact fun same => (stops _ same).2 rfl
    | cons d more =>
      intro same
      cases same
      exact absurd (others '\'' List.mem_cons_self) (by decide)
  have outside : markers.all (fun d => !isBareChar d) = true := by decide
  have taken := read_of_starts
    ⟨fun inside => apart (by simpa using List.all_eq_true.mp outside c inside) rfl, digit, fun same =>
    absurd same (apart (by decide)), fun _ => head⟩
  rw [if_pos start, span_append (fun d inside => isNameChar_of_bare (others d inside)) fun d inside =>
    (stops d inside).1, ← shape, String.ofList_toList] at taken
  rw [shape]
  exact spells_bare all taken

-- The characters that complete what stands before them.
theorem Closed.all (closed : Closed rest) {P : Char → Prop} [DecidablePred P]
    (known : [' ', ')', ',', ';'].all (fun e => decide (P e)) = true) : ∀ d ∈ rest.head?, P d :=
  fun d inside => forall_of_all known d (closed d inside)

theorem stops_of_closed (closed : Closed rest) : ∀ d ∈ rest.head?, isNameChar d = false ∧ d ≠ '\'' :=
  closed.all (by decide)

theorem readDecimal_digits {digits : List Char} (all : ∀ d ∈ digits, d.isDigit = true)
    (closed : Closed rest) : readDecimal (digits ++ rest) = (integer (String.ofList digits), rest) := by
  have fraction : readFraction rest = ([], rest) := by
    cases rest with
    | nil => rfl
    | cons d rest =>
      have dot : d ≠ '.' := closed.all (P := (· ≠ '.')) (by decide) d rfl
      simp [readFraction, dot]
  have exponent : readExponent rest = ([], rest) := by
    cases rest with
    | nil => rfl
    | cons d rest =>
      have mark : d ≠ 'e' ∧ d ≠ 'E' := closed.all (P := fun d => d ≠ 'e' ∧ d ≠ 'E') (by decide) d rfl
      simp [readExponent, mark]
  have tail : span isNameChar rest = ([], rest) :=
    @span_append _ isNameChar [] (fun _ inside => (List.not_mem_nil inside).elim) fun d inside =>
      (stops_of_closed closed d inside).1
  have stops : ∀ d ∈ rest.head?, d.isDigit = false := closed.all (by decide)
  rw [readDecimal, span_append all stops]
  simp only [fraction, exponent, tail]
  simp

theorem readNumber_nat (n : Nat) (closed : Closed rest) :
    readNumber (Nat.toDigits 10 n ++ rest) = (integer (toString n), rest) := by
  have decimal := readDecimal_digits (isDigit_toDigits n) closed
  rw [show String.ofList (Nat.toDigits 10 n) = toString n from
    (Nat.repr_eq_ofList_toDigits ..).symm] at decimal
  rw [← decimal]
  unfold readNumber
  split
  · rename_i x d more shape
    have hex : ¬ (x = 'x' ∨ x = 'X') := by
      obtain ⟨first, digits, digitsShape, zero⟩ := head_toDigits n
      have all := isDigit_toDigits n
      rw [digitsShape] at shape all
      rw [List.cons_append] at shape
      obtain ⟨-, behind⟩ := List.cons.inj shape
      cases digits with
      | nil =>
        have known : x ≠ 'x' ∧ x ≠ 'X' :=
          closed.all (P := fun x => x ≠ 'x' ∧ x ≠ 'X') (by decide) x (by
            rw [show rest = x :: d :: more from behind]
            rfl)
        simp [known]
      | cons e digits =>
        obtain ⟨rfl, -⟩ := List.cons.inj behind
        have digit := all e (List.mem_cons_of_mem _ List.mem_cons_self)
        rintro (rfl | rfl) <;> exact absurd digit (by decide)
    rw [if_neg (by simp [hex]), shape]
  · rfl

theorem toList_nat (n : Nat) : (toString n).toList = Nat.toDigits 10 n := by
  rw [Nat.toString_eq_repr, Nat.repr_eq_ofList_toDigits, String.toList_ofList]

theorem spells_nat (n : Nat) (closed : Closed rest) :
    Spells (toString n).toList [integer (toString n)] rest := by
  obtain ⟨first, more, shape, -⟩ := head_toDigits n
  have digits := isDigit_toDigits n
  have number := readNumber_nat n closed
  rw [toList_nat, shape]
  rw [shape] at digits number
  refine spells_bare (fun d inside => bare_of_digit (digits d inside)) ?_
  have digit := digits first List.mem_cons_self
  have apart {d : Char} (other : isBareChar d = false) : first ≠ d := ne_of_bare (bare_of_digit digit) other
  rw [← number, List.cons_append]
  simp [read, digit, apart (d := '\'') (by decide), apart (d := '"') (by decide),
    apart (d := Char.ofNat 96) (by decide), apart (d := '[') (by decide)]

theorem spells_parameter (n : Nat) (closed : Closed rest) :
    Spells ("?" ++ toString n).toList [parameter ("?" ++ toString n)] rest := by
  have digits := isDigit_toDigits n
  have text : ("?" ++ toString n).toList = '?' :: Nat.toDigits 10 n := by
    rw [String.toList_append, toList_nat]
    rfl
  rw [text]
  refine spells_of_read (by decide) (by decide) (fun same => absurd same (by decide)) (by decide)
    (by decide)
    (closes_of_all ?_) ?_ ?_
  · exact List.forall_mem_cons.mpr
      ⟨by decide, fun d inside => dark_of_bare (bare_of_digit (digits d inside))⟩
  · refine List.not_mem_cons_of_ne_of_not_mem (by decide) fun inside => ?_
    exact ne_of_bare (bare_of_digit (digits _ inside)) (by decide) rfl
  · have made : String.ofList ('?' :: Nat.toDigits 10 n) = "?" ++ toString n := by
      rw [← text, String.ofList_toList]
    rw [← made]
    simp only [read, span_append digits (closed.all (by decide))]
    rfl

theorem quoted_text (s : List Char) (stops : rest.head? ≠ some '\'') :
    quoted '\'' (s.flatMap (fun c => if c = '\'' then ['\'', '\''] else [c]) ++ '\'' :: rest) =
      some (s.flatMap (fun c => if c = '\'' then ['\'', '\''] else [c]) ++ ['\''], s, rest) := by
  induction s with
  | nil =>
    cases rest with
    | nil => rfl
    | cons d rest =>
      have apart : d ≠ '\'' := fun same => stops (congrArg some same)
      simp [quoted, apart]
  | cons c s ih =>
    by_cases quote : c = '\''
    · subst quote
      simp [quoted, ih]
    · rw [List.flatMap_cons, if_neg quote, List.append_assoc, List.singleton_append]
      unfold quoted
      rw [if_neg quote, ih]
      rfl

theorem spells_text {s : String} (plain : '\x00' ∉ s.toList) (closed : Closed rest) :
    Spells (quoteText s).toList [string (quoteText s) s] rest := by
  have stops : rest.head? ≠ some '\'' := fun same => (stops_of_closed closed _ same).2 rfl
  have text : (quoteText s).toList =
      '\'' :: (s.toList.flatMap (fun c => if c = '\'' then ['\'', '\''] else [c]) ++ ['\'']) := by
    rw [quoteText, String.toList_ofList]
    rfl
  have made : String.ofList ('\'' :: (s.toList.flatMap (fun c => if c = '\'' then ['\'', '\''] else [c]) ++
      ['\''])) = quoteText s := by
    rw [← text, String.ofList_toList]
  rw [text]
  refine spells_of_read (by decide) (by decide) (fun same => absurd same (by decide)) (by decide)
    (by decide)
    ⟨_ :: _, '\'', rfl, by decide⟩ ?_ ?_
  · intro inside
    rcases List.mem_cons.mp inside with impossible | inside
    · cases impossible
    rcases List.mem_append.mp inside with inside | impossible
    · obtain ⟨c, own, here⟩ := List.mem_flatMap.mp inside
      split at here
      · simp at here
      · rw [List.mem_singleton.mp here] at plain
        exact plain own
    · simp at impossible
  · rw [List.append_assoc, List.singleton_append]
    have read_quote (s : List Char) : read ('\'' :: s) = readQuoted '\'' s := rfl
    rw [read_quote, readQuoted, quoted_text s.toList stops]
    simp only [made, String.ofList_toList, if_true]

theorem spells_sign {text : String} {more : List Char} (shape : text.toList = c :: more)
    (starts : Starts c (more ++ rest))
    (dark : (c :: more).all (fun d => !Text.isBlank d && d ≠ '\x00') = true)
    (apart : isBlank c = false ∧ c ≠ '\uFEFF' ∧ c ≠ '/' ∧ c ≠ '\x0b' ∧ isNameStart c = false)
    (dash : c = '-' → (more ++ rest).head? ≠ some '-')
    (found : signs.find? (·.toList.isPrefixOf (c :: (more ++ rest))) = some text) :
    Spells (c :: more) [sign text] rest := by
  obtain ⟨blank, mark, slash, tab, start⟩ := apart
  have dark (d : Char) (inside : d ∈ c :: more) : Text.isBlank d = false ∧ d ≠ '\x00' := by
    simpa using List.all_eq_true.mp dark d inside
  refine spells_of_read blank mark dash slash tab (closes_of_all fun d inside => (dark d inside).1)
    (fun inside => (dark _ inside).2 rfl) ?_
  rw [read_of_starts starts, start, if_neg Bool.false_ne_true, readSign, found]
  have length : text.length = (c :: more).length := by rw [← shape, String.length_toList]
  simp only [length, ← List.cons_append, List.drop_left]

theorem starts_sign {s : List Char} (known : c ∈ ['(', ')', ',', ';', '=', '!', '<', '>', '+', '-', '|']) :
    Starts c s := by
  have all : ∀ e ∈ ['(', ')', ',', ';', '=', '!', '<', '>', '+', '-', '|'],
      e ∉ markers ∧ e.isDigit = false ∧ e ≠ '.' ∧ e ≠ 'x' ∧ e ≠ 'X' := forall_of_all (by decide)
  obtain ⟨apart, digit, dot, small, large⟩ := all c known
  exact ⟨apart, digit, fun same => absurd same dot, fun same => (same.elim small large).elim⟩

theorem spells_tight (c : Char) (text : String)
    (known : (c, text) ∈ [('(', "("), (')', ")"), (',', ","), (';', ";")]) :
    Spells [c] [sign text] rest := by
  simp only [List.mem_cons, List.not_mem_nil, or_false, Prod.mk.injEq] at known
  rcases known with ⟨rfl, rfl⟩ | ⟨rfl, rfl⟩ | ⟨rfl, rfl⟩ | ⟨rfl, rfl⟩
  all_goals
    exact spells_sign rfl (starts_sign (by decide)) (by decide) (by decide)
      (fun same => absurd same (by decide)) (by simp [signs])

theorem spells_spaced {text : String} (c : Char) (more : List Char) (shape : text.toList = c :: more)
    (known : c ∈ ['=', '!', '<', '>', '+', '-']) (tail : more ∈ [[], ['=']])
    (found : signs.find? (·.toList.isPrefixOf (c :: (more ++ ' ' :: rest))) = some text) :
    Spells text.toList [sign text] (' ' :: rest) := by
  have all : ∀ e ∈ ['=', '!', '<', '>', '+', '-'], ∀ tail ∈ [[], ['=']],
      e ∈ ['(', ')', ',', ';', '=', '!', '<', '>', '+', '-', '|'] ∧
      (e :: tail).all (fun d => !Text.isBlank d && d ≠ '\x00') = true ∧
      (isBlank e = false ∧ e ≠ '\uFEFF' ∧ e ≠ '/' ∧ e ≠ '\x0b' ∧ isNameStart e = false) :=
    forall_of_all (by decide)
  obtain ⟨sign, dark, apart⟩ := all c known more tail
  rw [shape]
  refine spells_sign shape (starts_sign sign) dark apart (fun _ => ?_) found
  simp only [List.mem_cons, List.not_mem_nil, or_false] at tail
  rcases tail with rfl | rfl <;> simp

theorem spells_symbol (op : BinaryOp) (written : op ≠ .is) :
    Spells op.symbol.toList [sign op.symbol] (' ' :: rest) := by
  cases op with
  | is => exact absurd rfl written
  | eq => exact spells_spaced '=' [] rfl (by decide) (by decide) (by simp [signs, BinaryOp.symbol])
  | ne => exact spells_spaced '!' ['='] rfl (by decide) (by decide) (by simp [signs, BinaryOp.symbol])
  | lt => exact spells_spaced '<' [] rfl (by decide) (by decide) (by simp [signs, BinaryOp.symbol])
  | le => exact spells_spaced '<' ['='] rfl (by decide) (by decide) (by simp [signs, BinaryOp.symbol])
  | gt => exact spells_spaced '>' [] rfl (by decide) (by decide) (by simp [signs, BinaryOp.symbol])
  | ge => exact spells_spaced '>' ['='] rfl (by decide) (by decide) (by simp [signs, BinaryOp.symbol])
  | plus => exact spells_spaced '+' [] rfl (by decide) (by decide) (by simp [signs, BinaryOp.symbol])
  | minus => exact spells_spaced '-' [] rfl (by decide) (by decide) (by simp [signs, BinaryOp.symbol])

theorem spells_bars : Spells ['|', '|'] [sign "||"] (' ' :: rest) :=
  spells_sign rfl (starts_sign (by decide)) (by decide) (by decide) (by simp) (by simp [signs])

theorem spells_minus (digit : c.isDigit = true) (more : List Char) :
    Spells ['-'] [sign "-"] (c :: more) := by
  have apart {d : Char} (other : d.isDigit = false) : c ≠ d := by
    rintro rfl
    rw [digit] at other
    cases other
  refine spells_sign rfl (starts_sign (by decide)) (by decide) (by decide) (fun _ same => ?_) ?_
  · cases same
    cases digit
  · simp [signs, (apart (d := '>') (by decide)).symm]

theorem spells_dot (stops : ∀ d ∈ rest.head?, d.isDigit = false) : Spells ['.'] [sign "."] rest :=
  spells_sign rfl ⟨by decide, by decide, fun _ => stops, fun same => absurd same (by decide)⟩ (by decide)
    (by decide) (fun same => absurd same (by decide)) (by simp [signs])

end Token

end PeerExchange.Sql
