import Mathlib.Data.List.Basic
import PeerExchange.Grammar.Scan

namespace PeerExchange.Grammar

inductive Trivia : List Char → Prop
  | nil : Trivia []
  | blank {c : Char} {s : List Char} (here : isBlank c = true) (later : Trivia s) : Trivia (c :: s)
  | comment {inside s : List Char} {stop : Char} (line : ∀ c ∈ inside, isLineEnd c = false)
      (ends : isLineEnd stop = true) (later : Trivia s) :
      Trivia ('/' :: '/' :: inside ++ stop :: s)

-- Pieces with trivia before each of them and behind the last, where a comment may go on to the
-- end of the text.
inductive Spread : List String → List Char → Prop
  | done {gap : List Char} (between : Trivia gap) : Spread [] gap
  | comment {gap inside : List Char} (between : Trivia gap)
      (line : ∀ c ∈ inside, isLineEnd c = false) : Spread [] (gap ++ '/' :: '/' :: inside)
  | piece {first : String} {rest : List String} {gap s : List Char} (between : Trivia gap)
      (later : Spread rest s) : Spread (first :: rest) (gap ++ first.toList ++ s)

section Skipping

variable {c d : Char} {s t gap inside : List Char} {piece : String} {pieces : List String}

theorem Trivia.append (left : Trivia s) (right : Trivia t) : Trivia (s ++ t) := by
  induction left with
  | nil => exact right
  | blank here _ ih => exact .blank here ih
  | comment line ends _ ih =>
    rw [List.append_assoc]
    exact .comment line ends ih

theorem skipTrivia_line : skipTrivia true (c :: s) = skipTrivia (!isLineEnd c) s := by
  rw [skipTrivia.eq_def]
  rfl

theorem skipTrivia_blank (here : isBlank c = true) :
    skipTrivia false (c :: s) = skipTrivia false s := by
  rw [skipTrivia.eq_def]
  simp only [here, if_true, Bool.false_eq_true, if_false]

theorem skipTrivia_slashes : skipTrivia false ('/' :: '/' :: s) = skipTrivia true s := by
  rw [skipTrivia, if_neg (by decide), if_neg (by decide)]

theorem skipTrivia_stop (dark : isBlank c = false) (apart : c ≠ '/') :
    skipTrivia false (c :: s) = c :: s := by
  rw [skipTrivia, if_neg (by decide), if_neg (by simp [dark])]
  exact fun _ same => absurd same apart

theorem skipTrivia_comment (line : ∀ c ∈ inside, isLineEnd c = false) :
    skipTrivia true (inside ++ s) = skipTrivia true s := by
  induction inside with
  | nil => rfl
  | cons c rest ih =>
    obtain ⟨plain, line⟩ := List.forall_mem_cons.mp line
    rw [List.cons_append, skipTrivia_line, plain]
    exact ih line

theorem Trivia.skip (between : Trivia gap) : skipTrivia false (gap ++ s) = skipTrivia false s := by
  induction between with
  | nil => rfl
  | blank here _ ih => exact (skipTrivia_blank here).trans ih
  | comment line ends _ ih =>
    rw [List.append_assoc, List.cons_append, List.cons_append, skipTrivia_slashes,
      skipTrivia_comment line, List.cons_append, skipTrivia_line, ends]
    exact ih

theorem Trivia.head (between : Trivia gap) (shape : gap = c :: s) : isBlank c = true ∨ c = '/' := by
  cases between with
  | nil => cases shape
  | blank here _ =>
    cases shape
    exact .inl here
  | comment line ends _ =>
    cases shape
    exact .inr rfl

namespace Spread

theorem insert (between : Trivia gap) (laid : Spread pieces s) : Spread pieces (gap ++ s) := by
  cases laid with
  | done more => exact .done (between.append more)
  | comment more line =>
    rw [← List.append_assoc]
    exact .comment (between.append more) line
  | piece more later =>
    rw [← List.append_assoc, ← List.append_assoc]
    exact .piece (between.append more) later

theorem drop_blank (laid : Spread (" " :: pieces) s) : Spread pieces s := by
  cases laid with
  | piece between later => exact later.insert (between.append (.blank rfl .nil))

theorem tight (pieces : List String) {more : List String} (laid : Spread more s) :
    Spread (pieces ++ more) (pieces.flatMap String.toList ++ s) := by
  induction pieces with
  | nil => exact laid
  | cons first rest ih =>
    rw [List.flatMap_cons, List.append_assoc]
    exact .piece .nil ih

theorem head (laid : Spread (piece :: pieces) (c :: s)) (starts : piece.toList = d :: t) :
    isBlank c = true ∨ c = '/' ∨ c = d := by
  generalize shape : c :: s = text at laid
  cases laid with
  | @piece _ _ gap rest between later =>
    cases gap with
    | nil =>
      rw [List.nil_append, starts] at shape
      exact .inr (.inr (List.cons.inj shape).1)
    | cons first more =>
      have same := (List.cons.inj shape).1
      subst same
      exact (between.head rfl).imp_right .inl

theorem front (laid : Spread (piece :: pieces) s) (starts : piece.toList = d :: t)
    (dark : isBlank d = false) (apart : d ≠ '/') :
    ∃ rest, skipTrivia false s = piece.toList ++ rest ∧ Spread pieces rest ∧
      rest.length < s.length := by
  cases laid with
  | @piece _ _ gap rest between later =>
    refine ⟨rest, ?_, later, ?_⟩
    · rw [List.append_assoc, between.skip, starts, List.cons_append, skipTrivia_stop dark apart]
    · simp only [List.length_append, starts, List.length_cons]
      omega

theorem skip_done (laid : Spread [] s) : skipTrivia false s = [] := by
  cases laid with
  | done between =>
    rw [← List.append_nil s, between.skip, skipTrivia]
  | @comment _ inside between line =>
    rw [between.skip, skipTrivia_slashes, ← List.append_nil inside, skipTrivia_comment line,
      skipTrivia]

end Spread

end Skipping

section Reading

variable {α β : Type}

-- The scanner reads the pieces as the value and leaves what is laid out behind them.
def Reads (p : Scan α) (a : α) (pieces more : List String) : Prop :=
  ∀ s, Spread (pieces ++ more) s →
    ∃ rest, p s = some (a, rest) ∧ Spread more rest ∧ rest.length < s.length

def Refuses (p : Scan α) (pieces : List String) : Prop := ∀ s, Spread pieces s → p s = none

variable {p q : Scan α} {a : α} {b : β} {f : α → Scan β} {s rest : List Char}
  {pieces next more : List String}

theorem bind_some (took : p s = some (a, rest)) : (p >>= f) s = f a rest := by
  change (p s).bind _ = _
  rw [took]
  rfl

theorem bind_none (took : p s = none) : (p >>= f) s = none := by
  change (p s).bind _ = none
  rw [took]
  rfl

theorem orElse_some (took : p s = some (a, rest)) : (p <|> q) s = some (a, rest) := by
  change (p s <|> q s) = _
  rw [took]
  rfl

theorem orElse_none (took : p s = none) : (p <|> q) s = q s := by
  change (p s <|> q s) = _
  rw [took]
  rfl

theorem Reads.bind (first : Reads p a pieces (next ++ more)) (later : Reads (f a) b next more) :
    Reads (p >>= f) b (pieces ++ next) more := by
  intro s laid
  rw [List.append_assoc] at laid
  obtain ⟨middle, took, laid, shorter⟩ := first s laid
  obtain ⟨rest, ran, laid, less⟩ := later middle laid
  exact ⟨rest, (bind_some took).trans ran, laid, by omega⟩

theorem Reads.finish (reads : Reads p a pieces more) (made : f a = pure b) :
    Reads (p >>= f) b pieces more := by
  intro s laid
  obtain ⟨rest, took, laid, shorter⟩ := reads s laid
  exact ⟨rest, by rw [bind_some took, made]; rfl, laid, shorter⟩

theorem Reads.map {g : α → β} (reads : Reads p a pieces more) : Reads (g <$> p) (g a) pieces more := by
  rw [← bind_pure_comp]
  exact reads.finish rfl

theorem Reads.orElse (reads : Reads p a pieces more) : Reads (p <|> q) a pieces more := by
  intro s laid
  obtain ⟨rest, took, laid, shorter⟩ := reads s laid
  exact ⟨rest, orElse_some took, laid, shorter⟩

theorem Refuses.reads_orElse (refuses : Refuses p (pieces ++ more)) (reads : Reads q a pieces more) :
    Reads (p <|> q) a pieces more := by
  intro s laid
  obtain ⟨rest, took, behind, shorter⟩ := reads s laid
  exact ⟨rest, (orElse_none (refuses s laid)).trans took, behind, shorter⟩

theorem Refuses.orElse (left : Refuses p pieces) (right : Refuses q pieces) :
    Refuses (p <|> q) pieces :=
  fun s laid => (orElse_none (left s laid)).trans (right s laid)

theorem Refuses.bind (refuses : Refuses p pieces) : Refuses (p >>= f) pieces :=
  fun s laid => bind_none (refuses s laid)

theorem Refuses.map {g : α → β} (refuses : Refuses p pieces) : Refuses (g <$> p) pieces := by
  rw [← bind_pure_comp]
  exact refuses.bind

theorem Reads.refuses (first : Reads p a pieces more) (later : Refuses (f a) more) :
    Refuses (p >>= f) (pieces ++ more) := by
  intro s laid
  obtain ⟨middle, took, laid, -⟩ := first s laid
  exact (bind_some took).trans (later middle laid)

theorem maybe_none (took : p s = none) : maybe p s = some (none, s) := by
  rw [maybe, ← bind_pure_comp]
  exact orElse_none (bind_none took)

theorem Refuses.maybe {f : Option α → Scan β} (refuses : Refuses p pieces)
    (later : Refuses (f none) pieces) : Refuses (maybe p >>= f) pieces :=
  fun s laid => (bind_some (maybe_none (refuses s laid))).trans (later s laid)

theorem Reads.blank (reads : Reads p a pieces more) : Reads p a (" " :: pieces) more :=
  fun s laid => reads s laid.drop_blank

theorem Refuses.blank (refuses : Refuses p pieces) : Refuses p (" " :: pieces) :=
  fun s laid => refuses s laid.drop_blank

end Reading

section Tokens

variable {α : Type} {p : Scan α} {a : α} {piece : String} {more : List String}

def Starts (piece : String) : Prop :=
  ∃ c s, piece.toList = c :: s ∧ isBlank c = false ∧ c ≠ '/'

theorem reads_token (starts : Starts piece)
    (scans : ∀ rest, Spread more rest → p (piece.toList ++ rest) = some (a, rest)) :
    Reads (token p) a [piece] more := by
  obtain ⟨c, s, shape, dark, apart⟩ := starts
  intro text laid
  obtain ⟨rest, skipped, behind, shorter⟩ := Spread.front laid shape dark apart
  refine ⟨rest, ?_, behind, shorter⟩
  rw [token, skipped]
  exact scans rest behind

theorem refuses_token (starts : Starts piece)
    (fails : ∀ rest, Spread more rest → p (piece.toList ++ rest) = none) :
    Refuses (token p) (piece :: more) := by
  obtain ⟨c, s, shape, dark, apart⟩ := starts
  intro text laid
  obtain ⟨rest, skipped, behind, -⟩ := Spread.front laid shape dark apart
  rw [token, skipped]
  exact fails rest behind

theorem refuses_token_done (fails : p [] = none) : Refuses (token p) [] := by
  intro text laid
  rw [token, laid.skip_done]
  exact fails

theorem stripChars_append (cs rest : List Char) : stripChars cs (cs ++ rest) = some rest := by
  induction cs with
  | nil => rfl
  | cons c cs ih => rw [List.cons_append, stripChars, if_pos rfl, ih]

theorem stripChars_eq_some {cs s rest : List Char} :
    stripChars cs s = some rest ↔ s = cs ++ rest := by
  induction cs generalizing s with
  | nil => exact ⟨fun same => Option.some.inj same, fun same => congrArg some same⟩
  | cons c cs ih =>
    cases s with
    | nil => exact ⟨nofun, nofun⟩
    | cons d s =>
      rw [stripChars]
      split
      · rename_i same
        rw [ih, same, List.cons_append, List.cons.injEq, and_iff_right rfl]
      · rename_i differ
        exact ⟨nofun, fun same => absurd (List.cons.inj same).1.symm differ⟩

theorem exactly_append (text : String) (rest : List Char) :
    exactly text (text.toList ++ rest) = some ((), rest) := by
  rw [exactly, stripChars_append]
  rfl

theorem exactly_ne {text : String} {c d : Char} {cs s : List Char} (shape : text.toList = c :: cs)
    (differ : d ≠ c) : exactly text (d :: s) = none := by
  rw [exactly, shape, stripChars, if_neg differ.symm]
  rfl

theorem reads_sign {text : String} (starts : Starts text) : Reads (sign text) () [text] more :=
  reads_token starts fun _ _ => exactly_append text _

theorem refuses_sign {text : String} (starts : Starts piece)
    (differ : piece.toList.head? ≠ text.toList.head?) (some : text.toList ≠ []) :
    Refuses (sign text) (piece :: more) := by
  refine refuses_token starts fun rest _ => ?_
  obtain ⟨d, s, shape, -⟩ := starts
  match same : text.toList with
  | [] => exact absurd same some
  | c :: cs =>
    rw [shape, List.cons_append]
    refine exactly_ne same fun equal => differ ?_
    rw [shape, same, equal]
    rfl

theorem refuses_sign_done {text : String} (some : text.toList ≠ []) : Refuses (sign text) [] := by
  refine refuses_token_done ?_
  match same : text.toList with
  | [] => exact absurd same some
  | c :: cs =>
    rw [exactly, same]
    rfl

end Tokens

section Lists

variable {α : Type} {p : Scan α} {each : α → List String} {as : List α} {a : α}
  {more : List String} {P : List String → Prop}

def separated (each : α → List String) : List α → List String
  | [] => []
  | a :: rest => each a ++ rest.flatMap fun b => "," :: " " :: each b

def ends : List String → Bool
  | piece :: _ =>
    match piece.toList with
    | c :: _ => !isWordChar c && c ≠ ':'
    | [] => false
  | [] => false

theorem ends_head (stops : ends more = true) {c : Char} {s : List Char}
    (laid : Spread more (c :: s)) : isWordChar c = false ∧ c ≠ ':' := by
  match more with
  | piece :: _ =>
    match shape : piece.toList with
    | [] => simp [ends, shape] at stops
    | d :: t =>
      simp only [ends, shape, Bool.and_eq_true, Bool.not_eq_true', decide_eq_true_eq] at stops
      rcases laid.head shape with blank | rfl | rfl
      · simp only [isBlank, isLineEnd, Bool.or_eq_true, decide_eq_true_eq] at blank
        rcases blank with (rfl | rfl) | rfl | rfl <;> decide
      · decide
      · exact stops

variable (reads : ∀ a ∈ as, ∀ more, P more → Reads p a (each a) more)
  (comma : ∀ rest, P ("," :: rest)) (stops : P more) (closed : Refuses (sign ",") more)

include reads comma stops closed

theorem many_separated {s : List Char}
    (laid : Spread ((as.flatMap fun a => "," :: " " :: each a) ++ more) s) :
    ∃ rest, many (do sign ","; p) s = some (as, rest) ∧ Spread more rest ∧ rest.length ≤ s.length := by
  induction as generalizing s with
  | nil =>
    refine ⟨s, ?_, laid, Nat.le_refl _⟩
    rw [many, closed.bind s laid]
  | cons a as ih =>
    obtain ⟨here, reads⟩ := List.forall_mem_cons.mp reads
    rw [List.flatMap_cons, List.append_assoc] at laid
    have follows : P ((as.flatMap fun a => "," :: " " :: each a) ++ more) := by
      cases as with
      | nil => exact stops
      | cons _ _ => exact comma _
    have element : Reads (do sign ","; p) a (["," ] ++ " " :: each a) _ :=
      (reads_sign ⟨_, _, rfl, rfl, by decide⟩).bind (here _ follows).blank
    obtain ⟨middle, took, behind, shorter⟩ := element s laid
    obtain ⟨rest, ran, done, less⟩ := ih reads behind
    refine ⟨rest, ?_, done, by omega⟩
    rw [many, took]
    simp only [shorter, if_true, ran, Option.map_some]

theorem reads_commaList (some : as ≠ []) : Reads (commaList p) as (separated each as) more := by
  match as with
  | a :: rest =>
    obtain ⟨here, later⟩ := List.forall_mem_cons.mp reads
    intro s laid
    rw [separated, List.append_assoc] at laid
    have follows : P ((rest.flatMap fun a => "," :: " " :: each a) ++ more) := by
      cases rest with
      | nil => exact stops
      | cons _ _ => exact comma _
    obtain ⟨middle, took, behind, shorter⟩ := here _ follows s laid
    obtain ⟨left, ran, done, less⟩ := many_separated later comma stops closed behind
    refine ⟨left, ?_, done, by omega⟩
    exact (bind_some took).trans (bind_some ran)

end Lists

end PeerExchange.Grammar
