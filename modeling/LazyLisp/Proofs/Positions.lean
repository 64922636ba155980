import LazyLisp.Diagnostic
import LazyLisp.Proofs.Lexing.Words

/-!
# Positions: the line and column of a place

Whoever looks for a place in a text goes over its characters one after the
other: each one is a column, and after a line end the next character opens a
line.  A carriage return before a line feed ends no line, and neither does a
line end that nothing follows.

A diagnostic finds its place in another way, from the lengths of all lines.
Both ways lead to the same line and column, so what a diagnostic shows as a
place can be judged by the walk.

## Main results

* `position_locate` — the line that is looked up is the one that the walk is
  in.
* `position_injective` — no two places have the same line and column.
* `placeText_eq_iff` — a diagnostic shows the place of a character only if it
  counts as many characters as there are before it.
-/

namespace LazyLisp

namespace Text

/-- A line and a column of a text, both counted from one. -/
structure Position where
  line : Nat
  column : Nat
deriving DecidableEq

namespace Position

/-- Whether the text after a character begins with a new line. -/
def opensLine (c : Char) : List Char → Bool
  | [] => false
  | d :: _ => endsLine c && !(c == '\r' && d == '\n')

/-- The position after a character, and before the rest of the text. -/
def advance (p : Position) (c : Char) (rest : List Char) : Position :=
  if opensLine c rest then ⟨p.line + 1, 1⟩ else ⟨p.line, p.column + 1⟩

/-- After a line end that something follows a line begins. -/
theorem advance_of_endsLine {p : Position} {c : Char} {rest : List Char} (h : endsLine c = true)
    (hnewline : ∀ more, c = '\r' → rest ≠ '\n' :: more) :
    p.advance c rest = if rest = [] then ⟨p.line, p.column + 1⟩ else ⟨p.line + 1, 1⟩ := by
  cases rest with
  | nil => rfl
  | cons d more =>
      have hopens : opensLine c (d :: more) = true := by
        simp only [opensLine, h, Bool.true_and, Bool.not_eq_true', Bool.and_eq_false_imp,
          beq_iff_eq, beq_eq_false_iff_ne]
        rintro hc rfl
        exact hnewline more hc rfl
      rw [advance, if_pos hopens, if_neg (List.cons_ne_nil d more)]

private theorem advance_of_not_endsLine {p : Position} {c : Char} {rest : List Char}
    (h : ¬ endsLine c = true) : p.advance c rest = ⟨p.line, p.column + 1⟩ := by
  cases rest with
  | nil => rfl
  | cons d more =>
      have hopens : ¬ opensLine c (d :: more) = true := by simp [opensLine, h]
      rw [advance, if_neg hopens]

/-- The position after so many characters.  Past the end of the text there are
only further columns. -/
def walk : Position → List Char → Nat → Position
  | p, _, 0 => p
  | p, [], k + 1 => ⟨p.line, p.column + (k + 1)⟩
  | p, c :: rest, k + 1 => walk (p.advance c rest) rest k

@[simp] theorem walk_zero (p : Position) (cs : List Char) : p.walk cs 0 = p := by
  cases cs <;> rfl

@[simp] theorem walk_nil (p : Position) (k : Nat) : p.walk [] k = ⟨p.line, p.column + k⟩ := by
  cases k <;> rfl

@[simp] theorem walk_cons (p : Position) (c : Char) (rest : List Char) (k : Nat) :
    p.walk (c :: rest) (k + 1) = (p.advance c rest).walk rest k := rfl

/-- The position as a user reads it, in a source of this name. -/
def text (name : String) (p : Position) : String :=
  name ++ ":" ++ p.line.repr ++ ":" ++ p.column.repr

/-- The position stands before the other one in the same text. -/
def Precedes (p q : Position) : Prop := p.line < q.line ∨ p.line = q.line ∧ p.column < q.column

private theorem Precedes.trans {p q r : Position} (h : p.Precedes q) (h' : q.Precedes r) :
    p.Precedes r := by
  unfold Precedes at *
  omega

private theorem Precedes.ne {p q : Position} (h : p.Precedes q) : p ≠ q := by
  rintro rfl
  unfold Precedes at h
  omega

private theorem precedes_advance (p : Position) (c : Char) (rest : List Char) :
    p.Precedes (p.advance c rest) := by
  unfold advance
  split
  · exact .inl (Nat.lt_succ_self _)
  · exact .inr ⟨rfl, Nat.lt_succ_self _⟩

private theorem precedes_walk (p : Position) (cs : List Char) (k : Nat) :
    p.Precedes (p.walk cs (k + 1)) := by
  induction k generalizing p cs with
  | zero =>
      cases cs with
      | nil => exact .inr ⟨rfl, Nat.lt_succ_self _⟩
      | cons c rest =>
          rw [walk_cons, walk_zero]
          exact precedes_advance p c rest
  | succ k ih =>
      cases cs with
      | nil => exact .inr ⟨rfl, Nat.lt_add_of_pos_right (Nat.succ_pos _)⟩
      | cons c rest => exact (precedes_advance p c rest).trans (ih _ rest)

private theorem walk_injective {p : Position} {cs : List Char} {j k : Nat}
    (h : p.walk cs j = p.walk cs k) : j = k := by
  induction j generalizing p cs k with
  | zero =>
      cases k with
      | zero => rfl
      | succ k =>
          rw [walk_zero] at h
          exact absurd h (precedes_walk p cs k).ne
  | succ j ih =>
      cases k with
      | zero =>
          rw [walk_zero] at h
          exact absurd h.symm (precedes_walk p cs j).ne
      | succ k =>
          cases cs with
          | nil =>
              have hcolumn := congrArg Position.column h
              simp only [walk] at hcolumn
              omega
          | cons c rest => exact congrArg (· + 1) (ih h)

end Position

/-- The position of the character at this place of a text, or of its end. -/
def position (cs : List Char) (place : Nat) : Position := Position.walk ⟨1, 1⟩ cs place

theorem position_injective {cs : List Char} {j k : Nat} (h : position cs j = position cs k) :
    j = k :=
  Position.walk_injective h

/-! ## The line that is looked up -/

/-- The position of a place in a line. -/
def Line.position (l : Line) (place : Nat) : Position := ⟨l.number + 1, place - l.start + 1⟩

@[simp] theorem Line.position_add (l : Line) (k : Nat) :
    l.position (l.start + k) = ⟨l.number + 1, k + 1⟩ := by
  rw [Line.position, Nat.add_sub_cancel_left]

section Locate

variable {number start place seen : Nat} {cs : List Char}

private theorem locateFrom_of_lt {length : Nat} (h : place < start + length) (rest : List Nat) :
    locateFrom number start place (length :: rest) = ⟨number, start, length⟩ := by
  cases rest with
  | nil => rfl
  | cons next more => rw [locateFrom, if_pos h]; exact nofun

private theorem locateFrom_of_le {length : Nat} {rest : List Nat} (h : start + length ≤ place)
    (hrest : rest ≠ []) :
    locateFrom number start place (length :: rest) =
      locateFrom (number + 1) (start + length) place rest := by
  cases rest with
  | nil => exact absurd rfl hrest
  | cons next more => rw [locateFrom, if_neg (by omega)]; exact nofun

/-- The first line has all the characters that are passed already. -/
theorem lineLengths_eq_cons {seen : Nat} (cs : List Char) (h : 0 < seen ∨ cs ≠ []) :
    ∃ length rest, lineLengths seen cs = length :: rest ∧ seen ≤ length := by
  fun_induction lineLengths seen cs with
  | case1 => simp at h
  | case2 seen hseen => exact ⟨_, _, rfl, Nat.le_refl _⟩
  | case3 => exact ⟨_, _, rfl, Nat.le_add_right _ _⟩
  | case4 => exact ⟨_, _, rfl, Nat.le_add_right _ _⟩
  | case5 seen c rest _ _ ih =>
      obtain ⟨length, more, hlengths, hle⟩ := ih (.inl (Nat.succ_pos seen))
      exact ⟨length, more, hlengths, Nat.le_of_succ_le hle⟩

/-- Walking on after the end of a line leads to the position in the line that is
looked up, if this holds of the lines that follow. -/
theorem walk_after_line (length : Nat)
    (hrest : cs ≠ [] → ∀ number start k, Position.walk ⟨number + 1, 1⟩ cs k =
      (locateFrom number start (start + k) (lineLengths 0 cs)).position (start + k))
    (number start k : Nat) :
    Position.walk (if cs = [] then ⟨number + 1, length + 1⟩ else ⟨number + 2, 1⟩) cs k =
      (locateFrom number start (start + (length + k)) (length :: lineLengths 0 cs)).position
        (start + (length + k)) := by
  by_cases hcs : cs = []
  · subst hcs
    rw [if_pos rfl, Position.walk_nil, Nat.add_right_comm]
    exact (Line.position_add ⟨number, start, length⟩ (length + k)).symm
  · obtain ⟨next, more, hlengths, -⟩ := @lineLengths_eq_cons 0 cs (.inr hcs)
    rw [if_neg hcs, hrest hcs (number + 1) (start + length) k, ← Nat.add_assoc,
      locateFrom_of_le (Nat.le_add_right _ _) (hlengths ▸ List.cons_ne_nil next more)]

/-- Walking on from inside a line leads to the position in the line that is
looked up. -/
theorem walk_eq_position_locateFrom (h : 0 < seen ∨ cs ≠ []) (number start k : Nat) :
    Position.walk ⟨number + 1, seen + 1⟩ cs k =
      (locateFrom number start (start + (seen + k)) (lineLengths seen cs)).position
        (start + (seen + k)) := by
  -- as the lines are measured; the place is in the first of them or after it
  fun_induction lineLengths seen cs generalizing number start k with
  | case1 => simp at h
  | case2 seen hseen =>
      rw [Position.walk_nil, Nat.add_right_comm]
      exact (Line.position_add ⟨number, start, seen⟩ (seen + k)).symm
  | case3 seen rest ih =>
      match k with
      | 0 =>
          rw [Position.walk_zero, locateFrom_of_lt (by omega), Line.position_add]
      | 1 =>
          rw [Position.walk_cons, Position.walk_zero, locateFrom_of_lt (by omega),
            Line.position_add]
          rfl
      | k + 2 =>
          have hreturn : Position.advance ⟨number + 1, seen + 1⟩ '\r' ('\n' :: rest) =
              ⟨number + 1, seen + 2⟩ := rfl
          have hlater := walk_after_line (seen + 2) (fun hrest => by simpa using ih (.inr hrest))
            number start k
          rw [show seen + (k + 2) = seen + 2 + k by omega, ← hlater, Position.walk_cons, hreturn,
            Position.walk_cons, Position.advance_of_endsLine (c := '\n') rfl fun _ => nofun]
  | case4 seen c rest hnewline hends ih =>
      cases k with
      | zero => rw [Position.walk_zero, locateFrom_of_lt (by omega), Line.position_add]
      | succ k =>
          have hlater := walk_after_line (seen + 1) (fun hrest => by simpa using ih (.inr hrest))
            number start k
          rw [show seen + (k + 1) = seen + 1 + k by omega, ← hlater, Position.walk_cons,
            Position.advance_of_endsLine hends fun more hc hrest => hnewline more hc hrest]
  | case5 seen c rest hnewline hends ih =>
      cases k with
      | zero =>
          obtain ⟨length, more, hlengths, hle⟩ :=
            lineLengths_eq_cons rest (.inl (Nat.succ_pos seen))
          rw [Position.walk_zero, hlengths, locateFrom_of_lt (by omega), Line.position_add]
      | succ k =>
          rw [show seen + (k + 1) = seen + 1 + k by omega, Position.walk_cons,
            Position.advance_of_not_endsLine hends]
          exact ih (.inl (Nat.succ_pos seen)) number start k

end Locate

/-- The line that is looked up for a place is the one in which the walk arrives
there. -/
theorem position_locate (cs : List Char) (place : Nat) :
    (locate cs place).position place = position cs place := by
  cases cs with
  | nil =>
      rw [position, Position.walk_nil, Nat.add_comm 1 place]
      rfl
  | cons c rest =>
      have hne : c :: rest ≠ [] := List.cons_ne_nil c rest
      have hwalk := @walk_eq_position_locateFrom 0 (c :: rest) (.inr hne) 0 0 place
      obtain ⟨length, more, hlengths, -⟩ := @lineLengths_eq_cons 0 (c :: rest) (.inr hne)
      have hlines : lines (c :: rest) = lineLengths 0 (c :: rest) := by rw [lines, hlengths]
      simpa [locate, hlines, position] using hwalk.symm

/-- A carriage return and a line feed end one line, and the last line end opens
none. -/
example : position "a\r\nb\n".toList 2 = ⟨1, 3⟩ ∧ position "a\r\nb\n".toList 3 = ⟨2, 1⟩ ∧
    (locate "a\r\nb\n".toList 5).position 5 = ⟨2, 3⟩ := by decide

/-! ## Positions as shown -/

private theorem toDigits_injective {m n : Nat} (h : Nat.toDigits 10 m = Nat.toDigits 10 n) :
    m = n := by
  rw [← Token.naturalValue_toDigits m, h, Token.naturalValue_toDigits]

/-- The digits of a number end at the next colon. -/
theorem takeWhile_isDigit_toDigits (n : Nat) (rest : List Char) :
    (Nat.toDigits 10 n ++ ':' :: rest).takeWhile Token.isDigit = Nat.toDigits 10 n := by
  have hcolon : (':' :: rest).takeWhile Token.isDigit = [] := rfl
  rw [List.takeWhile_append_of_pos fun _ => Token.isDigit_of_mem_toDigits, hcolon,
    List.append_nil]

namespace Position

/-- What is shown under a name says which position it is. -/
theorem text_injective {name : String} {p q : Position} (h : p.text name = q.text name) :
    p = q := by
  have hchars := congrArg String.toList h
  simp only [text, String.toList_append, Nat.toList_repr, List.append_assoc] at hchars
  have hnumbers : Nat.toDigits 10 p.line ++ ':' :: Nat.toDigits 10 p.column =
      Nat.toDigits 10 q.line ++ ':' :: Nat.toDigits 10 q.column :=
    List.append_cancel_left (List.append_cancel_left hchars)
  have hdigits := congrArg (List.takeWhile Token.isDigit) hnumbers
  rw [takeWhile_isDigit_toDigits, takeWhile_isDigit_toDigits] at hdigits
  rw [hdigits] at hnumbers
  have hline : p.line = q.line := toDigits_injective hdigits
  have hcolumn : p.column = q.column :=
    toDigits_injective (List.cons.inj (List.append_cancel_left hnumbers)).2
  cases p
  cases q
  cases hline
  cases hcolumn
  rfl

end Position

end Text

namespace Diagnostic

/-- A diagnostic shows the position of the place. -/
theorem placeText_eq (name : String) (source : List Char) (place : Nat) :
    placeText name source place = (Text.position source place).text name := by
  rw [← Text.position_locate]
  rfl

/-- Different places are shown differently. -/
theorem placeText_eq_iff {name : String} {source : List Char} {place k : Nat} :
    placeText name source place = (Text.position source k).text name ↔ place = k := by
  rw [placeText_eq]
  constructor
  · exact fun h => Text.position_injective (Text.Position.text_injective h)
  · rintro rfl
    rfl

end Diagnostic

end LazyLisp
