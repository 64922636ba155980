import LazyLisp.Proofs.Brackets.Roles

/-!
# Colours of a line and the verdict on it

A line is painted on an array of cells that grows with the scan, and an opening
bracket is painted once more when its partner is met.  So the cell of a character
has the colour that its role has where it is met, unless a later character has
painted it.  Only opening brackets are painted later, and never red, so that the
red closing brackets are exactly those which the verdict rejects.

That at most one pair is blue rests on two facts.  A bracket is taken off the
open ones once, and so it has one partner; and only one character ends at the
cursor.

## Main results

* `paint_getElem?` — a cell has the colour of its character's role, unless it was
  painted once more.
* `paint_eq_red_iff` — the red characters are those that are rejected.
* `AtCursor.unique` — at most one pair touches the cursor.
* `paint_verdict` — the first red closing bracket is the one that makes a line
  invalid, and in a valid line no bracket is coloured but one pair.
-/

namespace LazyLisp.Brackets

/-! ## The painted line -/

namespace Scan

/-- A bracket that is painted once more is open. -/
theorem mem_stack_of_repaint {s : Scan} {cursor : Nat} {c : Char} {opening : Opening} {x : Colour}
    (h : s.repaint cursor c = some (opening, x)) : opening ∈ s.stack := by
  rcases repaint_eq_some_iff.mp h with ⟨hrole, -, -⟩ | ⟨hrole, -⟩
  · exact mem_stack_of_role (.inl hrole)
  · exact mem_stack_of_role (.inr hrole)

/-- Paints the next character, and perhaps an opening bracket once more. -/
def paint (s : Scan) (cursor : Nat) (cells : Array Cell) (c : Char) : Array Cell :=
  match s.repaint cursor c with
  | some (opening, x) => recolour (cells.push ⟨c, s.colour cursor c⟩) opening.index x
  | none => cells.push ⟨c, s.colour cursor c⟩

/-- The colour that the next character gives to a place once more. -/
def repaintAt (s : Scan) (cursor : Nat) (c : Char) (k : Nat) : Option Colour :=
  match s.repaint cursor c with
  | some (opening, x) => if opening.index = k then some x else none
  | none => none

/-- The colour that a text gives to a place before it; the last one counts. -/
def repaintedAt (s : Scan) (cursor : Nat) : List Char → Nat → Option Colour
  | [], _ => none
  | c :: rest, k => ((s.feed c).repaintedAt cursor rest k).or (s.repaintAt cursor c k)

section Paint

variable {s : Scan} {cursor k : Nat} {cells : Array Cell} {c : Char} {rest : List Char}

/-- A cell is repainted when the bracket in it is the one that this character
meets. -/
theorem repaintAt_eq_some_iff {x : Colour} : s.repaintAt cursor c k = some x ↔
    ∃ opening, s.repaint cursor c = some (opening, x) ∧ opening.index = k := by
  unfold repaintAt
  split
  · rename_i opening y heq
    by_cases hk : opening.index = k <;> simp [heq, hk]
  · rename_i heq
    simp [heq]

/-- Each character adds one cell, whatever it repaints. -/
theorem size_paint (s : Scan) (cursor : Nat) (cells : Array Cell) (c : Char) :
    (s.paint cursor cells c).size = cells.size + 1 := by
  unfold paint
  split
  · rw [recolour, Array.size_modify, Array.size_push]
  · exact Array.size_push _

/-- The cells before keep their characters. -/
theorem paint_getElem?_of_lt (hk : k < cells.size) :
    (s.paint cursor cells c)[k]? =
      cells[k]?.map fun cell => ⟨cell.char, (s.repaintAt cursor c k).or cell.colour⟩ := by
  have hpush (cell : Cell) : (cells.push cell)[k]? = cells[k]? := by
    rw [Array.getElem?_push, if_neg (Nat.ne_of_lt hk)]
  unfold paint repaintAt
  split
  · rename_i opening x _
    rw [recolour, Array.getElem?_modify, hpush]
    by_cases hindex : opening.index = k
    · simp [hindex]
    · simp [hindex]
  · rw [hpush]
    simp

/-- The next character gets a cell of its own. -/
theorem paint_getElem?_self (hs : s.Ordered) (hsize : cells.size = s.index) :
    (s.paint cursor cells c)[s.index]? = some ⟨c, s.colour cursor c⟩ := by
  have hpush : (cells.push ⟨c, s.colour cursor c⟩)[s.index]? = some ⟨c, s.colour cursor c⟩ := by
    rw [← hsize, Array.getElem?_push, if_pos rfl]
  unfold paint
  split
  · rename_i opening x hrepaint
    have hlt := hs.lt opening (mem_stack_of_repaint hrepaint)
    rw [recolour, Array.getElem?_modify, if_neg (Nat.ne_of_lt hlt), hpush]
  · exact hpush

/-- One character of the scan that colours a line. -/
theorem paintFrom_cons (hsize : cells.size = s.index) :
    paintFrom cursor s.quoting s.stack s.offset cells (c :: rest) =
      paintFrom cursor (s.feed c).quoting (s.feed c).stack (s.feed c).offset
        (s.paint cursor cells c) rest := by
  have hfeed : s.feed c =
      ⟨(s.quoting.feed c).2, s.stackAfter c, s.offset + c.utf8Size, s.index + 1⟩ := rfl
  rw [paintFrom, hfeed]
  simp only [stackAfter, paint, colour, repaint, role]
  rcases s.quoting.feed c with ⟨inString, quoting⟩
  cases inString with
  | true => rfl
  | false =>
      simp only [Bool.false_eq_true, if_false]
      by_cases hopening : isOpening c = true
      · simp [hopening, hsize]
      · by_cases hclosing : isClosing c = true
        · cases hstack : s.stack with
          | nil => simp [hopening, hclosing]
          | cons inner around =>
              by_cases hmatch : isMatch inner.bracket c = true
              · by_cases htouches : s.Touches cursor inner
                · have htouch : inner.offset + 1 = cursor ∨ s.offset + 1 = cursor := htouches
                  simp [hopening, hclosing, hmatch, htouches, htouch]
                · have htouch : ¬ (inner.offset + 1 = cursor ∨ s.offset + 1 = cursor) := htouches
                  simp [hopening, hclosing, hmatch, htouches, htouch]
              · simp [hopening, hclosing, hmatch]
        · simp [hopening, hclosing]

/-- What is painted already keeps its characters to the end of the line. -/
theorem paintFrom_getElem?_of_lt (hsize : cells.size = s.index) (hk : k < cells.size) :
    (paintFrom cursor s.quoting s.stack s.offset cells rest)[k]? =
      cells[k]?.map fun cell => ⟨cell.char, (s.repaintedAt cursor rest k).or cell.colour⟩ := by
  induction rest generalizing s cells with
  | nil => simp [repaintedAt]
  | cons c rest ih =>
      have hmore : (s.paint cursor cells c).size = (s.feed c).index := by
        rw [size_paint, hsize]
        rfl
      have hlt : k < (s.paint cursor cells c).size := by
        rw [size_paint]
        omega
      rw [paintFrom_cons hsize, ih hmore hlt, paint_getElem?_of_lt hk, Option.map_map]
      congr 1
      funext cell
      simp [repaintedAt, Option.or_assoc]

/-- The cell of a character in the rest of a line. -/
theorem paintFrom_getElem? (hs : s.Ordered) (hsize : cells.size = s.index) (before : List Char) :
    (paintFrom cursor s.quoting s.stack s.offset cells (before ++ c :: rest))[s.index +
        before.length]? =
      some ⟨c, (((s.after before).feed c).repaintedAt cursor rest (s.index + before.length)).or
        ((s.after before).colour cursor c)⟩ := by
  induction before generalizing s cells with
  | nil =>
      have hmore : (s.paint cursor cells c).size = (s.feed c).index := by
        rw [size_paint, hsize]
        rfl
      have hlt : s.index < (s.paint cursor cells c).size := by
        rw [size_paint, hsize]
        exact Nat.lt_succ_self _
      rw [List.nil_append, List.length_nil, Nat.add_zero, paintFrom_cons hsize,
        paintFrom_getElem?_of_lt hmore hlt, paint_getElem?_self hs hsize]
      rfl
  | cons d before ih =>
      have hmore : (s.paint cursor cells d).size = (s.feed d).index := by
        rw [size_paint, hsize]
        rfl
      have hplace : s.index + (d :: before).length = (s.feed d).index + before.length := by
        show s.index + (before.length + 1) = s.index + 1 + before.length
        omega
      rw [List.cons_append, paintFrom_cons hsize, hplace, ih (hs.feed d) hmore]
      rfl

/-- A place is painted once more by a character after it. -/
theorem exists_of_repaintedAt {x : Colour} (h : s.repaintedAt cursor rest k = some x) :
    ∃ before d more opening, rest = before ++ d :: more ∧
      (s.after before).repaint cursor d = some (opening, x) ∧ opening.index = k := by
  induction rest generalizing s with
  | nil => cases h
  | cons c rest ih =>
      rw [repaintedAt, Option.or_eq_some_iff] at h
      rcases h with hlater | ⟨-, hhere⟩
      · obtain ⟨before, d, more, opening, rfl, hrepaint, hindex⟩ := ih hlater
        exact ⟨c :: before, d, more, opening, rfl, hrepaint, hindex⟩
      · obtain ⟨opening, hrepaint, hindex⟩ := repaintAt_eq_some_iff.mp hhere
        exact ⟨[], c, rest, opening, rfl, hrepaint, hindex⟩

/-- A cell that some later character repaints is found to be repainted. -/
theorem repaintedAt_ne_none {before more : List Char} {d : Char} {opening : Opening} {x : Colour}
    (hrest : rest = before ++ d :: more)
    (hrepaint : (s.after before).repaint cursor d = some (opening, x))
    (hindex : opening.index = k) : s.repaintedAt cursor rest k ≠ none := by
  induction before generalizing s rest with
  | nil =>
      subst hrest
      have hhere : s.repaintAt cursor d k = some x :=
        repaintAt_eq_some_iff.mpr ⟨opening, hrepaint, hindex⟩
      rw [List.nil_append, repaintedAt, hhere]
      simp
  | cons c before ih =>
      subst hrest
      have hlater := ih (s := s.feed c) rfl hrepaint
      rw [List.cons_append, repaintedAt]
      simp [hlater]

end Paint

end Scan

/-! ## Brackets of a line -/

/-- A bracket stands at this place of the line, outside strings. -/
def BracketAt (line : List Char) (c : Char) (k : Nat) : Prop :=
  ∃ before rest, line = before ++ c :: rest ∧ before.length = k ∧
    ((Quoting.outside.after before).feed c).1 = false ∧ (isOpening c = true ∨ isClosing c = true)

/-- The bracket at the second place closes the one at the first, and the cursor
stands behind one of them. -/
def AtCursor (line : List Char) (cursor o k : Nat) : Prop :=
  ∃ before c rest opening, line = before ++ c :: rest ∧ before.length = k ∧
    (Scan.start.after before).role c = .closes opening ∧ opening.index = o ∧
      (Scan.start.after before).Touches cursor opening

section Line

open Scan

variable {line before rest : List Char} {cursor o k i : Nat} {c : Char} {opening : Opening}

/-- The painted line has one cell for each character. -/
theorem length_paint (line : List Char) (cursor : Nat) :
    (paint line cursor).length = line.length := by
  have hsize (s : Scan) (cells : Array Cell) (h : cells.size = s.index) :
      (paintFrom cursor s.quoting s.stack s.offset cells line).size = cells.size + line.length := by
    induction line generalizing s cells with
    | nil => rfl
    | cons c rest ih =>
        have hmore : (s.paint cursor cells c).size = (s.feed c).index := by
          rw [size_paint, h]
          rfl
        rw [paintFrom_cons h, ih _ _ hmore, size_paint, List.length_cons]
        omega
  have hall := hsize start #[] rfl
  rw [paint, Array.length_toList]
  simpa [start] using hall

theorem exists_of_lt_length (hk : k < line.length) :
    ∃ before c rest, line = before ++ c :: rest ∧ before.length = k :=
  ⟨line.take k, line.get ⟨k, hk⟩, line.drop (k + 1), by simp,
    List.length_take_of_le (Nat.le_of_lt hk)⟩

/-- A cell has the colour of its character's role, unless it was painted once
more. -/
theorem paint_getElem? (cursor : Nat) (hline : line = before ++ c :: rest) :
    (paint line cursor)[before.length]? =
      some ⟨c, (((start.after before).feed c).repaintedAt cursor rest before.length).or
        ((start.after before).colour cursor c)⟩ := by
  have hcell : (paintFrom cursor start.quoting start.stack start.offset #[]
      (before ++ c :: rest))[start.index + before.length]? = _ :=
    paintFrom_getElem? ordered_start rfl before
  rw [hline, paint, Array.getElem?_toList]
  simpa [start] using hcell

/-- What is painted once more by a later character is an opening bracket. -/
theorem opens_of_repaint {mid : List Char} {d : Char} {x : Colour}
    (h : (((start.after before).feed c).after mid).repaint cursor d = some (opening, x))
    (hindex : opening.index = before.length) : (start.after before).role c = .opens := by
  rw [← after_cons, ← after_append] at h
  obtain ⟨earlier, more, hsplit, hplace, -, hrole⟩ := exists_of_mem_stack (mem_stack_of_repaint h)
  obtain ⟨rfl, htail⟩ := List.append_inj hsplit (hindex.symm.trans hplace)
  cases htail
  exact hrole

/-- Only opening brackets are painted once more. -/
theorem repaintedAt_eq_none (h : (start.after before).role c ≠ .opens) :
    ((start.after before).feed c).repaintedAt cursor rest before.length = none := by
  cases hrepainted : ((start.after before).feed c).repaintedAt cursor rest before.length with
  | none => rfl
  | some x =>
      obtain ⟨mid, d, more, opening, -, hrepaint, hindex⟩ := exists_of_repaintedAt hrepainted
      exact absurd (opens_of_repaint hrepaint hindex) h

/-! ### Red brackets -/

/-- The red characters are those that are rejected. -/
theorem paint_eq_red_iff :
    (paint line cursor)[k]? = some ⟨c, some .red⟩ ↔ RejectedAt line c k := by
  constructor
  · intro h
    have hk : k < line.length := by
      rw [← length_paint line cursor]
      exact (List.getElem?_eq_some_iff.mp h).1
    obtain ⟨before, c', rest, hline, hlength⟩ := exists_of_lt_length hk
    subst hlength
    have hcell := paint_getElem? cursor hline
    rw [h, Option.some.injEq, Cell.mk.injEq] at hcell
    obtain ⟨rfl, hcolour⟩ := hcell
    refine ⟨before, rest, hline, rfl, ?_⟩
    rcases Option.or_eq_some_iff.mp hcolour.symm with hlater | ⟨-, hhere⟩
    · obtain ⟨mid, d, more, opening, -, hrepaint, -⟩ := exists_of_repaintedAt hlater
      rcases repaint_eq_some_iff.mp hrepaint with ⟨-, -, hx⟩ | ⟨-, hx⟩ <;> cases hx
    · exact colour_eq_red_iff.mp hhere
  · rintro ⟨before, rest, hline, rfl, hrejected⟩
    have hopens : (start.after before).role c ≠ .opens := by
      intro hrole
      rw [hrole] at hrejected
      cases hrejected
    rw [paint_getElem? cursor hline, repaintedAt_eq_none hopens,
      colour_eq_red_iff.mpr hrejected]
    rfl

/-- The verdict names the first character whose role is to be rejected. -/
theorem verdict_eq_invalid_iff :
    verdict line = .invalid c i ↔ firstRejected start line = some (c, i) :=
  verdictFrom_eq_invalid_iff start

/-- A line is invalid if and only if one of its characters is rejected. -/
theorem exists_rejectedAt_iff :
    (∃ c k, RejectedAt line c k) ↔ ∃ c i, verdict line = .invalid c i := by
  constructor
  · rintro ⟨c, k, before, rest, hline, -, hrejected⟩
    cases hfirst : firstRejected start line with
    | none =>
        rw [(firstRejected_eq_none_iff start).mp hfirst before c rest hline] at hrejected
        cases hrejected
    | some found => exact ⟨found.1, found.2, verdict_eq_invalid_iff.mpr hfirst⟩
  · rintro ⟨c, i, h⟩
    obtain ⟨before, rest, hline, hplace, hrejected, -⟩ :=
      (firstRejected_eq_some_iff start).mp (verdict_eq_invalid_iff.mp h)
    exact ⟨c, i, before, rest, hline, by simpa [start] using hplace, hrejected⟩

/-- In a valid line no character is rejected. -/
theorem isRejected_of_valid (h : verdict line = .valid) (hline : line = before ++ c :: rest) :
    ((start.after before).role c).isRejected = false := by
  cases hrejected : ((start.after before).role c).isRejected with
  | false => rfl
  | true =>
      have hat : RejectedAt line c before.length := ⟨before, rest, hline, rfl, hrejected⟩
      obtain ⟨d, i, hinvalid⟩ := exists_rejectedAt_iff.mp ⟨c, _, hat⟩
      rw [h] at hinvalid
      cases hinvalid

/-! ### The pair at the cursor -/

/-- Two places of a line with as many bytes before them are the same. -/
theorem place_eq_of_byteLength {before' rest' : List Char} {c' : Char}
    (hline : line = before ++ c :: rest) (hline' : line = before' ++ c' :: rest')
    (h : Text.byteLength before = Text.byteLength before') : before = before' ∧ c = c' := by
  obtain ⟨hbefore, hrest⟩ := Text.append_inj_of_byteLength (hline.symm.trans hline') h
  exact ⟨hbefore, (List.cons.inj hrest).1⟩

/-- Of two places of a line one stands in what is before the other. -/
theorem exists_between {before' rest' : List Char} {c' : Char}
    (hline : line = before ++ c :: rest) (hline' : line = before' ++ c' :: rest')
    (hlt : before.length < before'.length) :
    ∃ mid, before' = before ++ c :: mid ∧ rest = mid ++ c' :: rest' := by
  rw [hline] at hline'
  rcases List.append_eq_append_iff.mp hline' with ⟨mid, rfl, htail⟩ | ⟨mid, rfl, -⟩
  · cases mid with
    | nil =>
        rw [List.append_nil] at hlt
        exact absurd hlt (Nat.lt_irrefl _)
    | cons d mid =>
        cases htail
        exact ⟨mid, rfl, rfl⟩
  · rw [List.length_append] at hlt
    omega

/-- A bracket that was taken off the open ones is not taken off again. -/
theorem length_le_of_closed {before' rest' : List Char} {c' : Char} {opening' : Opening}
    (hline : line = before ++ c :: rest) (hline' : line = before' ++ c' :: rest')
    (hrole : (start.after before).role c = .closes opening ∨
      (start.after before).role c = .clashes opening)
    (hrole' : (start.after before').role c' = .closes opening' ∨
      (start.after before').role c' = .clashes opening')
    (hindex : opening.index = opening'.index) : before'.length ≤ before.length := by
  by_contra hlt
  have hlt : before.length < before'.length := Nat.lt_of_not_le hlt
  have hordered := ordered_start.after before
  obtain ⟨hmem, hgone⟩ := hordered.closed hrole
  obtain ⟨hmem', -⟩ := (ordered_start.after before').closed hrole'
  obtain ⟨mid, rfl, -⟩ := exists_between hline hline' hlt
  rw [after_append, after_cons] at hmem'
  have hplace : opening.index < ((start.after before).feed c).index :=
    Nat.lt_succ_of_lt (hordered.lt opening hmem)
  have hgone : ∀ other ∈ ((start.after before).feed c).stack, other.index ≠ opening.index :=
    fun other hother => Nat.ne_of_lt (hgone other hother)
  exact not_mem_after hplace hgone mid opening' hmem' hindex.symm

/-- At most one pair of brackets is at the cursor. -/
theorem AtCursor.unique {o' k' : Nat} (h : AtCursor line cursor o k)
    (h' : AtCursor line cursor o' k') : o = o' ∧ k = k' := by
  obtain ⟨before, c, rest, opening, hline, rfl, hrole, rfl, htouch⟩ := h
  obtain ⟨before', c', rest', opening', hline', rfl, hrole', rfl, htouch'⟩ := h'
  obtain ⟨hmem, -⟩ := (ordered_start.after before).closed (.inl hrole)
  obtain ⟨hmem', -⟩ := (ordered_start.after before').closed (.inl hrole')
  obtain ⟨pre, mid, hpre, hindex, hoffset, hopens⟩ := exists_of_mem_stack hmem
  obtain ⟨pre', mid', hpre', hindex', hoffset', hopens'⟩ := exists_of_mem_stack hmem'
  have hopening : line = pre ++ opening.bracket :: (mid ++ c :: rest) := by
    rw [hline, hpre, List.append_assoc, List.cons_append]
  have hopening' : line = pre' ++ opening'.bracket :: (mid' ++ c' :: rest') := by
    rw [hline', hpre', List.append_assoc, List.cons_append]
  rw [Touches, hoffset, offset_after, show start.offset = 0 from rfl, Nat.zero_add] at htouch
  rw [Touches, hoffset', offset_after, show start.offset = 0 from rfl, Nat.zero_add] at htouch'
  -- only one character ends at the cursor, and it has one role
  rcases htouch with htouch | htouch <;> rcases htouch' with htouch' | htouch'
  · obtain ⟨rfl, -⟩ := place_eq_of_byteLength hopening hopening' (by omega)
    have hsame : opening.index = opening'.index := hindex.trans hindex'.symm
    have hle := length_le_of_closed hline hline' (.inl hrole) (.inl hrole') hsame
    have hge := length_le_of_closed hline' hline (.inl hrole') (.inl hrole) hsame.symm
    exact ⟨hsame, Nat.le_antisymm hge hle⟩
  · obtain ⟨rfl, hc⟩ := place_eq_of_byteLength hopening hline' (by omega)
    rw [hc, hrole'] at hopens
    cases hopens
  · obtain ⟨rfl, hc⟩ := place_eq_of_byteLength hline hopening' (by omega)
    rw [← hc, hrole] at hopens'
    cases hopens'
  · obtain ⟨rfl, rfl⟩ := place_eq_of_byteLength hline hline' (by omega)
    cases hrole.symm.trans hrole'
    exact ⟨rfl, rfl⟩

/-- In a valid line a bracket outside strings has no colour, unless it is one of
the pair at the cursor. -/
theorem paint_of_bracketAt (hvalid : verdict line = .valid) (cursor : Nat)
    (h : BracketAt line c k) :
    (paint line cursor)[k]? = some ⟨c, none⟩ ∨
      ∃ o j, AtCursor line cursor o j ∧ (k = o ∨ k = j) := by
  obtain ⟨before, rest, hline, rfl, hquoted, hbracket⟩ := h
  have hquoted : ((start.after before).quoting.feed c).1 = false := by
    rw [quoting_after]
    exact hquoted
  rw [paint_getElem? cursor hline]
  rcases hbracket with hopening | hclosing
  · have hrole := role_of_isOpening hquoted hopening
    have hcolour : (start.after before).colour cursor c = none := by rw [colour, hrole]
    cases hrepainted : ((start.after before).feed c).repaintedAt cursor rest before.length with
    | none => exact .inl (by rw [hcolour]; rfl)
    | some x =>
        obtain ⟨mid, d, more, opening, rfl, hrepaint, hindex⟩ := exists_of_repaintedAt hrepainted
        have hlater : line = (before ++ c :: mid) ++ d :: more := by simp [hline]
        rw [← after_cons, ← after_append] at hrepaint
        have hnot := isRejected_of_valid hvalid hlater
        rcases repaint_eq_some_iff.mp hrepaint with ⟨hcloses, htouches, -⟩ | ⟨hclashes, -⟩
        · exact .inr ⟨_, _, ⟨_, d, more, opening, hlater, rfl, hcloses, hindex, htouches⟩, .inl rfl⟩
        · rw [hclashes] at hnot
          cases hnot
  · have hnot := isRejected_of_valid hvalid hline
    have hrole := role_of_isClosing hquoted hclosing
    obtain ⟨opening, hcloses⟩ : ∃ opening, (start.after before).role c = .closes opening := by
      split at hrole
      · split at hrole
        · exact ⟨_, hrole⟩
        · rw [hrole] at hnot
          cases hnot
      · rw [hrole] at hnot
        cases hnot
    rw [repaintedAt_eq_none (by simp [hcloses]), colour, hcloses]
    by_cases htouches : (start.after before).Touches cursor opening
    · exact .inr ⟨_, _, ⟨before, c, rest, opening, hline, rfl, hcloses, rfl, htouches⟩, .inr rfl⟩
    · exact .inl (by simp [htouches])

/-- In a valid line the pair at the cursor is blue. -/
theorem AtCursor.paint (h : AtCursor line cursor o k) (hvalid : verdict line = .valid) :
    o < k ∧ ∃ b c, isMatch b c = true ∧ (paint line cursor)[o]? = some ⟨b, some .boldBlue⟩ ∧
      (paint line cursor)[k]? = some ⟨c, some .blue⟩ := by
  obtain ⟨before, c, rest, opening, hline, rfl, hrole, rfl, htouches⟩ := h
  have hordered := ordered_start.after before
  obtain ⟨hmem, -⟩ := hordered.closed (.inl hrole)
  obtain ⟨-, -, -, hmatch⟩ := closes_iff.mp hrole
  have hlt := hordered.lt opening hmem
  rw [index_after, show start.index = 0 from rfl, Nat.zero_add] at hlt
  refine ⟨hlt, opening.bracket, c, hmatch, ?_, ?_⟩
  · obtain ⟨pre, mid, hpre, hindex, -, hopens⟩ := exists_of_mem_stack hmem
    have hopening : line = pre ++ opening.bracket :: (mid ++ c :: rest) := by
      rw [hline, hpre, List.append_assoc, List.cons_append]
    rw [hindex, paint_getElem? cursor hopening]
    have hrepaint : (start.after before).repaint cursor c = some (opening, .boldBlue) :=
      repaint_eq_some_iff.mpr (.inl ⟨hrole, htouches, rfl⟩)
    rw [hpre, after_append, after_cons] at hrepaint
    have hne : ((start.after pre).feed opening.bracket).repaintedAt cursor (mid ++ c :: rest)
        pre.length ≠ none := repaintedAt_ne_none rfl hrepaint hindex
    obtain ⟨x, hx⟩ := Option.ne_none_iff_exists'.mp hne
    obtain ⟨mid', d, more, opening', hrest, hlater, hindex'⟩ := exists_of_repaintedAt hx
    have hplace : line = (pre ++ opening.bracket :: mid') ++ d :: more := by
      rw [hopening, hrest, List.append_assoc, List.cons_append]
    have hnot := isRejected_of_valid hvalid hplace
    rw [← after_cons, ← after_append] at hlater
    rcases repaint_eq_some_iff.mp hlater with ⟨-, -, rfl⟩ | ⟨hclashes, -⟩
    · rw [hx]
      rfl
    · rw [hclashes] at hnot
      cases hnot
  · have hcolour : (start.after before).colour cursor c = some .blue := by
      simp [colour, hrole, htouches]
    rw [paint_getElem? cursor hline, repaintedAt_eq_none (by simp [hrole]), hcolour]
    rfl

end Line

/-- A closing bracket of a line is painted red if and only if the line is
invalid, wherever the cursor is, and the first one is the character that the
verdict names, at the place that it names.  In a valid line no bracket outside
strings is coloured, or only those of one pair are: the one that the cursor
touches, in blue. -/
theorem paint_verdict (line : List Char) (cursor : Nat) :
    ((∃ (c : Char) (k : Nat), isClosing c = true ∧
        (paint line cursor)[k]? = some ⟨c, some .red⟩) ↔
      ∃ c i, verdict line = .invalid c i) ∧
    (∀ c i, verdict line = .invalid c i →
      (∃ before rest, line = before ++ c :: rest ∧ before.length = i) ∧ isClosing c = true ∧
        (paint line cursor)[i]? = some ⟨c, some .red⟩ ∧
        ∀ (d : Char) (j : Nat), (paint line cursor)[j]? = some ⟨d, some .red⟩ → i ≤ j) ∧
    (verdict line = .valid →
      (∀ c k, BracketAt line c k → (paint line cursor)[k]? = some ⟨c, none⟩) ∨
      ∃ o k b c, AtCursor line cursor o k ∧ o < k ∧ isMatch b c = true ∧
        (paint line cursor)[o]? = some ⟨b, some .boldBlue⟩ ∧
        (paint line cursor)[k]? = some ⟨c, some .blue⟩ ∧
        ∀ d j, BracketAt line d j → j ≠ o → j ≠ k →
          (paint line cursor)[j]? = some ⟨d, none⟩) := by
  have hclosing {c k} (h : RejectedAt line c k) : isClosing c = true := by
    obtain ⟨before, rest, -, -, hrejected⟩ := h
    exact Scan.isClosing_of_role (.inr hrejected)
  refine ⟨?_, ?_, ?_⟩
  · rw [← exists_rejectedAt_iff]
    simp only [paint_eq_red_iff]
    exact exists_congr fun c => exists_congr fun k => ⟨fun h => h.2, fun h => ⟨hclosing h, h⟩⟩
  · intro c i h
    obtain ⟨before, rest, hline, hplace, hrejected, hfirst⟩ :=
      (firstRejected_eq_some_iff .start).mp (verdict_eq_invalid_iff.mp h)
    have hplace : before.length = i := by simpa [Scan.start] using hplace
    have hat : RejectedAt line c i := ⟨before, rest, hline, hplace, hrejected⟩
    refine ⟨⟨before, rest, hline, hplace⟩, hclosing hat, paint_eq_red_iff.mpr hat,
      fun d j hred => ?_⟩
    obtain ⟨earlier, more, hline', rfl, hrejected'⟩ := paint_eq_red_iff.mp hred
    by_contra hlt
    rw [hfirst earlier d more hline' (by omega)] at hrejected'
    cases hrejected'
  · intro hvalid
    by_cases hpair : ∃ o k, AtCursor line cursor o k
    · obtain ⟨o, k, hat⟩ := hpair
      obtain ⟨hlt, b, c, hmatch, hopening, hclosed⟩ := hat.paint hvalid
      refine .inr ⟨o, k, b, c, hat, hlt, hmatch, hopening, hclosed, fun d j hd ho hk => ?_⟩
      rcases paint_of_bracketAt hvalid cursor hd with hnone | ⟨o', k', hat', hj⟩
      · exact hnone
      · obtain ⟨rfl, rfl⟩ := hat.unique hat'
        rcases hj with rfl | rfl
        · exact absurd rfl ho
        · exact absurd rfl hk
    · refine .inl fun c k hc => ?_
      rcases paint_of_bracketAt hvalid cursor hc with hnone | ⟨o, j, hat, -⟩
      · exact hnone
      · exact absurd ⟨o, j, hat⟩ hpair

/-- Places are counted in characters and the cursor in bytes: the letter takes
two.  With the clash the line is invalid, and without it the cursor touches the
last bracket. -/
theorem paint_verdict_accent :
    (verdict "[é)".toList = .invalid ')' 2 ∧ (paint "[é)".toList 0)[2]? = some ⟨')', some .red⟩) ∧
    verdict "(é)".toList = .valid ∧ (paint "(é)".toList 4)[2]? = some ⟨')', some .blue⟩ ∧
      ∃ o k, AtCursor "(é)".toList 4 o k := by
  have hinvalid : verdict "[é)".toList = .invalid ')' 2 := by decide
  have hvalid : verdict "(é)".toList = .valid := by decide
  have hblue : (paint "(é)".toList 4)[2]? = some ⟨')', some .blue⟩ := by decide
  obtain ⟨-, -, hred, -⟩ := (paint_verdict "[é)".toList 0).2.1 ')' 2 hinvalid
  refine ⟨⟨hinvalid, hred⟩, hvalid, hblue, ?_⟩
  rcases (paint_verdict "(é)".toList 4).2.2 hvalid with hnone | ⟨o, k, -, -, hat, -⟩
  · have hplain := hnone ')' 2 ⟨['(', 'é'], [], rfl, rfl, by decide, .inr rfl⟩
    rw [hblue] at hplain
    cases hplain
  · exact ⟨o, k, hat⟩

end LazyLisp.Brackets
