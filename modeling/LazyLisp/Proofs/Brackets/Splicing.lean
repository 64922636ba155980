import LazyLisp.Proofs.Brackets.ColourRules

/-!
# Colours spliced into the shown text

A terminal is given text and no cells.  The text can be made while the line is
scanned: it grows by each character, and when an opening bracket is to be painted
once more, its byte in the middle of the text is replaced by the coloured one.
For this the scan remembers where in the text the open brackets stand.  A wrong
offset would hit another character, or none.

`Splicer` is this way to paint, and `Splicer.of` tells its state from the cells.
A replacement moves all that stands behind it.  But brackets are taken off from
the innermost, so what is still open stands before it, and the offsets that were
remembered stay right.

## Main results

* `replace?_eq_some_iff` — bytes are replaced if they are those of characters.
* `Splicer.feed?_of` — one character, on the text and on the cells.
* `Splicer.run?_start` — the text that is made is the one that is shown.
* `highlight_wraps` — the shown line is the line with colours by the rules around
  its characters, and each replacement hits its bracket.
-/

namespace LazyLisp

/-! ## Replacing bytes of a text -/

namespace Text

/-- The text before a byte offset and the text behind it, if the offset is not
inside a character or outside the text. -/
def splitAt? (offset : Nat) (cs : List Char) : Option (List Char × List Char) :=
  if byteLength (beforeByte offset cs) = offset then
    some (beforeByte offset cs, cs.drop (beforeByte offset cs).length)
  else none

/-- The text with so many bytes from an offset on replaced, if these are the bytes
of characters. -/
def replace? (offset count : Nat) (new cs : List Char) : Option (List Char) :=
  match splitAt? offset cs with
  | none => none
  | some (before, rest) => (splitAt? count rest).map fun split => before ++ (new ++ split.2)

section Replace

variable {offset count : Nat} {cs new before after result : List Char}

private theorem beforeByte_append_drop (offset : Nat) (cs : List Char) :
    beforeByte offset cs ++ cs.drop (beforeByte offset cs).length = cs := by
  induction cs generalizing offset with
  | nil => rfl
  | cons c rest ih =>
      rw [beforeByte]
      split
      · rw [List.cons_append, List.length_cons, List.drop_succ_cons, ih]
      · rfl

private theorem splitAt?_eq_some_iff : splitAt? offset cs = some (before, after) ↔
    cs = before ++ after ∧ byteLength before = offset := by
  unfold splitAt?
  constructor
  · intro h
    split at h
    · rename_i hlength
      cases h
      exact ⟨(beforeByte_append_drop offset cs).symm, hlength⟩
    · cases h
  · rintro ⟨rfl, rfl⟩
    rw [beforeByte_byteLength, if_pos rfl, List.drop_left]

/-- A replacement succeeds exactly if both offsets fall between characters. -/
theorem replace?_eq_some_iff : replace? offset count new cs = some result ↔
    ∃ before old after, cs = before ++ (old ++ after) ∧ byteLength before = offset ∧
      byteLength old = count ∧ result = before ++ (new ++ after) := by
  unfold replace?
  constructor
  · intro h
    split at h
    · cases h
    · rename_i before rest hsplit
      obtain ⟨⟨old, after⟩, hsplit', rfl⟩ := Option.map_eq_some_iff.mp h
      obtain ⟨rfl, hbefore⟩ := splitAt?_eq_some_iff.mp hsplit
      obtain ⟨rfl, hold⟩ := splitAt?_eq_some_iff.mp hsplit'
      exact ⟨before, old, after, rfl, hbefore, hold, rfl⟩
  · rintro ⟨before, old, after, rfl, hbefore, hold, rfl⟩
    rw [splitAt?_eq_some_iff.mpr ⟨rfl, hbefore⟩]
    simp only
    rw [splitAt?_eq_some_iff.mpr ⟨rfl, hold⟩]
    rfl

end Replace

end Text

namespace Brackets

/-! ## Painting on a text -/

/-- A character between a colour and a reset. -/
def Colour.around (x : Colour) (c : Char) : List Char := x.code.toList ++ c :: resetCode.toList

/-- An open bracket, with its byte offsets in the line and in the shown text,
which grows faster. -/
structure Waiting where
  bracket : Char
  source : Nat
  output : Nat

/-- The shown text with an open bracket coloured, which takes one byte of it. -/
def recolour? (shown : List Char) (waiting : Waiting) (x : Colour) : Option (List Char) :=
  Text.replace? waiting.output 1 (x.around waiting.bracket) shown

/-- A scan that paints on a text: whether it is in a string, the brackets that are
open, innermost first, how many bytes it has passed, and what is shown for
them. -/
structure Splicer where
  quoting : Quoting
  stack : List Waiting
  offset : Nat
  shown : List Char

namespace Splicer

/-- Before a line. -/
def start : Splicer := ⟨.outside, [], 0, []⟩

/-- Paints the next character, and perhaps an open bracket once more.  There is no
result if that is not in the text. -/
def feed? (cursor : Nat) (p : Splicer) (c : Char) : Option Splicer :=
  let following := p.offset + c.utf8Size
  match p.quoting.feed c with
  | (true, quoting) => some ⟨quoting, p.stack, following, p.shown ++ Colour.green.around c⟩
  | (false, quoting) =>
      if isOpening c then
        some ⟨quoting, ⟨c, p.offset, Text.byteLength p.shown⟩ :: p.stack, following, p.shown ++ [c]⟩
      else if isClosing c then
        match p.stack with
        | waiting :: around =>
            if isMatch waiting.bracket c then
              if waiting.source + 1 = cursor ∨ p.offset + 1 = cursor then
                (recolour? (p.shown ++ Colour.blue.around c) waiting .boldBlue).map
                  fun shown => ⟨quoting, around, following, shown⟩
              else some ⟨quoting, around, following, p.shown ++ [c]⟩
            else
              (recolour? (p.shown ++ Colour.red.around c) waiting .boldRed).map
                fun shown => ⟨quoting, around, following, shown⟩
        | [] => some ⟨quoting, [], following, p.shown ++ Colour.red.around c⟩
      else some ⟨quoting, p.stack, following, p.shown ++ [c]⟩

/-- Paints a text, if each character of it can be painted. -/
def run? (cursor : Nat) (p : Splicer) : List Char → Option Splicer
  | [] => some p
  | c :: rest => (p.feed? cursor c).bind fun q => q.run? cursor rest

end Splicer

/-! ## The text of cells -/

/-- What is shown for cells. -/
def shownFor (cells : List Cell) : List Char := cells.flatMap fun cell => cell.text.toList

section Shown

variable {cells : List Cell}

@[simp] theorem toList_text_none (c : Char) : (Cell.text ⟨c, none⟩).toList = [c] := by
  simp [Cell.text]

@[simp] theorem toList_text_some (c : Char) (x : Colour) :
    (Cell.text ⟨c, some x⟩).toList = x.around c := by
  simp [Cell.text, Colour.around]

@[simp] theorem shownFor_append (cells cells' : List Cell) :
    shownFor (cells ++ cells') = shownFor cells ++ shownFor cells' := List.flatMap_append

@[simp] theorem shownFor_cons (cell : Cell) (cells : List Cell) :
    shownFor (cell :: cells) = cell.text.toList ++ shownFor cells := List.flatMap_cons

@[simp] theorem shownFor_nil : shownFor [] = [] := rfl

/-- What is shown before a cell, for it and behind it. -/
theorem shownFor_eq_of_getElem? {cell : Cell} {k : Nat} (h : cells[k]? = some cell) :
    shownFor cells = shownFor (cells.take k) ++
      (cell.text.toList ++ shownFor (cells.drop (k + 1))) := by
  obtain ⟨hlt, rfl⟩ := List.getElem?_eq_some_iff.mp h
  rw [← shownFor_cons, ← List.drop_eq_getElem_cons hlt, ← shownFor_append,
    List.take_append_drop]

/-- The shown line is made of the texts of its cells, one after the other. -/
theorem render_eq_join (cells : List Cell) : render cells = String.join (cells.map Cell.text) := by
  rw [render, String.join, List.foldl_map]

private theorem toList_render (cells : List Cell) : (render cells).toList = shownFor cells := by
  rw [render_eq_join, String.toList_join, List.flatMap_map]
  rfl

end Shown

/-! ## The text follows the cells -/

/-- The open bracket, where the cells put it in the shown text. -/
def waitingIn (cells : Array Cell) (opening : Opening) : Waiting :=
  ⟨opening.bracket, opening.offset,
    Text.byteLength (shownFor (cells.toList.take opening.index))⟩

/-- The painting scan at a place, from what is known there and from the cells. -/
def Splicer.of (s : Scan) (cells : Array Cell) : Splicer :=
  ⟨s.quoting, s.stack.map (waitingIn cells), s.offset, shownFor cells.toList⟩

namespace Scan

/-- The cells are those of the characters that the scan has passed, and the open
brackets among them have no colour yet. -/
structure Painted (s : Scan) (cells : Array Cell) : Prop where
  size : cells.size = s.index
  ordered : s.Ordered
  waiting : ∀ opening ∈ s.stack,
    isOpening opening.bracket = true ∧ cells[opening.index]? = some ⟨opening.bracket, none⟩

section Painted

variable {s : Scan} {cells : Array Cell} {cursor k : Nat} {c : Char} {opening other : Opening}
  {x : Colour}

/-- What is still open stands before the bracket that is painted once more. -/
theorem Ordered.lt_of_repaint (h : s.Ordered) (hrepaint : s.repaint cursor c = some (opening, x))
    (hother : other ∈ (s.feed c).stack) : other.index < opening.index := by
  rcases repaint_eq_some_iff.mp hrepaint with ⟨hrole, -⟩ | ⟨hrole, -⟩
  · exact (h.closed (.inl hrole)).2 other hother
  · exact (h.closed (.inr hrole)).2 other hother

/-- A cell before the bracket that is met keeps its colour. -/
theorem repaintAt_eq_none (hk : ∀ opening x, s.repaint cursor c = some (opening, x) →
    k < opening.index) : s.repaintAt cursor c k = none := by
  cases h : s.repaintAt cursor c k with
  | none => rfl
  | some x =>
      obtain ⟨opening, hrepaint, hindex⟩ := repaintAt_eq_some_iff.mp h
      have := hk opening x hrepaint
      omega

/-- The cells before what is painted stay as they are. -/
theorem take_paint (hsize : k ≤ cells.size)
    (hk : ∀ opening x, s.repaint cursor c = some (opening, x) → k ≤ opening.index) :
    (s.paint cursor cells c).toList.take k = cells.toList.take k := by
  apply List.ext_getElem?
  intro i
  rw [List.getElem?_take, List.getElem?_take]
  by_cases hi : i < k
  · have hlt : ∀ opening x, s.repaint cursor c = some (opening, x) → i < opening.index :=
      fun opening x hrepaint => Nat.lt_of_lt_of_le hi (hk opening x hrepaint)
    rw [if_pos hi, if_pos hi, Array.getElem?_toList, Array.getElem?_toList,
      paint_getElem?_of_lt (Nat.lt_of_lt_of_le hi hsize), repaintAt_eq_none hlt]
    simp
  · rw [if_neg hi, if_neg hi]

private theorem Painted.paint (h : s.Painted cells) (cursor : Nat) (c : Char) :
    (s.feed c).Painted (s.paint cursor cells c) where
  size := by
    rw [size_paint, h.size]
    rfl
  ordered := h.ordered.feed c
  waiting opening hopening := by
    rcases mem_stackAfter hopening with hmem | ⟨hrole, rfl⟩
    · obtain ⟨hbracket, hcell⟩ := h.waiting opening hmem
      have hlt : opening.index < cells.size := h.size ▸ h.ordered.lt opening hmem
      have hnone : s.repaintAt cursor c opening.index = none :=
        repaintAt_eq_none fun _ _ hrepaint => h.ordered.lt_of_repaint hrepaint hopening
      refine ⟨hbracket, ?_⟩
      rw [paint_getElem?_of_lt hlt, hcell, hnone]
      rfl
    · refine ⟨isOpening_of_role hrole, ?_⟩
      show (s.paint cursor cells c)[s.index]? = _
      rw [paint_getElem?_self h.ordered h.size, colour, hrole]

/-- What is still open is remembered at the same offset. -/
theorem Painted.waitingIn_paint (h : s.Painted cells) (hother : other ∈ (s.feed c).stack)
    (hmem : other ∈ s.stack) :
    waitingIn (s.paint cursor cells c) other = waitingIn cells other := by
  have hsize : other.index ≤ cells.size := h.size ▸ Nat.le_of_lt (h.ordered.lt other hmem)
  rw [waitingIn, take_paint hsize fun _ _ hrepaint =>
    Nat.le_of_lt (h.ordered.lt_of_repaint hrepaint hother), waitingIn]

/-- The brackets that are open after a character, with their offsets in the text
before it. -/
theorem Painted.map_stackAfter (h : s.Painted cells) (cursor : Nat) (c : Char) :
    (s.feed c).stack.map (waitingIn (s.paint cursor cells c)) =
      match s.role c with
      | .opens => ⟨c, s.offset, Text.byteLength (shownFor cells.toList)⟩ ::
          s.stack.map (waitingIn cells)
      | .closes _ | .clashes _ => (s.stack.map (waitingIn cells)).tail
      | .quoted | .stray | .plain => s.stack.map (waitingIn cells) := by
  have hold {stack : List Opening} (hafter : ∀ other ∈ stack, other ∈ (s.feed c).stack)
      (hbefore : ∀ other ∈ stack, other ∈ s.stack) :
      stack.map (waitingIn (s.paint cursor cells c)) = stack.map (waitingIn cells) :=
    List.map_congr_left fun other hother =>
      h.waitingIn_paint (hafter other hother) (hbefore other hother)
  have hstack : (s.feed c).stack = s.stackAfter c := rfl
  cases hrole : s.role c with
  | opens =>
      have hopens : (s.feed c).stack = ⟨c, s.offset, s.index⟩ :: s.stack := by
        rw [hstack, stackAfter, hrole]
      have hnone : s.repaint cursor c = none := by rw [repaint, hrole]
      have htake : (s.paint cursor cells c).toList.take s.index = cells.toList := by
        rw [take_paint (Nat.le_of_eq h.size.symm) (by simp [hnone]), List.take_of_length_le]
        exact Nat.le_of_eq h.size
      rw [hopens, List.map_cons, hold (fun _ hother => hopens ▸ List.mem_cons_of_mem _ hother)
        fun _ hother => hother, waitingIn, htake]
  | closes _ | clashes _ =>
      have htail : (s.feed c).stack = s.stack.tail := by rw [hstack, stackAfter, hrole]
      rw [htail, hold (by simp [htail]) fun _ hother => List.mem_of_mem_tail hother,
        List.map_tail]
  | quoted | stray | plain =>
      have hsame : (s.feed c).stack = s.stack := by rw [hstack, stackAfter, hrole]
      rw [hsame, hold (by simp [hsame]) fun _ hother => hother]

/-- The offset that was remembered is that of the bracket, and the text with the
bracket coloured is that of the painted cells. -/
theorem Painted.recolour?_eq (h : s.Painted cells)
    (hrepaint : s.repaint cursor c = some (opening, x)) :
    recolour? (shownFor cells.toList ++ (Cell.text ⟨c, s.colour cursor c⟩).toList)
        (waitingIn cells opening) x = some (shownFor (s.paint cursor cells c).toList) := by
  obtain ⟨hbracket, hcell⟩ := h.waiting opening (mem_stack_of_repaint hrepaint)
  have hsize : Text.byteLength [opening.bracket] = 1 := by
    simp only [isOpening, Bool.or_eq_true, beq_iff_eq] at hbracket
    rcases hbracket with hbracket | hbracket <;> rw [hbracket] <;> rfl
  obtain ⟨hlt, -⟩ := Array.getElem?_eq_some_iff.mp hcell
  let cells' : List Cell := cells.toList ++ [⟨c, s.colour cursor c⟩]
  have hcell' : cells'[opening.index]? = some ⟨opening.bracket, none⟩ := by
    rw [List.getElem?_append_left (by simpa using hlt), Array.getElem?_toList, hcell]
  have hbefore : cells'.take opening.index = cells.toList.take opening.index :=
    List.take_append_of_le_length (Nat.le_of_lt (by simpa using hlt))
  have hshown : shownFor cells.toList ++ (Cell.text ⟨c, s.colour cursor c⟩).toList =
      shownFor (cells'.take opening.index) ++
        ([opening.bracket] ++ shownFor (cells'.drop (opening.index + 1))) := by
    have hsplit := shownFor_eq_of_getElem? hcell'
    rw [toList_text_none] at hsplit
    rw [← hsplit, shownFor_append, shownFor_cons, shownFor_nil, List.append_nil]
  have hpainted : (s.paint cursor cells c).toList = cells'.take opening.index ++
      ⟨opening.bracket, some x⟩ :: cells'.drop (opening.index + 1) := by
    obtain ⟨hlt', hget⟩ := List.getElem?_eq_some_iff.mp hcell'
    rw [Scan.paint, hrepaint]
    simp only [recolour, Array.toList_modify, Array.toList_push]
    rw [List.modify_eq_take_cons_drop hlt', hget]
  refine Text.replace?_eq_some_iff.mpr ⟨_, _, _, hshown, by rw [waitingIn, hbefore], hsize, ?_⟩
  rw [hpainted, shownFor_append, shownFor_cons, toList_text_some, waitingIn]

private theorem Painted.shown_of_repaint_eq_none (hrepaint : s.repaint cursor c = none) :
    shownFor (s.paint cursor cells c).toList =
      shownFor cells.toList ++ (Cell.text ⟨c, s.colour cursor c⟩).toList := by
  rw [Scan.paint, hrepaint]
  simp

end Painted

end Scan

namespace Splicer

section Follows

variable {s : Scan} {cells : Array Cell}

/-- One character, by its role. -/
theorem feed?_eq (s : Scan) (cells : Array Cell) (cursor : Nat) (c : Char) :
    (of s cells).feed? cursor c =
      (match s.repaint cursor c with
        | some (opening, x) => recolour?
            (shownFor cells.toList ++ (Cell.text ⟨c, s.colour cursor c⟩).toList)
            (waitingIn cells opening) x
        | none => some (shownFor cells.toList ++ (Cell.text ⟨c, s.colour cursor c⟩).toList)).map
      fun shown =>
        ⟨(s.quoting.feed c).2,
          match s.role c with
          | .opens => ⟨c, s.offset, Text.byteLength (shownFor cells.toList)⟩ ::
              s.stack.map (waitingIn cells)
          | .closes _ | .clashes _ => (s.stack.map (waitingIn cells)).tail
          | .quoted | .stray | .plain => s.stack.map (waitingIn cells),
          s.offset + c.utf8Size, shown⟩ := by
  rw [feed?, of]
  simp only [Scan.colour, Scan.repaint, Scan.role]
  rcases s.quoting.feed c with ⟨inString, quoting⟩
  cases inString with
  | true => simp
  | false =>
      simp only [Bool.false_eq_true, if_false]
      by_cases hopening : isOpening c = true
      · simp [hopening]
      · by_cases hclosing : isClosing c = true
        · cases hstack : s.stack with
          | nil => simp [hopening, hclosing]
          | cons inner around =>
              by_cases hmatch : isMatch inner.bracket c = true
              · by_cases htouches : s.Touches cursor inner
                · have htouch : inner.offset + 1 = cursor ∨ s.offset + 1 = cursor := htouches
                  simp [hopening, hclosing, hmatch, htouches, htouch, waitingIn]
                · have htouch : ¬ (inner.offset + 1 = cursor ∨ s.offset + 1 = cursor) := htouches
                  simp [hopening, hclosing, hmatch, htouches, htouch, waitingIn]
              · simp [hopening, hclosing, hmatch, waitingIn]
        · simp [hopening, hclosing]

/-- One character, on the text and on the cells. -/
theorem feed?_of (h : s.Painted cells) (cursor : Nat) (c : Char) :
    (of s cells).feed? cursor c = some (of (s.feed c) (s.paint cursor cells c)) := by
  rw [feed?_eq, of, ← h.map_stackAfter cursor c]
  cases hrepaint : s.repaint cursor c with
  | none =>
      rw [Scan.Painted.shown_of_repaint_eq_none hrepaint]
      rfl
  | some target =>
      simp only
      rw [h.recolour?_eq hrepaint]
      rfl

/-- A text, on the text and on the cells. -/
theorem run?_of (h : s.Painted cells) (cursor : Nat) (line : List Char) :
    ∃ cells', paintFrom cursor s.quoting s.stack s.offset cells line = cells' ∧
      (s.after line).Painted cells' ∧
      (of s cells).run? cursor line = some (of (s.after line) cells') := by
  induction line generalizing s cells with
  | nil => exact ⟨cells, rfl, h, rfl⟩
  | cons c rest ih =>
      obtain ⟨cells', hpaint, hpainted, hrun⟩ := ih (h.paint cursor c)
      refine ⟨cells', ?_, hpainted, ?_⟩
      · rw [Scan.paintFrom_cons h.size, hpaint]
      · rw [run?, feed?_of h, Option.bind_some, hrun]
        rfl

end Follows

end Splicer

/-! ## The shown line -/

/-- The bracket stands in the line where the scan remembers it, and in the shown
text too: behind what is shown for the characters before it, alone and with no
colour. -/
def Waiting.StandsIn (waiting : Waiting) (line : List Char) (cursor : Nat)
    (shown : List Char) : Prop :=
  ∃ before rest after, line = before ++ waiting.bracket :: rest ∧
    Text.byteLength before = waiting.source ∧
    shown = shownFor ((paint line cursor).take before.length) ++ waiting.bracket :: after ∧
    Text.byteLength (shownFor ((paint line cursor).take before.length)) = waiting.output

/-- The text that is made is the one that is shown, and the brackets that are open
stand in it where they are remembered. -/
theorem Splicer.run?_start (line : List Char) (cursor : Nat) :
    ∃ p, Splicer.start.run? cursor line = some p ∧ p.shown = (highlight line cursor).toList ∧
      ∀ waiting ∈ p.stack, waiting.StandsIn line cursor p.shown := by
  have hstart : Scan.start.Painted #[] := ⟨rfl, Scan.ordered_start, nofun⟩
  obtain ⟨cells, hpaint, hpainted, hrun⟩ := run?_of hstart cursor line
  have hcells : paint line cursor = cells.toList := by
    rw [← hpaint]
    rfl
  refine ⟨of (Scan.start.after line) cells, hrun, ?_, ?_⟩
  · rw [highlight, toList_render, hcells]
    rfl
  · intro waiting hwaiting
    obtain ⟨opening, hmem, rfl⟩ := List.mem_map.mp hwaiting
    obtain ⟨before, rest, hline, hindex, hoffset, -⟩ := Scan.exists_of_mem_stack hmem
    obtain ⟨-, hcell⟩ := hpainted.waiting opening hmem
    rw [← Array.getElem?_toList, hindex] at hcell
    refine ⟨before, rest, shownFor (cells.toList.drop (before.length + 1)), hline, hoffset.symm,
      ?_, ?_⟩
    · rw [hcells]
      show shownFor cells.toList = _ ++ opening.bracket :: _
      simpa using shownFor_eq_of_getElem? hcell
    · rw [hcells, waitingIn, hindex]

/-- The cells of a line hold its characters. -/
theorem map_char_paint (line : List Char) (cursor : Nat) :
    (paint line cursor).map Cell.char = line := by
  apply List.ext_getElem?
  intro k
  rw [List.getElem?_map]
  by_cases hk : k < line.length
  · obtain ⟨before, c, rest, hline, rfl⟩ := exists_of_lt_length hk
    rw [paint_getElem? cursor hline, hline, List.getElem?_append_right (Nat.le_refl _),
      Nat.sub_self]
    rfl
  · have hge : line.length ≤ k := Nat.le_of_not_lt hk
    rw [List.getElem?_eq_none hge, List.getElem?_eq_none (by rwa [length_paint])]
    rfl

/-- What is shown for a line are its characters in order, each one alone or
between the colour that the rules give to it and a reset; the rules give one
colour, and at most one pair is blue.  Painting the beginnings of the line on a
text gives the same, without ever missing: the open brackets stand in the text
where they are remembered. -/
theorem highlight_wraps (line : List Char) (cursor : Nat) :
    (∃ cells : List Cell, highlight line cursor = String.join (cells.map Cell.text) ∧
      cells.map Cell.char = line ∧
      ∀ k cell, cells[k]? = some cell → ColourAt line cursor k cell.colour) ∧
    (∀ k x y, ColourAt line cursor k x → ColourAt line cursor k y → x = y) ∧
    (∀ o k, ClosesAt line o k →
      (ColourAt line cursor o (some .boldBlue) ↔ ColourAt line cursor k (some .blue))) ∧
    (∀ j k, ColourAt line cursor j (some .blue) → ColourAt line cursor k (some .blue) → j = k) ∧
    (∀ j k, ColourAt line cursor j (some .boldBlue) → ColourAt line cursor k (some .boldBlue) →
      j = k) ∧
    ∀ before after, line = before ++ after → ∃ p, Splicer.start.run? cursor before = some p ∧
      p.shown = (highlight before cursor).toList ∧
      ∀ waiting ∈ p.stack, waiting.StandsIn before cursor p.shown := by
  refine ⟨⟨paint line cursor, render_eq_join _, map_char_paint line cursor, ?_⟩,
    fun k x y h h' => h.unique h', fun o k h => h.boldBlue_iff, fun j k h h' => h.eq_of_blue h',
    fun j k h h' => h.eq_of_boldBlue h', fun before _ _ => Splicer.run?_start before cursor⟩
  intro k cell hcell
  exact (paint_getElem?_iff.mp hcell).2

/-- Both opening brackets are replaced, the inner one first. -/
example : (Splicer.start.run? 0 "[(])".toList).map Splicer.shown =
    some (highlight "[(])".toList 0).toList := by decide

end Brackets

end LazyLisp
