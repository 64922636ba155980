import LazyLisp.Proofs.Brackets.Colours

/-!
# Rules of colours

The line is painted by a scan that goes back to brackets it has passed.  What a
character looks like in the end depends only on what it is, and for an opening
bracket on the character that takes it off the open ones, if there is one.
`ColourAt` says so in rules, one for each case, with no order in which anything
is painted.

A bracket is taken off once, and so no two rules contradict each other.

## Main results

* `eq_of_taken` — a bracket is taken off the open ones once.
* `exists_of_repaintedAt_eq_some`, `repaintedAt_ne_none_of_taken` — what is
  painted over an opening bracket.
* `paint_getElem?_iff` — the line is painted as the rules say.
* `ColourAt.unique` — the rules give a character one colour.
-/

namespace LazyLisp.Brackets

open Scan

/-! ## Places of a line -/

/-- What the character at a place of the line is. -/
def roleAt (cs : List Char) (k : Nat) : Option Role :=
  cs[k]?.map (start.after (cs.take k)).role

/-- The character at this place ends where the cursor stands, in bytes. -/
def EndsAt (line : List Char) (cursor k : Nat) : Prop :=
  Text.byteLength (line.take (k + 1)) = cursor

/-- The character at the second place closes the bracket at the first one. -/
def ClosesAt (line : List Char) (o k : Nat) : Prop :=
  ∃ opening, roleAt line k = some (.closes opening) ∧ opening.index = o

/-- The character at the second place takes the bracket at the first one off the
open ones and does not match it. -/
def ClashesAt (line : List Char) (o k : Nat) : Prop :=
  ∃ opening, roleAt line k = some (.clashes opening) ∧ opening.index = o

/-- The colour of the character at a place of the line. -/
inductive ColourAt (line : List Char) (cursor k : Nat) : Option Colour → Prop where
  /-- What belongs to a string is green. -/
  | quoted (h : roleAt line k = some .quoted) : ColourAt line cursor k (some .green)
  /-- A closing bracket is red if none is open. -/
  | stray (h : roleAt line k = some .stray) : ColourAt line cursor k (some .red)
  /-- A closing bracket is red if the innermost open one does not match. -/
  | clashing {o : Nat} (h : ClashesAt line o k) : ColourAt line cursor k (some .red)
  /-- A closing bracket is blue if it or its partner ends at the cursor. -/
  | closing {o : Nat} (h : ClosesAt line o k)
      (hcursor : EndsAt line cursor o ∨ EndsAt line cursor k) : ColourAt line cursor k (some .blue)
  /-- A closing bracket has no colour if neither does. -/
  | apart {o : Nat} (h : ClosesAt line o k)
      (hcursor : ¬ (EndsAt line cursor o ∨ EndsAt line cursor k)) : ColourAt line cursor k none
  /-- An opening bracket is bold and red if a closing one took it off that does
  not match. -/
  | clashed {j : Nat} (h : ClashesAt line k j) : ColourAt line cursor k (some .boldRed)
  /-- An opening bracket is bold and blue if its partner is blue. -/
  | closed {j : Nat} (h : ClosesAt line k j)
      (hcursor : EndsAt line cursor k ∨ EndsAt line cursor j) :
      ColourAt line cursor k (some .boldBlue)
  /-- An opening bracket has no colour otherwise, also if nothing closes it. -/
  | opening (h : roleAt line k = some .opens) (hclash : ∀ j, ¬ ClashesAt line k j)
      (hcursor : ∀ j, ClosesAt line k j → ¬ (EndsAt line cursor k ∨ EndsAt line cursor j)) :
      ColourAt line cursor k none
  /-- No other character has a colour. -/
  | plain (h : roleAt line k = some .plain) : ColourAt line cursor k none

section Places

variable {line before rest : List Char} {c : Char} {cursor k k' o : Nat} {opening : Opening}
  {role : Role}

/-- The role of a character is the one it has for the scan of the text before it. -/
theorem roleAt_append (hline : line = before ++ c :: rest) :
    roleAt line before.length = some ((start.after before).role c) := by
  rw [roleAt, hline, List.take_left, List.getElem?_append_right (Nat.le_refl _), Nat.sub_self]
  rfl

/-- A place has a role if the line can be cut there, and then the scan of what
comes first gives it. -/
theorem roleAt_eq_some_iff : roleAt line k = some role ↔
    ∃ before c rest, line = before ++ c :: rest ∧ before.length = k ∧
      (start.after before).role c = role := by
  constructor
  · intro h
    have hk : k < line.length := by
      by_contra hge
      rw [roleAt, List.getElem?_eq_none (Nat.le_of_not_lt hge)] at h
      cases h
    obtain ⟨before, c, rest, hline, rfl⟩ := exists_of_lt_length hk
    rw [roleAt_append hline] at h
    exact ⟨before, c, rest, hline, rfl, Option.some.inj h⟩
  · rintro ⟨before, c, rest, hline, rfl, rfl⟩
    exact roleAt_append hline

private theorem endsAt_iff (hline : line = before ++ c :: rest)
    (hc : isOpening c = true ∨ isClosing c = true) :
    EndsAt line cursor before.length ↔ Text.byteLength before + 1 = cursor := by
  have hsize : c.utf8Size = 1 := by
    simp only [isOpening, isClosing, Bool.or_eq_true, beq_iff_eq] at hc
    rcases hc with (rfl | rfl) | (rfl | rfl) <;> rfl
  have htake : line.take (before.length + 1) = before ++ [c] := by
    rw [hline]
    rw [List.take_append, List.take_of_length_le (Nat.le_succ _), Nat.add_sub_cancel_left]
    rfl
  rw [EndsAt, htake, Text.byteLength_append, Text.byteLength_cons, hsize, Text.byteLength_nil]

/-- What a closing bracket takes off is an opening one before it. -/
theorem exists_opening (hline : line = before ++ c :: rest)
    (hrole : (start.after before).role c = .closes opening ∨
      (start.after before).role c = .clashes opening) :
    ∃ pre mid, before = pre ++ opening.bracket :: mid ∧ opening.index = pre.length ∧
      opening.offset = Text.byteLength pre ∧ roleAt line pre.length = some .opens := by
  obtain ⟨pre, mid, rfl, hindex, hoffset, hopens⟩ := exists_of_mem_stack (mem_stack_of_role hrole)
  have hopening : line = pre ++ opening.bracket :: (mid ++ c :: rest) := by simp [hline]
  exact ⟨pre, mid, rfl, hindex, hoffset, by rw [roleAt_append hopening, hopens]⟩

/-- The cursor touches a pair if it stands right behind one of its two brackets. -/
theorem touches_iff (hline : line = before ++ c :: rest)
    (hrole : (start.after before).role c = .closes opening) :
    (start.after before).Touches cursor opening ↔
      EndsAt line cursor opening.index ∨ EndsAt line cursor before.length := by
  obtain ⟨pre, mid, hbefore, hindex, hoffset, hopens⟩ := exists_opening hline (.inl hrole)
  have hopening : line = pre ++ opening.bracket :: (mid ++ c :: rest) := by
    rw [hline, hbefore, List.append_assoc, List.cons_append]
  rw [roleAt_append hopening] at hopens
  rw [endsAt_iff hline (.inr (isClosing_of_role (.inl ⟨_, hrole⟩))), hindex,
    endsAt_iff hopening (.inl (isOpening_of_role (Option.some.inj hopens))), Touches, hoffset,
    offset_after, show start.offset = 0 from rfl, Nat.zero_add]

/-- What a closing bracket meets, rightly or not, was open in the scan of the text
before it. -/
theorem exists_of_taken (h : ClosesAt line o k ∨ ClashesAt line o k) :
    ∃ before c rest opening, line = before ++ c :: rest ∧ before.length = k ∧
      opening.index = o ∧ ((start.after before).role c = .closes opening ∨
        (start.after before).role c = .clashes opening) := by
  rcases h with ⟨opening, hrole, hindex⟩ | ⟨opening, hrole, hindex⟩
  all_goals obtain ⟨before, c, rest, hline, hplace, hrole⟩ := roleAt_eq_some_iff.mp hrole
  · exact ⟨before, c, rest, opening, hline, hplace, hindex, .inl hrole⟩
  · exact ⟨before, c, rest, opening, hline, hplace, hindex, .inr hrole⟩

/-- What is taken off is an opening bracket before the closing one. -/
theorem roleAt_of_taken (h : ClosesAt line o k ∨ ClashesAt line o k) :
    roleAt line o = some .opens ∧ o < k := by
  obtain ⟨before, c, rest, opening, hline, rfl, rfl, hrole⟩ := exists_of_taken h
  obtain ⟨pre, mid, rfl, hindex, -, hopens⟩ := exists_opening hline hrole
  rw [hindex]
  exact ⟨hopens, by simp⟩

/-- A bracket is taken off the open ones once. -/
theorem eq_of_taken (h : ClosesAt line o k ∨ ClashesAt line o k)
    (h' : ClosesAt line o k' ∨ ClashesAt line o k') : k = k' := by
  obtain ⟨before, c, rest, opening, hline, rfl, hindex, hrole⟩ := exists_of_taken h
  obtain ⟨before', c', rest', opening', hline', rfl, hindex', hrole'⟩ := exists_of_taken h'
  have hsame : opening.index = opening'.index := hindex.trans hindex'.symm
  exact Nat.le_antisymm (length_le_of_closed hline' hline hrole' hrole hsame.symm)
    (length_le_of_closed hline hline' hrole hrole' hsame)

/-- A bracket is closed or clashed with, not both. -/
theorem ClosesAt.not_clashesAt (h : ClosesAt line o k) : ¬ ClashesAt line o k' := by
  intro h'
  obtain rfl := eq_of_taken (.inl h) (.inr h')
  obtain ⟨opening, hrole, -⟩ := h
  obtain ⟨opening', hrole', -⟩ := h'
  rw [hrole] at hrole'
  cases hrole'

end Places

/-! ## Painting by the rules -/

section Rules

variable {line before rest : List Char} {c : Char} {cursor j k o : Nat} {x y : Option Colour}

/-- What is painted over an opening bracket is told by the closing bracket that
takes it off. -/
theorem exists_of_repaintedAt_eq_some (hline : line = before ++ c :: rest) {x : Colour}
    (h : ((start.after before).feed c).repaintedAt cursor rest before.length = some x) :
    (∃ j, ClosesAt line before.length j ∧
        (EndsAt line cursor before.length ∨ EndsAt line cursor j) ∧ x = .boldBlue) ∨
      ∃ j, ClashesAt line before.length j ∧ x = .boldRed := by
  obtain ⟨mid, d, more, opening, rfl, hrepaint, hindex⟩ := exists_of_repaintedAt h
  have hlater : line = (before ++ c :: mid) ++ d :: more := by simp [hline]
  rw [← after_cons, ← after_append] at hrepaint
  rcases repaint_eq_some_iff.mp hrepaint with ⟨hrole, htouches, rfl⟩ | ⟨hrole, rfl⟩
  · rw [touches_iff hlater hrole, hindex] at htouches
    exact .inl ⟨_, ⟨opening, by rw [roleAt_append hlater, hrole], hindex⟩, htouches, rfl⟩
  · exact .inr ⟨_, ⟨opening, by rw [roleAt_append hlater, hrole], hindex⟩, rfl⟩

/-- A closing bracket paints over the opening one, if it does not match it or if
one of the two ends at the cursor. -/
theorem repaintedAt_ne_none_of_taken (hline : line = before ++ c :: rest)
    (h : (ClosesAt line before.length j ∧
        (EndsAt line cursor before.length ∨ EndsAt line cursor j)) ∨
      ClashesAt line before.length j) :
    ((start.after before).feed c).repaintedAt cursor rest before.length ≠ none := by
  have hlater {before' rest' : List Char} {d : Char} {opening : Opening} {x : Colour}
      (hline' : line = before' ++ d :: rest') (hlt : before.length < before'.length)
      (hrepaint : (start.after before').repaint cursor d = some (opening, x))
      (hindex : opening.index = before.length) :
      ((start.after before).feed c).repaintedAt cursor rest before.length ≠ none := by
    obtain ⟨mid, rfl, hrest⟩ := exists_between hline hline' hlt
    rw [after_append, after_cons] at hrepaint
    exact repaintedAt_ne_none hrest hrepaint hindex
  have hlt : before.length < j := (roleAt_of_taken (h.imp And.left id)).2
  rcases h with ⟨⟨opening, hat, hindex⟩, hcursor⟩ | ⟨opening, hat, hindex⟩
  all_goals obtain ⟨before', d, rest', hline', rfl, hrole⟩ := roleAt_eq_some_iff.mp hat
  · rw [← hindex, ← touches_iff hline' hrole] at hcursor
    exact hlater hline' hlt (repaint_eq_some_iff.mpr (.inl ⟨hrole, hcursor, rfl⟩)) hindex
  · exact hlater hline' hlt (repaint_eq_some_iff.mpr (.inr ⟨hrole, rfl⟩)) hindex

/-- The colour of a character in the end. -/
theorem colourAt_append (cursor : Nat) (hline : line = before ++ c :: rest) :
    ColourAt line cursor before.length
      ((((start.after before).feed c).repaintedAt cursor rest before.length).or
        ((start.after before).colour cursor c)) := by
  have hat := roleAt_append hline
  cases hrole : (start.after before).role c with
  | opens =>
      rw [hrole] at hat
      have hcolour : (start.after before).colour cursor c = none := by rw [colour, hrole]
      rw [hcolour, Option.or_none]
      cases hrepainted :
          ((start.after before).feed c).repaintedAt cursor rest before.length with
      | none =>
          refine .opening hat (fun j hj => ?_) fun j hj hcursor => ?_
          · exact repaintedAt_ne_none_of_taken hline (.inr hj) hrepainted
          · exact repaintedAt_ne_none_of_taken hline (.inl ⟨hj, hcursor⟩) hrepainted
      | some x =>
          rcases exists_of_repaintedAt_eq_some hline hrepainted with
            ⟨j, hj, hcursor, rfl⟩ | ⟨j, hj, rfl⟩
          · exact .closed hj hcursor
          · exact .clashed hj
  | closes opening =>
      rw [repaintedAt_eq_none (by simp [hrole]), Option.none_or]
      have hcloses : ClosesAt line opening.index before.length :=
        ⟨opening, by rw [hat, hrole], rfl⟩
      by_cases htouches : (start.after before).Touches cursor opening
      · have hcolour : (start.after before).colour cursor c = some .blue := by
          simp [colour, hrole, htouches]
        rw [hcolour]
        exact .closing hcloses ((touches_iff hline hrole).mp htouches)
      · have hcolour : (start.after before).colour cursor c = none := by
          simp [colour, hrole, htouches]
        rw [hcolour]
        exact .apart hcloses (mt (touches_iff hline hrole).mpr htouches)
  | clashes opening =>
      rw [repaintedAt_eq_none (by simp [hrole]), Option.none_or, colour, hrole]
      exact .clashing ⟨opening, by rw [hat, hrole], rfl⟩
  | quoted =>
      rw [repaintedAt_eq_none (by simp [hrole]), Option.none_or, colour, hrole]
      exact .quoted (by rw [hat, hrole])
  | stray =>
      rw [repaintedAt_eq_none (by simp [hrole]), Option.none_or, colour, hrole]
      exact .stray (by rw [hat, hrole])
  | plain =>
      rw [repaintedAt_eq_none (by simp [hrole]), Option.none_or, colour, hrole]
      exact .plain (by rw [hat, hrole])

/-- No rule gives another colour. -/
theorem ColourAt.eq_append (h : ColourAt line cursor k x) (hline : line = before ++ c :: rest)
    (hk : before.length = k) :
    x = (((start.after before).feed c).repaintedAt cursor rest before.length).or
      ((start.after before).colour cursor c) := by
  subst hk
  have hat := roleAt_append hline
  have hrole {role : Role} (h : roleAt line before.length = some role) :
      (start.after before).role c = role := Option.some.inj (hat.symm.trans h)
  have hopens (h : roleAt line before.length = some .opens) :
      (start.after before).colour cursor c = none := by rw [colour, hrole h]
  cases h with
  | quoted h => simp [repaintedAt_eq_none, colour, hrole h]
  | stray h => simp [repaintedAt_eq_none, colour, hrole h]
  | plain h => simp [repaintedAt_eq_none, colour, hrole h]
  | clashing h =>
      obtain ⟨opening, h, rfl⟩ := h
      simp [repaintedAt_eq_none, colour, hrole h]
  | closing h hcursor =>
      obtain ⟨opening, h, rfl⟩ := h
      rw [← touches_iff hline (hrole h)] at hcursor
      simp [repaintedAt_eq_none, colour, hrole h, hcursor]
  | apart h hcursor =>
      obtain ⟨opening, h, rfl⟩ := h
      rw [← touches_iff hline (hrole h)] at hcursor
      simp [repaintedAt_eq_none, colour, hrole h, hcursor]
  | clashed h =>
      have hne : ((start.after before).feed c).repaintedAt cursor rest before.length ≠ none :=
        repaintedAt_ne_none_of_taken hline (.inr h)
      obtain ⟨y, hy⟩ := Option.ne_none_iff_exists'.mp hne
      rw [hy]
      rcases exists_of_repaintedAt_eq_some hline hy with ⟨j, hj, -, -⟩ | ⟨j, -, rfl⟩
      · exact absurd h hj.not_clashesAt
      · rfl
  | closed h hcursor =>
      have hne : ((start.after before).feed c).repaintedAt cursor rest before.length ≠ none :=
        repaintedAt_ne_none_of_taken hline (.inl ⟨h, hcursor⟩)
      obtain ⟨y, hy⟩ := Option.ne_none_iff_exists'.mp hne
      rw [hy]
      rcases exists_of_repaintedAt_eq_some hline hy with ⟨j, -, -, rfl⟩ | ⟨j, hj, -⟩
      · rfl
      · exact absurd hj h.not_clashesAt
  | opening h hclash hcursor =>
      rw [hopens h, Option.or_none]
      cases hrepainted :
          ((start.after before).feed c).repaintedAt cursor rest before.length with
      | none => rfl
      | some y =>
          rcases exists_of_repaintedAt_eq_some hline hrepainted with
            ⟨j, hj, htouches, -⟩ | ⟨j, hj, -⟩
          · exact absurd htouches (hcursor j hj)
          · exact absurd hj (hclash j)

/-- Only places of the line have a colour. -/
theorem ColourAt.exists_roleAt (h : ColourAt line cursor k x) :
    ∃ role, roleAt line k = some role := by
  cases h with
  | quoted h | stray h | plain h | opening h => exact ⟨_, h⟩
  | clashing h | closing h | apart h =>
      obtain ⟨opening, hrole, -⟩ := h
      exact ⟨_, hrole⟩
  | clashed h => exact ⟨_, (roleAt_of_taken (.inr h)).1⟩
  | closed h => exact ⟨_, (roleAt_of_taken (.inl h)).1⟩

/-- The rules give a character one colour. -/
theorem ColourAt.unique (h : ColourAt line cursor k x) (h' : ColourAt line cursor k y) :
    x = y := by
  obtain ⟨role, hrole⟩ := h.exists_roleAt
  obtain ⟨before, c, rest, hline, hk, -⟩ := roleAt_eq_some_iff.mp hrole
  rw [h.eq_append hline hk, h'.eq_append hline hk]

/-- The line is painted as the rules say. -/
theorem paint_getElem?_iff {cs : List Char} : (paint cs cursor)[k]? = some ⟨c, x⟩ ↔
    cs[k]? = some c ∧ ColourAt cs cursor k x := by
  have hchar {before rest : List Char} {d : Char} (hline : cs = before ++ d :: rest) :
      cs[before.length]? = some d := by
    rw [hline, List.getElem?_append_right (Nat.le_refl _), Nat.sub_self]
    rfl
  constructor
  · intro h
    have hk : k < cs.length := by
      rw [← length_paint cs cursor]
      exact (List.getElem?_eq_some_iff.mp h).1
    obtain ⟨before, d, rest, hline, rfl⟩ := exists_of_lt_length hk
    rw [paint_getElem? cursor hline, Option.some.injEq, Cell.mk.injEq] at h
    obtain ⟨rfl, rfl⟩ := h
    exact ⟨hchar hline, colourAt_append cursor hline⟩
  · rintro ⟨hc, h⟩
    obtain ⟨role, hrole⟩ := h.exists_roleAt
    obtain ⟨before, d, rest, hline, rfl, -⟩ := roleAt_eq_some_iff.mp hrole
    obtain rfl := Option.some.inj ((hchar hline).symm.trans hc)
    rw [paint_getElem? cursor hline, ← h.eq_append hline rfl]

/-! ### The blue pair -/

/-- A pair that the cursor stands behind is the pair at the cursor. -/
theorem atCursor_of_closesAt (h : ClosesAt line o k)
    (hcursor : EndsAt line cursor o ∨ EndsAt line cursor k) : AtCursor line cursor o k := by
  obtain ⟨opening, hat, rfl⟩ := h
  obtain ⟨before, c, rest, hline, rfl, hrole⟩ := roleAt_eq_some_iff.mp hat
  exact ⟨before, c, rest, opening, hline, rfl, hrole, rfl, (touches_iff hline hrole).mpr hcursor⟩

/-- An opening bracket is blue if and only if its partner is. -/
theorem ClosesAt.boldBlue_iff (h : ClosesAt line o k) :
    ColourAt line cursor o (some .boldBlue) ↔ ColourAt line cursor k (some .blue) := by
  constructor
  · intro hopening
    cases hopening with
    | closed h' hcursor =>
        obtain rfl := eq_of_taken (.inl h) (.inl h')
        exact .closing h hcursor
  · intro hclosing
    cases hclosing with
    | closing h' hcursor =>
        obtain ⟨opening, hat, rfl⟩ := h
        obtain ⟨opening', hat', rfl⟩ := h'
        cases hat.symm.trans hat'
        exact .closed ⟨opening, hat, rfl⟩ hcursor

/-- At most one closing bracket is blue. -/
theorem ColourAt.eq_of_blue (h : ColourAt line cursor j (some .blue))
    (h' : ColourAt line cursor k (some .blue)) : j = k := by
  cases h with
  | closing h hcursor =>
      cases h' with
      | closing h' hcursor' =>
          exact ((atCursor_of_closesAt h hcursor).unique (atCursor_of_closesAt h' hcursor')).2

/-- At most one opening bracket is blue. -/
theorem ColourAt.eq_of_boldBlue (h : ColourAt line cursor j (some .boldBlue))
    (h' : ColourAt line cursor k (some .boldBlue)) : j = k := by
  cases h with
  | closed h hcursor =>
      cases h' with
      | closed h' hcursor' =>
          exact ((atCursor_of_closesAt h hcursor).unique (atCursor_of_closesAt h' hcursor')).1

end Rules

end LazyLisp.Brackets
