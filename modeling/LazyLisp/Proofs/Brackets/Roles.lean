import LazyLisp.Brackets.Highlight
import LazyLisp.Proofs.Brackets.Tokens
import Mathlib.Data.List.Induction

/-!
# Roles of the characters of a line

Two scans go over a line that is being typed.  One judges its brackets and stops
at the first closing one without a partner.  The other colours characters and
goes on to the end, and what it makes of later brackets depends on the ones that
did not match before.  Up to the first mismatch the two keep the same open
brackets, one of them with the places of these and the other without.

`Scan` is what the colouring scan knows at a place, less the cells that it has
painted, and `Scan.role` is all that it makes of one character.  Both the colours
and the verdict are functions of the roles: a character is painted when it is
met, and an opening bracket once more when it is closed.

## Main results

* `Scan.exists_of_mem_stack` — what is taken for open stands in the line, where
  it is said to.
* `Scan.Ordered.closed`, `Scan.not_mem_after` — a bracket that was closed stays
  closed.
* `verdictFrom_eq_invalid_iff`, `firstRejected_eq_some_iff` — a line is invalid at
  the first character that is rejected.
-/

namespace LazyLisp.Brackets

/-! ## Roles of characters -/

/-- What a character is to the scan that colours a line. -/
inductive Role where
  /-- It belongs to a string. -/
  | quoted
  /-- It opens a bracket. -/
  | opens
  /-- It closes the innermost open bracket. -/
  | closes (opening : Opening)
  /-- It is a closing bracket, but the innermost open one is of the other
  sort. -/
  | clashes (opening : Opening)
  /-- It is a closing bracket where none is open. -/
  | stray
  /-- It is anything else. -/
  | plain

/-- Whether the character is a closing bracket without a partner. -/
def Role.isRejected : Role → Bool
  | clashes _ | stray => true
  | quoted | opens | closes _ | plain => false

/-- What is known at a place of a line: whether it is in a string, the brackets
that are open, innermost first, and how many bytes and characters stand before
it. -/
structure Scan where
  quoting : Quoting
  stack : List Opening
  offset : Nat
  index : Nat

namespace Scan

/-- At the beginning of a line. -/
def start : Scan := ⟨.outside, [], 0, 0⟩

/-- What the next character is. -/
def role (s : Scan) (c : Char) : Role :=
  if (s.quoting.feed c).1 = true then .quoted
  else if isOpening c = true then .opens
  else if isClosing c = true then
    match s.stack with
    | opening :: _ => if isMatch opening.bracket c = true then .closes opening else .clashes opening
    | [] => .stray
  else .plain

/-- The brackets that are open after the next character.  A closing bracket
takes one off even if it does not match. -/
def stackAfter (s : Scan) (c : Char) : List Opening :=
  match s.role c with
  | .opens => ⟨c, s.offset, s.index⟩ :: s.stack
  | .closes _ | .clashes _ => s.stack.tail
  | .quoted | .stray | .plain => s.stack

/-- After the next character. -/
def feed (s : Scan) (c : Char) : Scan :=
  ⟨(s.quoting.feed c).2, s.stackAfter c, s.offset + c.utf8Size, s.index + 1⟩

/-- After a text. -/
def after (s : Scan) (cs : List Char) : Scan := cs.foldl feed s

/-- The cursor stands right behind an open bracket or behind the next
character, if this is a bracket too. -/
def Touches (s : Scan) (cursor : Nat) (opening : Opening) : Prop :=
  opening.offset + 1 = cursor ∨ s.offset + 1 = cursor

instance (s : Scan) (cursor : Nat) (opening : Opening) : Decidable (s.Touches cursor opening) :=
  inferInstanceAs (Decidable (_ ∨ _))

/-- The colour of the next character when it is met. -/
def colour (s : Scan) (cursor : Nat) (c : Char) : Option Colour :=
  match s.role c with
  | .quoted => some .green
  | .closes opening => if s.Touches cursor opening then some .blue else none
  | .clashes _ | .stray => some .red
  | .opens | .plain => none

/-- The opening bracket that the next character paints once more, with the
colour. -/
def repaint (s : Scan) (cursor : Nat) (c : Char) : Option (Opening × Colour) :=
  match s.role c with
  | .closes opening => if s.Touches cursor opening then some (opening, .boldBlue) else none
  | .clashes opening => some (opening, .boldRed)
  | .quoted | .opens | .stray | .plain => none

section Role

variable {s : Scan} {c : Char} {opening : Opening} {cursor : Nat} {x : Colour}

@[simp] theorem after_nil (s : Scan) : s.after [] = s := rfl

@[simp] theorem after_cons (s : Scan) (c : Char) (rest : List Char) :
    s.after (c :: rest) = (s.feed c).after rest := rfl

/-- The scan of a longer text goes on from where the first part left it. -/
theorem after_append (s : Scan) (cs ds : List Char) : s.after (cs ++ ds) = (s.after cs).after ds :=
  List.foldl_append ..

/-- The index counts characters. -/
theorem index_after (s : Scan) (cs : List Char) : (s.after cs).index = s.index + cs.length := by
  induction cs generalizing s with
  | nil => rfl
  | cons c rest ih =>
      rw [after_cons, ih, List.length_cons]
      show s.index + 1 + rest.length = _
      omega

/-- The offset counts bytes. -/
theorem offset_after (s : Scan) (cs : List Char) :
    (s.after cs).offset = s.offset + Text.byteLength cs := by
  induction cs generalizing s with
  | nil => rfl
  | cons c rest ih =>
      rw [after_cons, ih, Text.byteLength_cons]
      show s.offset + c.utf8Size + Text.byteLength rest = _
      omega

/-- Whether the scan is in a string does not depend on brackets. -/
theorem quoting_after (s : Scan) (cs : List Char) :
    (s.after cs).quoting = s.quoting.after cs := by
  induction cs generalizing s with
  | nil => rfl
  | cons c rest ih => exact ih (s.feed c)

private theorem isClosing_eq_false_of_isOpening (h : isOpening c = true) : isClosing c = false := by
  simp only [isOpening, Bool.or_eq_true, beq_iff_eq] at h
  rcases h with rfl | rfl <;> rfl

/-- A closing bracket outside strings closes the innermost open one, or clashes
with it, or there is none. -/
theorem role_of_isClosing (hquoted : (s.quoting.feed c).1 = false) (hc : isClosing c = true) :
    s.role c =
      match s.stack with
      | opening :: _ =>
          if isMatch opening.bracket c = true then .closes opening else .clashes opening
      | [] => .stray := by
  have hopening : isOpening c = false := by
    cases h : isOpening c with
    | false => rfl
    | true =>
        rw [isClosing_eq_false_of_isOpening h] at hc
        cases hc
  rw [role, if_neg (by simp [hquoted]), if_neg (by simp [hopening]), if_pos hc]

theorem role_of_isOpening (hquoted : (s.quoting.feed c).1 = false) (hc : isOpening c = true) :
    s.role c = .opens := by
  rw [role, if_neg (by simp [hquoted]), if_pos hc]

/-- Roles that have to do with closing are those of closing brackets. -/
theorem isClosing_of_role
    (h : (∃ opening, s.role c = .closes opening) ∨ (s.role c).isRejected = true) :
    isClosing c = true := by
  unfold role at h
  split at h
  · simp [Role.isRejected] at h
  · split at h
    · simp [Role.isRejected] at h
    · split at h
      · assumption
      · simp [Role.isRejected] at h

theorem isOpening_of_role (h : s.role c = .opens) : isOpening c = true := by
  unfold role at h
  split at h
  · cases h
  · split at h
    · assumption
    · split at h
      · split at h
        · split at h <;> cases h
        · cases h
      · cases h

theorem feed_eq_false_of_role (h : s.role c ≠ .quoted) : (s.quoting.feed c).1 = false := by
  cases hfeed : (s.quoting.feed c).1 with
  | false => rfl
  | true => exact absurd (if_pos hfeed) h

/-- What is closed or clashed with is the innermost open bracket. -/
theorem head?_of_role (h : s.role c = .closes opening ∨ s.role c = .clashes opening) :
    s.stack.head? = some opening := by
  have hclosing : isClosing c = true := by
    rcases h with h | h
    · exact isClosing_of_role (.inl ⟨opening, h⟩)
    · exact isClosing_of_role (.inr (by rw [h]; rfl))
  have hquoted : (s.quoting.feed c).1 = false :=
    feed_eq_false_of_role (by rcases h with h | h <;> rw [h] <;> nofun)
  rw [role_of_isClosing hquoted hclosing] at h
  cases hstack : s.stack with
  | nil =>
      rw [hstack] at h
      rcases h with h | h <;> cases h
  | cons inner around =>
      simp only [hstack] at h
      split at h
      all_goals
        rcases h with h | h <;> cases h
        rfl

/-- What a closing bracket meets was open. -/
theorem mem_stack_of_role (h : s.role c = .closes opening ∨ s.role c = .clashes opening) :
    opening ∈ s.stack :=
  List.mem_of_head? (head?_of_role h)

/-- The bracket that is closed is the innermost open one, and of the same
sort. -/
theorem closes_iff : s.role c = .closes opening ↔
    (s.quoting.feed c).1 = false ∧ isClosing c = true ∧ s.stack.head? = some opening ∧
      isMatch opening.bracket c = true := by
  constructor
  · intro h
    have hclosing := isClosing_of_role (.inl ⟨opening, h⟩)
    have hquoted : (s.quoting.feed c).1 = false := feed_eq_false_of_role (by rw [h]; nofun)
    rw [role_of_isClosing hquoted hclosing] at h
    split at h
    · rename_i hstack
      split at h
      · rename_i hmatch
        cases h
        exact ⟨hquoted, hclosing, by rw [hstack]; rfl, hmatch⟩
      · cases h
    · cases h
  · rintro ⟨hquoted, hclosing, hhead, hmatch⟩
    rw [role_of_isClosing hquoted hclosing]
    cases hstack : s.stack with
    | nil => rw [hstack] at hhead; cases hhead
    | cons inner around =>
        rw [hstack] at hhead
        cases hhead
        exact if_pos hmatch

/-- The colour red is that of rejected characters. -/
theorem colour_eq_red_iff : s.colour cursor c = some .red ↔ (s.role c).isRejected = true := by
  unfold colour
  cases s.role c with
  | closes opening => by_cases h : s.Touches cursor opening <;> simp [h, Role.isRejected]
  | _ => simp [Role.isRejected]

/-- An opening bracket is repainted in two cases: its pair touches the cursor, or
it clashes with the bracket that is read. -/
theorem repaint_eq_some_iff : s.repaint cursor c = some (opening, x) ↔
    (s.role c = .closes opening ∧ s.Touches cursor opening ∧ x = .boldBlue) ∨
      (s.role c = .clashes opening ∧ x = .boldRed) := by
  unfold repaint
  cases s.role c with
  | closes other =>
      by_cases h : s.Touches cursor other
      · simp only [if_pos h]
        grind
      · simp only [if_neg h]
        grind
  | _ => grind

end Role

/-! ## Open brackets -/

/-- The open brackets stand in the line one before the other, and before the
place of the scan. -/
structure Ordered (s : Scan) : Prop where
  lt : ∀ opening ∈ s.stack, opening.index < s.index
  pairwise : s.stack.Pairwise fun inner outer => outer.index < inner.index

section Ordered

variable {s : Scan} {c : Char} {opening : Opening}

/-- One character opens one bracket at most. -/
theorem mem_stackAfter (h : opening ∈ s.stackAfter c) :
    opening ∈ s.stack ∨ s.role c = .opens ∧ opening = ⟨c, s.offset, s.index⟩ := by
  unfold stackAfter at h
  split at h
  · rename_i hrole
    rcases List.mem_cons.mp h with rfl | hmem
    · exact .inr ⟨hrole, rfl⟩
    · exact .inl hmem
  · exact .inl (List.mem_of_mem_tail h)
  · exact .inl (List.mem_of_mem_tail h)
  all_goals exact .inl h

/-- The order of the open brackets is kept by every character. -/
theorem Ordered.feed (h : s.Ordered) (c : Char) : (s.feed c).Ordered where
  lt opening hmem := by
    show opening.index < s.index + 1
    rcases mem_stackAfter hmem with hmem | ⟨-, rfl⟩
    · exact Nat.lt_succ_of_lt (h.lt opening hmem)
    · exact Nat.lt_succ_self _
  pairwise := by
    show (s.stackAfter c).Pairwise _
    unfold stackAfter
    split
    · exact .cons h.lt h.pairwise
    · exact h.pairwise.tail
    · exact h.pairwise.tail
    all_goals exact h.pairwise

/-- The open brackets stand in the order of their places, the innermost first. -/
theorem Ordered.after (h : s.Ordered) (cs : List Char) : (s.after cs).Ordered := by
  induction cs generalizing s with
  | nil => exact h
  | cons c rest ih => exact ih (h.feed c)

theorem ordered_start : start.Ordered := ⟨nofun, .nil⟩

/-- A bracket of the line that is not open any more does not open again. -/
theorem not_mem_after {place : Nat} (hplace : place < s.index)
    (h : ∀ opening ∈ s.stack, opening.index ≠ place) (cs : List Char) :
    ∀ opening ∈ (s.after cs).stack, opening.index ≠ place := by
  induction cs generalizing s with
  | nil => exact h
  | cons c rest ih =>
      refine ih (s := s.feed c) (Nat.lt_succ_of_lt hplace) fun opening hmem => ?_
      rcases mem_stackAfter hmem with hmem | ⟨-, rfl⟩
      · exact h opening hmem
      · exact Nat.ne_of_gt hplace

/-- The bracket that a closing one takes off, as its partner or not, is not open
after that. -/
theorem Ordered.closed (h : s.Ordered)
    (hrole : s.role c = .closes opening ∨ s.role c = .clashes opening) :
    opening ∈ s.stack ∧ ∀ other ∈ (s.feed c).stack, other.index < opening.index := by
  have hhead := head?_of_role hrole
  have hstack : (s.feed c).stack = s.stack.tail := by
    show s.stackAfter c = _
    rcases hrole with hrole | hrole <;> rw [stackAfter, hrole]
  cases hs : s.stack with
  | nil => rw [hs] at hhead; cases hhead
  | cons inner around =>
      rw [hs] at hhead
      cases hhead
      refine ⟨List.mem_cons_self .., fun other hother => ?_⟩
      rw [hstack, hs] at hother
      have hpairwise := h.pairwise
      rw [hs] at hpairwise
      exact List.rel_of_pairwise_cons hpairwise hother

/-- An open bracket of a line is an opening bracket that stands outside strings
where it says. -/
theorem exists_of_mem_stack {line : List Char} (h : opening ∈ (start.after line).stack) :
    ∃ before rest, line = before ++ opening.bracket :: rest ∧ opening.index = before.length ∧
      opening.offset = Text.byteLength before ∧
      (start.after before).role opening.bracket = .opens := by
  induction line using List.reverseRecOn with
  | nil => cases h
  | append_singleton line c ih =>
      rw [after_append] at h
      rcases mem_stackAfter h with hmem | ⟨hrole, rfl⟩
      · obtain ⟨before, rest, rfl, hplace⟩ := ih hmem
        exact ⟨before, rest ++ [c], by simp, hplace⟩
      · refine ⟨line, [], rfl, ?_, ?_, hrole⟩
        · simpa [start] using index_after start line
        · simpa [start] using offset_after start line

end Ordered

end Scan

/-! ## The verdict -/

section Verdict

variable {c : Char} {rest line : List Char} {i : Nat}

/-- The first character that is rejected, with its place. -/
def firstRejected (s : Scan) : List Char → Option (Char × Nat)
  | [] => none
  | c :: rest => if (s.role c).isRejected = true then some (c, s.index)
      else firstRejected (s.feed c) rest

/-- One character of the scan that judges a line. -/
theorem verdictFrom_cons (s : Scan) (c : Char) (rest : List Char) :
    verdictFrom s.quoting (s.stack.map Opening.bracket) s.index (c :: rest) =
      if (s.role c).isRejected = true then .invalid c s.index
      else verdictFrom (s.feed c).quoting ((s.feed c).stack.map Opening.bracket) (s.feed c).index
        rest := by
  have hfeed : s.feed c =
      ⟨(s.quoting.feed c).2, s.stackAfter c, s.offset + c.utf8Size, s.index + 1⟩ := rfl
  rw [verdictFrom, hfeed, Scan.stackAfter, Scan.role]
  rcases s.quoting.feed c with ⟨inString, quoting⟩
  cases inString with
  | true => rfl
  | false =>
      simp only [Bool.false_eq_true, if_false]
      by_cases hopening : isOpening c = true
      · simp [hopening, Role.isRejected]
      · by_cases hclosing : isClosing c = true
        · cases hstack : s.stack with
          | nil => simp [hopening, hclosing, Role.isRejected]
          | cons inner around =>
              by_cases hmatch : isMatch inner.bracket c = true
              · simp [hopening, hclosing, hmatch, Role.isRejected]
              · simp [hopening, hclosing, hmatch, Role.isRejected]
        · simp [hopening, hclosing, Role.isRejected]

/-- The verdict is invalid at the first character that is rejected. -/
theorem verdictFrom_eq_invalid_iff (s : Scan) :
    verdictFrom s.quoting (s.stack.map Opening.bracket) s.index line = .invalid c i ↔
      firstRejected s line = some (c, i) := by
  induction line generalizing s with
  | nil =>
      rw [verdictFrom, firstRejected]
      split <;> simp
  | cons d rest ih =>
      rw [verdictFrom_cons, firstRejected]
      by_cases hrejected : (s.role d).isRejected = true
      · simp [if_pos hrejected]
      · rw [if_neg hrejected, if_neg hrejected]
        exact ih (s.feed d)

/-- The character at this place is rejected, after this text. -/
def RejectedAt (line : List Char) (c : Char) (i : Nat) : Prop :=
  ∃ before rest, line = before ++ c :: rest ∧ before.length = i ∧
    ((Scan.start.after before).role c).isRejected = true

/-- The first rejected character has none before it. -/
theorem firstRejected_eq_some_iff (s : Scan) :
    firstRejected s line = some (c, i) ↔
      ∃ before rest, line = before ++ c :: rest ∧ s.index + before.length = i ∧
        ((s.after before).role c).isRejected = true ∧
        ∀ earlier d more, line = earlier ++ d :: more → earlier.length < before.length →
          ((s.after earlier).role d).isRejected = false := by
  induction line generalizing s with
  | nil => simp [firstRejected]
  | cons d rest ih =>
      rw [firstRejected]
      by_cases hrejected : (s.role d).isRejected = true
      · rw [if_pos hrejected]
        constructor
        · rintro ⟨⟩
          exact ⟨[], rest, rfl, rfl, hrejected, fun _ _ _ _ h => absurd h (Nat.not_lt_zero _)⟩
        · rintro ⟨before, more, hline, rfl, -, hfirst⟩
          cases before with
          | nil => cases hline; rfl
          | cons e before =>
              have := hfirst [] d rest rfl (Nat.zero_lt_succ _)
              rw [Scan.after_nil, hrejected] at this
              cases this
      · rw [if_neg hrejected, ih]
        constructor
        · rintro ⟨before, more, rfl, rfl, hhere, hfirst⟩
          refine ⟨d :: before, more, rfl, ?_, hhere, ?_⟩
          · show s.index + (before.length + 1) = s.index + 1 + before.length
            omega
          · intro earlier e more' hline hlt
            cases earlier with
            | nil =>
                cases hline
                exact Bool.eq_false_iff.mpr hrejected
            | cons f earlier =>
                obtain ⟨rfl, hrest⟩ := List.cons.inj hline
                exact hfirst earlier e more' hrest (by simpa using hlt)
        · rintro ⟨before, more, hline, rfl, hhere, hfirst⟩
          cases before with
          | nil =>
              cases hline
              exact absurd hhere hrejected
          | cons e before =>
              obtain ⟨rfl, rfl⟩ := List.cons.inj hline
              refine ⟨before, more, rfl, ?_, hhere, ?_⟩
              · show s.index + 1 + before.length = s.index + (before.length + 1)
                omega
              · intro earlier f more' hrest hlt
                exact hfirst (d :: earlier) f more' (by rw [hrest]; rfl) (by simpa using hlt)

/-- Nothing is rejected if no character is. -/
theorem firstRejected_eq_none_iff (s : Scan) :
    firstRejected s line = none ↔ ∀ before d rest, line = before ++ d :: rest →
      ((s.after before).role d).isRejected = false := by
  induction line generalizing s with
  | nil => simp [firstRejected]
  | cons d rest ih =>
      rw [firstRejected]
      by_cases hrejected : (s.role d).isRejected = true
      · rw [if_pos hrejected]
        refine ⟨nofun, fun h => ?_⟩
        have := h [] d rest rfl
        rw [Scan.after_nil, hrejected] at this
        cases this
      · rw [if_neg hrejected, ih]
        constructor
        · intro h before e more hline
          cases before with
          | nil =>
              cases hline
              exact Bool.eq_false_iff.mpr hrejected
          | cons f before =>
              obtain ⟨rfl, hrest⟩ := List.cons.inj hline
              exact h before e more hrest
        · intro h before e more hrest
          exact h (d :: before) e more (by rw [hrest]; rfl)

end Verdict

end LazyLisp.Brackets
