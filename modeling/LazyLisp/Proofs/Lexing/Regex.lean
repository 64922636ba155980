/-!
# Regular expressions

What a piece of a program's text can be is declared by regular expressions
over characters.  Here is what such an expression means: a derivation says
how it matches the whole of a text.

Nearly all expressions that are needed are a run over one class of
characters, or begin or end with one.  A run has a much simpler meaning than
its derivations, so that proofs about it come down to membership in a class.

## Main results

* `matches_many_one_iff`, `matches_plus_one_iff` — a run over a class matches
  the texts of that class.
* `matches_word_iff` — a word matches itself alone.
-/

namespace LazyLisp.Token

/-- A regular expression over characters. -/
inductive Regex where
  /-- The empty text. -/
  | empty
  /-- One character of a class. -/
  | one (p : Char → Bool)
  /-- A match of the first expression and one of the second after it. -/
  | seq (a b : Regex)
  /-- A match of either expression. -/
  | either (a b : Regex)
  /-- Any number of matches in a row. -/
  | many (a : Regex)

namespace Regex

/-- One given character. -/
def char (c : Char) : Regex := one (· == c)

/-- One given word. -/
def word : List Char → Regex
  | [] => empty
  | c :: rest => seq (char c) (word rest)

/-- One or more matches in a row. -/
def plus (a : Regex) : Regex := seq a (many a)

/-- At most one match. -/
def optional (a : Regex) : Regex := either a empty

/-- The expression matches the whole of a text. -/
inductive Matches : Regex → List Char → Prop where
  | empty : Matches empty []
  | one {p : Char → Bool} {c : Char} (h : p c = true) : Matches (one p) [c]
  | seq {a b : Regex} {u v : List Char} (ha : Matches a u) (hb : Matches b v) :
      Matches (seq a b) (u ++ v)
  | left {a b : Regex} {u : List Char} (h : Matches a u) : Matches (either a b) u
  | right {a b : Regex} {u : List Char} (h : Matches b u) : Matches (either a b) u
  | stop {a : Regex} : Matches (many a) []
  | more {a : Regex} {u v : List Char} (ha : Matches a u) (hrest : Matches (many a) v) :
      Matches (many a) (u ++ v)

variable {a b : Regex} {p : Char → Bool} {c : Char} {w : List Char}

/-- Induction on the matches in a row. -/
theorem Matches.many_induction {motive : (w : List Char) → Matches (many a) w → Prop}
    (stop : motive [] .stop)
    (more : ∀ {u v : List Char} (ha : Matches a u) (hrest : Matches (many a) v),
      motive v hrest → motive (u ++ v) (.more ha hrest))
    (h : Matches (many a) w) : motive w h := by
  have hall : ∀ r w (h : Matches r w) (hr : r = many a), motive w (hr ▸ h) := by
    intro r w h
    induction h with
    | stop =>
        intro hr
        cases hr
        exact stop
    | more ha hrest _ ih =>
        intro hr
        cases hr
        exact more ha hrest (ih rfl)
    | _ => exact fun hr => by cases hr
  exact hall _ w h rfl

/-! ### What the expressions match -/

@[simp] theorem matches_empty_iff : Matches .empty w ↔ w = [] := by
  constructor
  · intro h
    cases h
    rfl
  · rintro rfl
    exact .empty

@[simp] theorem matches_one_iff : Matches (.one p) w ↔ ∃ c, w = [c] ∧ p c = true := by
  constructor
  · intro h
    cases h with
    | one h => exact ⟨_, rfl, h⟩
  · rintro ⟨c, rfl, h⟩
    exact .one h

@[simp] theorem matches_char_iff : Matches (char c) w ↔ w = [c] := by
  simp [char]

@[simp] theorem matches_seq_iff :
    Matches (.seq a b) w ↔ ∃ u v, w = u ++ v ∧ Matches a u ∧ Matches b v := by
  constructor
  · intro h
    cases h with
    | seq ha hb => exact ⟨_, _, rfl, ha, hb⟩
  · rintro ⟨u, v, rfl, ha, hb⟩
    exact .seq ha hb

@[simp] theorem matches_either_iff : Matches (.either a b) w ↔ Matches a w ∨ Matches b w := by
  constructor
  · intro h
    cases h with
    | left h => exact .inl h
    | right h => exact .inr h
  · rintro (h | h)
    · exact .left h
    · exact .right h

@[simp] theorem matches_optional_iff : Matches (optional a) w ↔ Matches a w ∨ w = [] := by
  simp [optional]

@[simp] theorem matches_word_iff {text : List Char} : Matches (word text) w ↔ w = text := by
  induction text generalizing w with
  | nil => simp [word]
  | cons c rest ih => simp [word, ih]

/-- Many characters of a class are a text of that class. -/
@[simp] theorem matches_many_one_iff : Matches (.many (.one p)) w ↔ ∀ c ∈ w, p c = true := by
  constructor
  · intro h
    induction h using Matches.many_induction with
    | stop => simp
    | more ha _ ih =>
        obtain ⟨c, rfl, hc⟩ := matches_one_iff.mp ha
        exact List.forall_mem_cons.mpr ⟨hc, ih⟩
  · intro h
    induction w with
    | nil => exact .stop
    | cons c rest ih =>
        obtain ⟨hc, hrest⟩ := List.forall_mem_cons.mp h
        exact .more (.one hc) (ih hrest)

@[simp] theorem matches_plus_one_iff :
    Matches (plus (.one p)) w ↔ w ≠ [] ∧ ∀ c ∈ w, p c = true := by
  cases w with
  | nil => simp [plus]
  | cons c rest =>
      have hcons : Matches (plus (.one p)) (c :: rest) ↔
          p c = true ∧ ∀ d ∈ rest, p d = true := by
        constructor
        · intro h
          obtain ⟨u, v, hw, hu, hv⟩ := matches_seq_iff.mp h
          obtain ⟨d, rfl, hd⟩ := matches_one_iff.mp hu
          cases hw
          exact ⟨hd, matches_many_one_iff.mp hv⟩
        · rintro ⟨hc, hrest⟩
          exact .seq (.one hc) (matches_many_one_iff.mpr hrest)
      simp [hcons]

end Regex

end LazyLisp.Token
