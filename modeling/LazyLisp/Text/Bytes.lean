/-!
# Byte offsets in text

Text is read as a list of characters, while every position that a user
sees is a UTF-8 byte offset. This module relates the two: `byteLength` is
the number of bytes that characters take, and `beforeByte` cuts a text at
a byte offset.

## Main results

* `byteLength_append` — byte lengths add up, so the offset of a piece is
  the byte length of what stands before it.
* `byteLength_pos` — every character takes at least one byte.
* `append_inj_of_byteLength` — so a byte offset names one place of a text.
-/

namespace LazyLisp.Text

/-- The number of bytes that the characters take in UTF-8. -/
def byteLength : List Char → Nat
  | [] => 0
  | c :: rest => c.utf8Size + byteLength rest

@[simp] theorem byteLength_nil : byteLength [] = 0 := rfl

@[simp] theorem byteLength_cons (c : Char) (rest : List Char) :
    byteLength (c :: rest) = c.utf8Size + byteLength rest := rfl

@[simp] theorem byteLength_append (a b : List Char) :
    byteLength (a ++ b) = byteLength a + byteLength b := by
  induction a with
  | nil => simp
  | cons c rest ih => simp [ih, Nat.add_assoc]

theorem byteLength_pos {cs : List Char} (h : cs ≠ []) : 0 < byteLength cs := by
  cases cs with
  | nil => exact absurd rfl h
  | cons c rest =>
      have := c.utf8Size_pos
      simp only [byteLength_cons]
      omega

/-- The characters that stand whole before a byte offset. -/
def beforeByte : Nat → List Char → List Char
  | _, [] => []
  | offset, c :: rest =>
      if c.utf8Size ≤ offset then c :: beforeByte (offset - c.utf8Size) rest else []

/-- Cutting at the byte length of the first part gives that part back. -/
theorem beforeByte_byteLength (a b : List Char) :
    beforeByte (byteLength a) (a ++ b) = a := by
  induction a with
  | nil =>
      cases b with
      | nil => rfl
      | cons c rest =>
          have := c.utf8Size_pos
          simp only [byteLength_nil, List.nil_append, beforeByte]
          rw [if_neg (by omega)]
  | cons c rest ih =>
      simp [beforeByte, ih]

/-- Only one place of a text has so many bytes before it. -/
theorem append_inj_of_byteLength {a b a' b' : List Char} (h : a ++ b = a' ++ b')
    (hlength : byteLength a = byteLength a') : a = a' ∧ b = b' := by
  have hfirst : a = a' := by
    rw [← beforeByte_byteLength a b, h, hlength, beforeByte_byteLength]
  subst hfirst
  exact ⟨rfl, List.append_cancel_left h⟩

end LazyLisp.Text
