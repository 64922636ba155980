import LazyLisp.Proofs.Brackets.Tokens

/-!
# What can still be typed

The verdict on a line is given while the line is still being typed, so it has
to say something about all lines that begin in the same way.  A scan that has
not refused any character is left with a place in or outside a string and with
the brackets that are open.  From every such state a completion can be written
down: end the string, then close the brackets, innermost first.  A scan that
has refused a character does not look at what follows.

So a line is invalid only if no continuation can be valid, and then it stays
invalid for the same reason.

## Main results

* `verdictFrom_completion` — every state of the scan has a completion.
* `verdict_append_cases` — a text is refused for good, or it can be completed.
* `verdict_continuations` — what each verdict says about the continuations of a
  text.
-/

namespace LazyLisp.Brackets

/-! ## Completions -/

/-- What ends the string that a scan is in; after a backslash the first quote is
escaped. -/
def Quoting.ending : Quoting → List Char
  | .outside => []
  | .inside => ['"']
  | .escaped => ['"', '"']

/-- What is missing to the text before: the end of the string and the closing
brackets. -/
def completion (q : Quoting) (stack : List Shape) : List Char :=
  q.ending ++ stack.map Shape.closing

private theorem Quoting.passes_ending (q : Quoting) : Passes true q q.ending .outside := by
  cases q with
  | outside => exact .nil _
  | inside => exact .cons rfl (.nil _)
  | escaped => exact .cons rfl (.cons rfl (.nil _))

private theorem verdictFrom_closings (stack : List Shape) (place : Nat) :
    verdictFrom .outside (stack.map Shape.opening) place (stack.map Shape.closing) = .valid := by
  induction stack generalizing place with
  | nil => rfl
  | cons inner around ih =>
      have hclosing := verdictFrom_closing inner (inner :: around) place (around.map Shape.closing)
      rw [if_pos List.head?_cons] at hclosing
      exact hclosing.trans (ih (place + 1))

/-- Every state of the scan has a completion. -/
theorem verdictFrom_completion (q : Quoting) (stack : List Shape) (place : Nat) :
    verdictFrom q (stack.map Shape.opening) place (completion q stack) = .valid := by
  rw [completion, verdictFrom_passes q.passes_ending]
  exact verdictFrom_closings stack _

/-! ## Refused or open -/

/-- The scan refuses the text, or a character of it, whatever follows. -/
def Refuses (q : Quoting) (stack : List Shape) (place : Nat) (cs : List Char) (c : Char)
    (i : Nat) : Prop :=
  ∀ t, verdictFrom q (stack.map Shape.opening) place (cs ++ t) = .invalid c i

/-- The scan goes over the text and leaves it in another state, whatever
follows. -/
def Leads (q : Quoting) (stack : List Shape) (place : Nat) (cs : List Char) (q' : Quoting)
    (stack' : List Shape) : Prop :=
  ∀ t, verdictFrom q (stack.map Shape.opening) place (cs ++ t) =
    verdictFrom q' (stack'.map Shape.opening) (place + cs.length) t

section Step

variable {q q' : Quoting} {stack stack' : List Shape} {place : Nat} {c : Char}

private theorem exists_shape_of_isOpening (h : isOpening c = true) :
    ∃ shape : Shape, c = shape.opening := by
  simp only [isOpening, Bool.or_eq_true, beq_iff_eq] at h
  rcases h with rfl | rfl
  · exact ⟨.round, rfl⟩
  · exact ⟨.square, rfl⟩

private theorem exists_shape_of_isClosing (h : isClosing c = true) :
    ∃ shape : Shape, c = shape.closing := by
  simp only [isClosing, Bool.or_eq_true, beq_iff_eq] at h
  rcases h with rfl | rfl
  · exact ⟨.round, rfl⟩
  · exact ⟨.square, rfl⟩

/-- One character is refused, if it is a closing bracket, or it leads to another
state. -/
theorem refuses_or_leads_singleton (q : Quoting) (stack : List Shape) (place : Nat) (c : Char) :
    (isClosing c = true ∧ Refuses q stack place [c] c place) ∨
      ∃ q' stack', Leads q stack place [c] q' stack' := by
  by_cases hstring : (q.feed c).1 = true
  · have hpasses : Quoting.Passes true q [c] (q.feed c).2 :=
      .cons (Prod.ext hstring rfl) (.nil _)
    exact .inr ⟨_, stack, fun t => verdictFrom_passes hpasses _ _ t⟩
  · obtain ⟨rfl, hquote⟩ : q = .outside ∧ c ≠ '"' := by
      cases q with
      | outside => exact ⟨rfl, fun h => hstring (by rw [h]; rfl)⟩
      | inside | escaped => exact absurd rfl hstring
    by_cases hopening : isOpening c = true
    · obtain ⟨shape, rfl⟩ := exists_shape_of_isOpening hopening
      exact .inr ⟨.outside, shape :: stack, fun t => verdictFrom_opening shape _ place t⟩
    · by_cases hclosing : isClosing c = true
      · obtain ⟨shape, rfl⟩ := exists_shape_of_isClosing hclosing
        by_cases hhead : stack.head? = some shape
        · refine .inr ⟨.outside, stack.tail, fun t => ?_⟩
          exact (verdictFrom_closing shape stack place t).trans (if_pos hhead)
        · refine .inl ⟨hclosing, fun t => ?_⟩
          exact (verdictFrom_closing shape stack place t).trans (if_neg hhead)
      · have hplain : ∀ d ∈ [c], isDelimiter d = false := by
          simp [isDelimiter, hopening, hclosing, hquote]
        exact .inr ⟨.outside, stack, fun t => verdictFrom_plain hplain _ place t⟩

/-- A text is refused for one of its closing brackets, or it leads to another
state. -/
theorem refuses_or_leads (q : Quoting) (stack : List Shape) (place : Nat) (cs : List Char) :
    (∃ c ∈ cs, isClosing c = true ∧ ∃ i, Refuses q stack place cs c i) ∨
      ∃ q' stack', Leads q stack place cs q' stack' := by
  induction cs generalizing q stack place with
  | nil => exact .inr ⟨q, stack, fun _ => rfl⟩
  | cons c rest ih =>
      rcases refuses_or_leads_singleton q stack place c with ⟨hc, hrefuses⟩ | ⟨q', stack', hleads⟩
      · exact .inl ⟨c, List.mem_cons_self, hc, place, fun t => hrefuses (rest ++ t)⟩
      · rcases ih q' stack' (place + 1) with ⟨d, hd, hclosing, i, hrefuses⟩ | ⟨q'', stack'', hmore⟩
        · exact .inl ⟨d, List.mem_cons_of_mem c hd, hclosing, i,
            fun t => (hleads (rest ++ t)).trans (hrefuses t)⟩
        · refine .inr ⟨q'', stack'', fun t => ((hleads (rest ++ t)).trans (hmore t)).trans ?_⟩
          rw [List.length_cons, Nat.add_assoc, Nat.add_comm 1]

/-- A text that leads to another state has not been refused. -/
theorem Leads.ne_invalid {cs : List Char} (h : Leads q stack place cs q' stack') (c : Char)
    (i : Nat) : verdictFrom q (stack.map Shape.opening) place cs ≠ .invalid c i := by
  have hend := h []
  rw [List.append_nil, verdictFrom] at hend
  rw [hend]
  intro hinvalid
  split at hinvalid <;> cases hinvalid

end Step

/-- A text is refused for good, or it is not refused and can be completed. -/
theorem verdict_append_cases (s : List Char) :
    (∃ c i, ∀ t, verdict (s ++ t) = .invalid c i) ∨
      (∀ c i, verdict s ≠ .invalid c i) ∧ ∃ t, verdict (s ++ t) = .valid := by
  rcases refuses_or_leads .outside [] 0 s with ⟨c, -, -, i, hrefuses⟩ | ⟨q, stack, hleads⟩
  · exact .inl ⟨c, i, hrefuses⟩
  · exact .inr ⟨hleads.ne_invalid, completion q stack,
      (hleads _).trans (verdictFrom_completion q stack _)⟩

/-- A text that is invalid stays so whatever follows. -/
theorem verdict_append_of_invalid {s : List Char} {c : Char} {i : Nat}
    (h : verdict s = .invalid c i) (t : List Char) : verdict (s ++ t) = .invalid c i := by
  rcases verdict_append_cases s with ⟨d, j, hrefused⟩ | ⟨hnot, -⟩
  · have hhere := hrefused []
    rw [List.append_nil, h] at hhere
    rw [hrefused t, hhere]
  · exact absurd h (hnot c i)

/-- Only a closing bracket is refused, and so it is not a text without them
that makes a longer one invalid. -/
theorem verdict_of_append_invalid {s w : List Char} {c : Char} {i : Nat}
    (h : verdict (s ++ w) = .invalid c i) (hw : ∀ d ∈ w, isClosing d = false) :
    verdict s = .invalid c i := by
  rcases refuses_or_leads .outside [] 0 s with ⟨d, -, -, j, hrefuses⟩ | ⟨q, stack, hleads⟩
  · have hhere := hrefuses []
    rw [List.append_nil] at hhere
    exact hhere.trans ((hrefuses w).symm.trans h)
  · rcases refuses_or_leads q stack (0 + s.length) w with ⟨d, hd, hclosing, -⟩ | ⟨_, _, hmore⟩
    · rw [hw d hd] at hclosing
      cases hclosing
    · exact absurd ((hleads w).symm.trans h) (hmore.ne_invalid c i)

/-- A text is invalid if and only if no continuation of it is valid; then all
continuations are invalid, because of the same bracket at the same place.  A text
is incomplete if and only if it is not valid and a continuation of it is. -/
theorem verdict_continuations (s : List Char) :
    ((∃ c i, verdict s = .invalid c i) ↔ ∀ t, verdict (s ++ t) ≠ .valid) ∧
    (∀ c i, verdict s = .invalid c i → ∀ t, verdict (s ++ t) = .invalid c i ∧
      (verdict (s ++ t)).message? = (verdict s).message?) ∧
    (verdict s = .incomplete ↔ verdict s ≠ .valid ∧ ∃ t, verdict (s ++ t) = .valid) := by
  refine ⟨⟨?_, fun hnone => ?_⟩, fun c i h t => ?_, ⟨fun h => ?_, ?_⟩⟩
  · rintro ⟨c, i, h⟩ t hvalid
    rw [verdict_append_of_invalid h t] at hvalid
    cases hvalid
  · rcases verdict_append_cases s with ⟨c, i, hrefused⟩ | ⟨-, t, hvalid⟩
    · have hhere := hrefused []
      rw [List.append_nil] at hhere
      exact ⟨c, i, hhere⟩
    · exact absurd hvalid (hnone t)
  · have hlonger := verdict_append_of_invalid h t
    exact ⟨hlonger, by rw [hlonger, h]⟩
  · rcases verdict_append_cases s with ⟨c, i, hrefused⟩ | ⟨-, hcompletion⟩
    · have hhere := hrefused []
      rw [List.append_nil, h] at hhere
      cases hhere
    · exact ⟨by rw [h]; nofun, hcompletion⟩
  · rintro ⟨hnot, t, hvalid⟩
    cases hs : verdict s with
    | valid => exact absurd hs hnot
    | invalid c i =>
        rw [verdict_append_of_invalid hs t] at hvalid
        cases hvalid
    | incomplete => rfl

/-- The closing bracket in the string does not count, and the one behind it
clashes, also with a bracket more; the string alone is open, right after a
backslash. -/
theorem verdict_continuations_clash :
    verdict "(\"é)\"]".toList = .invalid ']' 5 ∧
    verdict ("(\"é)\"]".toList ++ [')']) = .invalid ']' 5 ∧
    verdict "(\"é)\\".toList = .incomplete ∧
      ∃ t, verdict ("(\"é)\\".toList ++ t) = .valid := by
  have hclash : verdict "(\"é)\"]".toList = .invalid ']' 5 := by decide
  have hopen : verdict "(\"é)\\".toList = .incomplete := by decide
  obtain ⟨-, hrefused, -⟩ := verdict_continuations "(\"é)\"]".toList
  obtain ⟨-, -, hcompleted⟩ := verdict_continuations "(\"é)\\".toList
  exact ⟨hclash, (hrefused _ _ hclash [')']).1, hopen, (hcompleted.mp hopen).2⟩

end LazyLisp.Brackets
