import LazyLisp.Proofs.FailurePlaces
import LazyLisp.Proofs.Positions

/-!
# The place that a report shows

Spans count bytes, and a report looks for its place by counting as many
characters.  A span starts and ends where characters of the program do,
whether it is one of a token, of a call, or of the end of the program; so the
place that is meant is always the one of a character, and it is shown if
bytes and characters are the same up to there.

If they are not, another place is shown, or none where the program has fewer
characters than its span counts.

## Main results

* `Program.covers_of_run_failed` — the span of an error covers whole
  characters of the program.
* `report_location_iff` — when the report shows the place that the span means.
* `location_of_accent` — a report that does not.
-/

namespace LazyLisp

namespace Text

/-! ## Offsets of characters -/

/-- A character of the text starts at the byte offset, or the text ends
there. -/
def Boundary (cs : List Char) (offset : Nat) : Prop :=
  ∃ before after, cs = before ++ after ∧ byteLength before = offset

/-- A text has no fewer bytes than characters. -/
theorem length_le_byteLength (cs : List Char) : cs.length ≤ byteLength cs := by
  induction cs with
  | nil => exact Nat.le_refl 0
  | cons c rest ih =>
      have hpos := c.utf8Size_pos
      simp only [List.length_cons, byteLength_cons]
      omega

/-- A text has as many bytes as characters if each character is one byte. -/
theorem byteLength_eq_length_iff {cs : List Char} :
    byteLength cs = cs.length ↔ ∀ c ∈ cs, c.utf8Size = 1 := by
  induction cs with
  | nil => simp
  | cons c rest ih =>
      have hpos := c.utf8Size_pos
      have hle := length_le_byteLength rest
      rw [List.forall_mem_cons, ← ih, byteLength_cons, List.length_cons]
      omega

end Text

namespace Span

/-- The span covers whole characters of the text. -/
structure Covers (s : Span) (cs : List Char) : Prop where
  start : Text.Boundary cs s.start
  stop : Text.Boundary cs s.stop
  start_le : s.start ≤ s.stop

section Covers

variable {cs before piece after : List Char} {s t : Span}

/-- The offsets of a piece cover it. -/
theorem covers_of_append (h : cs = before ++ piece ++ after) :
    (Span.mk (Text.byteLength before) (Text.byteLength (before ++ piece))).Covers cs where
  start := ⟨before, piece ++ after, by rw [h, List.append_assoc], rfl⟩
  stop := ⟨before ++ piece, after, h, rfl⟩
  start_le := by
    rw [Text.byteLength_append]
    exact Nat.le_add_right _ _

/-- What a span covers stands between the two offsets. -/
theorem Covers.exists_piece (h : s.Covers cs) :
    ∃ before piece after, cs = before ++ piece ++ after ∧
      s = ⟨Text.byteLength before, Text.byteLength (before ++ piece)⟩ := by
  obtain ⟨before, rest, hstart, hfirst⟩ := h.start
  obtain ⟨upto, after, hstop, hlast⟩ := h.stop
  have hle := h.start_le
  rcases List.append_eq_append_iff.mp (hstart.symm.trans hstop) with
    ⟨piece, rfl, -⟩ | ⟨piece, rfl, -⟩
  · refine ⟨before, piece, after, hstop, ?_⟩
    rw [hfirst, hlast]
  · -- the end would stand before the start, unless there is nothing between
    rw [← hfirst, ← hlast, Text.byteLength_append] at hle
    have hpiece : piece = [] := by
      cases piece with
      | nil => rfl
      | cons c more =>
          have hpos := Text.byteLength_pos (List.cons_ne_nil c more)
          omega
    subst hpiece
    rw [List.append_nil] at hfirst
    refine ⟨upto, [], after, by rw [List.append_nil, hstop], ?_⟩
    cases s
    cases hfirst
    cases hlast
    rw [List.append_nil]

private theorem Covers.merge (h : s.Covers cs) (h' : t.Covers cs) : (s.merge t).Covers cs where
  start := by
    rw [merge_start, Nat.min_def]
    split
    · exact h.start
    · exact h'.start
  stop := by
    rw [merge_stop, Nat.max_def]
    split
    · exact h'.stop
    · exact h.stop
  start_le := by
    have hle := h.start_le
    rw [merge_start, merge_stop]
    omega

end Covers

end Span

/-! ## Errors of the reader -/

namespace Token

/-- The span of every token covers a piece of the text. -/
theorem covers_of_tokenize {source : String} {tokens : List Token}
    (h : tokenize source = .ok tokens) : ∀ t ∈ tokens, t.span.Covers source.toList := by
  intro t ht
  obtain ⟨stop, hcut⟩ := scan_eq_ok_iff.mp h
  obtain ⟨before, piece, after, htext, -, hstart, hstop⟩ := (hcut.laid rfl).boundaries t ht
  have hcovers := Span.covers_of_append htext
  rwa [Text.byteLength_append, ← Nat.zero_add (Text.byteLength before), ← hstart, ← hstop]
    at hcovers

private theorem covers_of_tokenize_error {source : String} {e : Error}
    (h : tokenize source = .error e) : e.span.Covers source.toList := by
  obtain ⟨ts, stop, left, hcut, hstuck⟩ := scan_eq_error_iff.mp h
  obtain ⟨before, htext, hstop⟩ := hcut.exists_before
  rw [Nat.zero_add] at hstop
  subst hstop
  cases hstuck with
  | @invalid _ c rest _ =>
      have hsplit : source.toList = before ++ [c] ++ rest := by rw [htext, List.append_assoc]; rfl
      have hcovers := Span.covers_of_append hsplit
      rwa [Text.byteLength_append] at hcovers
  | @fault _ _ piece rest _ _ _ =>
      have hsplit : source.toList = before ++ piece ++ rest := by rw [htext, List.append_assoc]
      have hcovers := Span.covers_of_append hsplit
      rwa [Text.byteLength_append] at hcovers

end Token

namespace Reader

/-- The reader refuses one of the tokens, or misses one at their end. -/
theorem exists_of_readUnder_error {stack : List Open} {tokens : List Token} {e : Error}
    (h : readUnder stack tokens = .error e) :
    (∃ expected, e = .unexpectedEnd expected) ∨
      ∃ t ∈ tokens, ∃ expected, e = .unexpectedToken t expected := by
  fun_induction readUnder stack tokens with
  | case1 | case2 =>
      cases h
      exact .inl ⟨_, rfl⟩
  | case3 stack t rest bracket _ ih | case5 stack t rest form innermost around _ ih =>
      rcases ih h with hend | ⟨u, hu, hrefused⟩
      · exact .inl hend
      · exact .inr ⟨u, List.mem_cons_of_mem t hu, hrefused⟩
  | case4 => cases h
  | case6 stack t rest expected _ =>
      cases h
      exact .inr ⟨t, List.mem_cons_self, _, rfl⟩

private theorem exists_of_readAll_error {tokens : List Token} {e : Error}
    (h : readAll tokens = .error e) :
    (∃ expected, e = .unexpectedEnd expected) ∨
      ∃ t ∈ tokens, ∃ expected, e = .unexpectedToken t expected := by
  unfold readAll at h
  split at h
  · rename_i hnext
    cases h
    exact exists_of_readUnder_error hnext
  · cases h
  · rename_i form t rest hnext
    cases h
    obtain ⟨w, -, rfl⟩ := exists_derives_of_next hnext
    exact .inr ⟨t, by simp, _, rfl⟩

/-- An error of the reader is placed at a token, at a piece that is none, or
behind the last character. -/
theorem covers_of_read_error {source : String} {e : Error} (h : read source = .error e) :
    (e.span source.utf8ByteSize).Covers source.toList := by
  unfold read at h
  split at h
  · rename_i htokens
    cases h
    exact Token.covers_of_tokenize_error htokens
  · rename_i tokens htokens
    rcases exists_of_readAll_error h with ⟨expected, rfl⟩ | ⟨t, ht, expected, rfl⟩
    · have hend : source.toList = source.toList ++ [] ++ [] := by simp
      have hcovers := Span.covers_of_append hend
      rwa [List.append_nil, Text.byteLength_toList] at hcovers
    · exact Token.covers_of_tokenize htokens t ht

/-- A call that occurs in a form that was read covers the characters from its
opening bracket to its closing one. -/
theorem covers_of_occursIn {source : String} {form callee : Value} {args : List Value}
    {span : Span} (h : read source = .ok form)
    (hcall : (Value.call callee args span).OccursIn form) : span.Covers source.toList := by
  obtain ⟨tokens, htokens, s, hs, t, ht, rfl⟩ := exists_tokens_of_occursIn h hcall
  have hcovers := Token.covers_of_tokenize htokens
  exact (hcovers s hs).merge (hcovers t ht)

end Reader

/-! ## Errors of programs -/

namespace Program

/-- The span of an error covers whole characters of the program. -/
theorem covers_of_run_failed {fuel steps : Nat} {source : String} {scope : Scope} {σ τ : Store}
    {e : Error} (hprelude : Prelude.openGlobal fuel true .empty = .done scope σ)
    (hrun : run steps source scope σ = .failed e τ) :
    (Diagnostic.ofError source.utf8ByteSize e).span.Covers source.toList := by
  cases e with
  | unreadable e =>
      have hread : Reader.read source = .error e := by
        unfold run at hrun
        split at hrun
        · rename_i hread
          cases hrun
          exact hread
        · rename_i form hread
          cases heval : Evaluation.evaluate steps form scope σ <;> rw [heval] at hrun <;>
            cases hrun
      exact Reader.covers_of_read_error hread
  | failed f =>
      obtain ⟨-, -, rfl⟩ := Prelude.openGlobal_empty_eq_done_iff.mp hprelude
      obtain ⟨form, hread, heval⟩ := exists_of_run_failed hrun
      have hspelled : form.Spelled form.HasCallAt := (Reader.written_of_read hread).spelled
      have hloaded : Prelude.loaded.All (Value.Everywhere (Value.Placed form.HasCallAt)) :=
        Prelude.holds_loaded fun _ body hbody =>
          .intro hbody (List.forall_mem_singleton.mpr hbody.placed)
      obtain ⟨-, hcalls⟩ := evaluate_failed_place hloaded hspelled heval
      have hwhole : (Span.mk 0 source.utf8ByteSize).Covers source.toList := by
        have hsplit : source.toList = [] ++ source.toList ++ [] := by simp
        have hcovers := Span.covers_of_append hsplit
        rwa [List.nil_append, Text.byteLength_nil, Text.byteLength_toList] at hcovers
      show (Diagnostic.reportSpan source.utf8ByteSize f).Covers source.toList
      unfold Diagnostic.reportSpan
      split
      · rename_i c hc
        obtain ⟨callee, args, hcall⟩ := hcalls c hc
        split
        · exact Reader.covers_of_occursIn hread hcall
        · exact hwhole
      · exact hwhole

end Program

/-! ## Places of reports -/

namespace Diagnostic

/-- The place of the first character that the span covers is shown if all
characters before it are single bytes, and the span does not count past the
end of the program. -/
theorem location_eq_some_iff {name : String} {source before piece after : List Char}
    {d : Diagnostic} (hsource : source = before ++ piece ++ after)
    (hspan : d.span = ⟨Text.byteLength before, Text.byteLength (before ++ piece)⟩) :
    (report name source d).location =
        some ((Text.position source before.length).text name) ↔
      (∀ c ∈ before, c.utf8Size = 1) ∧
        (piece = [] ∨ Text.byteLength (before ++ piece) ≤ source.length + 1) := by
  have hlength : before.length ≤ source.length := by
    rw [hsource, List.append_assoc, List.length_append]
    exact Nat.le_add_right _ _
  have hempty : Text.byteLength (before ++ piece) ≤ Text.byteLength before ↔ piece = [] := by
    rw [Text.byteLength_append]
    constructor
    · intro hle
      cases piece with
      | nil => rfl
      | cons c more =>
          have hpos := Text.byteLength_pos (List.cons_ne_nil c more)
          omega
    · rintro rfl
      exact Nat.le_refl _
  have hwithin : isWithin source.length d.span = true ↔
      Text.byteLength before ≤ source.length ∧
        (piece = [] ∨ Text.byteLength (before ++ piece) ≤ source.length + 1) := by
    simp only [isWithin, hspan, Bool.and_eq_true, Bool.or_eq_true, decide_eq_true_eq, hempty,
      Nat.sub_le_iff_le_add]
  rw [← Text.byteLength_eq_length_iff]
  unfold report
  split
  · rename_i hinside
    rw [Option.some.injEq, hspan, placeText_eq_iff]
    exact ⟨fun h => ⟨h, (hwithin.mp hinside).2⟩, fun h => h.1⟩
  · rename_i houtside
    refine ⟨nofun, fun ⟨hbytes, hstop⟩ => absurd (hwithin.mpr ⟨?_, hstop⟩) houtside⟩
    rw [hbytes]
    exact hlength

end Diagnostic

/-- The report on a program that fails shows the line and column of the character
at which the error's span starts, if all characters before it are single bytes
and the span's end is no further than the program has characters; in all other
cases it does not.  A program of single bytes always gets the right place. -/
theorem report_location_iff {fuel steps : Nat} {name source : String} {scope : Scope}
    {σ τ : Store} {e : Program.Error}
    (hprelude : Prelude.openGlobal fuel true .empty = .done scope σ)
    (hrun : Program.run steps source scope σ = .failed e τ) :
    ∃ before piece after, source.toList = before ++ piece ++ after ∧
      (Diagnostic.ofError source.utf8ByteSize e).span =
        ⟨Text.byteLength before, Text.byteLength (before ++ piece)⟩ ∧
      ((Diagnostic.report name source.toList (.ofError source.utf8ByteSize e)).location =
          some ((Text.position source.toList before.length).text name) ↔
        (∀ c ∈ before, c.utf8Size = 1) ∧
          (piece = [] ∨ Text.byteLength (before ++ piece) ≤ source.toList.length + 1)) ∧
      ((∀ c ∈ source.toList, c.utf8Size = 1) →
        (Diagnostic.report name source.toList (.ofError source.utf8ByteSize e)).location =
          some ((Text.position source.toList before.length).text name)) := by
  have hcovers := Program.covers_of_run_failed hprelude hrun
  obtain ⟨before, piece, after, hsource, hspan⟩ := hcovers.exists_piece
  have hiff := @Diagnostic.location_eq_some_iff name _ _ _ _ _ hsource hspan
  refine ⟨before, piece, after, hsource, hspan, hiff, fun hbytes => hiff.mpr ⟨?_, .inr ?_⟩⟩
  · intro c hc
    exact hbytes c (by simp [hsource, hc])
  · have hsingle := Text.byteLength_eq_length_iff.mpr hbytes
    rw [hsource, Text.byteLength_append, List.length_append] at hsingle
    have hle := Text.length_le_byteLength after
    rw [hsource, List.length_append]
    omega

/-- The call stands in the second line, after a line end of two characters. -/
theorem report_location_iff_return :
    Prelude.openGlobal 4 true .empty = .done (.global 0) Prelude.loaded ∧
    ∃ e τ, Program.run 3 "(do \"a\"\r\n (first 1))" (.global 0) Prelude.loaded =
        .failed e τ ∧
      ∃ before rest, "(do \"a\"\r\n (first 1))".toList = before ++ rest ∧
        Text.byteLength before = 10 ∧
        (Diagnostic.report "test" "(do \"a\"\r\n (first 1))".toList (.ofError 20 e)).location =
          some ((Text.position "(do \"a\"\r\n (first 1))".toList before.length).text "test") := by
  have hprelude : Prelude.openGlobal 4 true .empty = .done (.global 0) Prelude.loaded :=
    Prelude.openGlobal_empty_eq_done_iff.mpr ⟨Nat.le_refl 4, rfl, rfl⟩
  have hread : Reader.read "(do \"a\"\r\n (first 1))" =
      .ok (.call (.symbol "do") [.string "a", .call (.symbol "first") [.integer 1] ⟨10, 19⟩]
        ⟨0, 20⟩) := by
    with_unfolding_all rfl
  obtain ⟨τ, hrun⟩ : ∃ τ, Program.run 3 "(do \"a\"\r\n (first 1))" (.global 0) Prelude.loaded =
      .failed (.failed ⟨.notPair .first .integer, some ⟨"first", [.integer 1], ⟨10, 19⟩⟩⟩) τ := by
    simp only [Program.run, hread]
    exact ⟨_, rfl⟩
  obtain ⟨before, piece, after, hsource, hspan, -, hbytes⟩ :=
    @report_location_iff 4 3 "test" _ _ _ _ _ hprelude hrun
  have hsingle := hbytes (Text.byteLength_eq_length_iff.mp rfl)
  refine ⟨hprelude, _, τ, hrun, before, piece ++ after, ?_, ?_, hsingle⟩
  · rw [hsource, List.append_assoc]
  · exact (congrArg Span.start hspan).symm

/-- The letter in the string takes two bytes, and the report shows the place
behind the one of the call. -/
theorem location_of_accent :
    Prelude.openGlobal 4 true .empty = .done (.global 0) Prelude.loaded ∧
    ∃ e τ, Program.run 3 "(do \"é\" (first 1))" (.global 0) Prelude.loaded = .failed e τ ∧
      ∃ before rest, "(do \"é\" (first 1))".toList = before ++ rest ∧
        Text.byteLength before =
          (Diagnostic.ofError "(do \"é\" (first 1))".utf8ByteSize e).span.start ∧
        (Text.position "(do \"é\" (first 1))".toList before.length).text "test" = "test:1:9" ∧
        (Diagnostic.report "test" "(do \"é\" (first 1))".toList
          (.ofError "(do \"é\" (first 1))".utf8ByteSize e)).location = some "test:1:10" := by
  have hprelude : Prelude.openGlobal 4 true .empty = .done (.global 0) Prelude.loaded :=
    Prelude.openGlobal_empty_eq_done_iff.mpr ⟨Nat.le_refl 4, rfl, rfl⟩
  have hread : Reader.read "(do \"é\" (first 1))" =
      .ok (.call (.symbol "do") [.string "é", .call (.symbol "first") [.integer 1] ⟨9, 18⟩]
        ⟨0, 19⟩) := by
    with_unfolding_all rfl
  obtain ⟨τ, hrun⟩ : ∃ τ, Program.run 3 "(do \"é\" (first 1))" (.global 0) Prelude.loaded =
      .failed (.failed ⟨.notPair .first .integer, some ⟨"first", [.integer 1], ⟨9, 18⟩⟩⟩) τ := by
    simp only [Program.run, hread]
    exact ⟨_, rfl⟩
  exact ⟨hprelude, _, τ, hrun, "(do \"é\" ".toList, "(first 1))".toList, rfl, rfl, rfl, rfl⟩

end LazyLisp
