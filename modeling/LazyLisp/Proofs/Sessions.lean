import LazyLisp.Interactive
import LazyLisp.Proofs.Brackets.Continuations

/-!
# Sessions

A session judges every text that its line reader gives, so that what it accepts
has balanced brackets whatever the reader does.  What an invalid text means for
the lines after it is up to the reader.  One that only appends cannot take the
bracket back that nothing matches: it may drop line ends, but no bracket is lost
with them, and a continuation of an invalid text is invalid.  Then the session
accepts nothing any more, and runs nothing.  A reader with a key that deletes a
character is not of this kind.

## Main results

* `accepted_valid` — what a session accepts is valid, for every reader.
* `foldl_feed_invalid` — no input repairs an invalid text, for a reader that only
  appends.
* `LineReader.appends_plain` — the plain reader only appends.
-/

namespace LazyLisp.Interactive

open Brackets

/-! ## What is accepted -/

private theorem mem_remember {text known : String} {accepted : List String}
    (h : known ∈ remember text accepted) : known = text ∨ known ∈ accepted := by
  unfold remember at h
  split at h
  · exact .inr h
  · exact List.mem_cons.mp h

private theorem runText_accepted (s : Session) (source : String) :
    (runText s source).accepted = s.accepted := by
  unfold runText
  split <;> rfl

private theorem submit_accepted (s : Session) (text : String) :
    (submit s text).accepted = remember text s.accepted := by
  unfold submit
  dsimp only
  split
  · rfl
  · split
    · rfl
    · exact runText_accepted _ _

/-- The session has accepted valid texts only. -/
def AcceptedValid (s : Session) : Prop := ∀ text ∈ s.accepted, verdict text.toList = .valid

private theorem acceptedValid_start (hasHistory : Bool) : AcceptedValid (start hasHistory) := by
  unfold start
  dsimp only
  split <;> nofun

/-- Only a text that was judged valid gets into the memory of a session. -/
theorem AcceptedValid.feed {s : Session} (h : AcceptedValid s) (reader : LineReader)
    (line : ByteArray) : AcceptedValid (feed reader s line) := by
  unfold Interactive.feed
  split
  · exact h
  · split
    · exact h
    · dsimp only
      split
      · rename_i hvalid
        intro text htext
        rw [submit_accepted] at htext
        rcases mem_remember htext with rfl | hknown
        · exact hvalid
        · exact h text hknown
      · exact h
      · exact h

private theorem AcceptedValid.foldl {s : Session} (h : AcceptedValid s) (reader : LineReader)
    (lines : List (List UInt8)) :
    AcceptedValid (lines.foldl (fun s line => Interactive.feed reader s ⟨line.toArray⟩) s) := by
  induction lines generalizing s with
  | nil => exact h
  | cons line rest ih => exact ih (h.feed reader _)

/-- Whatever the reader does, a session accepts only texts whose brackets are
balanced. -/
theorem accepted_valid (reader : LineReader) (hasHistory : Bool) (input : ByteArray) :
    AcceptedValid (session reader hasHistory input) := by
  have hread := (acceptedValid_start hasHistory).foldl reader (splitLines [] input.toList)
  unfold session finish
  split
  · exact hread
  · exact hread

/-! ## Readers that only append -/

/-- A reader that only appends puts what is typed behind what is kept, and it
drops nothing but line ends. -/
def LineReader.Appends (reader : LineReader) : Prop :=
  ∀ kept typed, ∃ dropped,
    (kept ++ typed).toList = (reader.read kept typed).text.toList ++ dropped ∧
      ∀ c ∈ dropped, c = '\r' ∨ c = '\n'

private theorem toList_eq_of_reverse {text : String} {dropped rest : List Char}
    (h : text.toList.reverse = dropped.reverse ++ rest) :
    text.toList = (String.ofList rest.reverse).toList ++ dropped := by
  rw [String.toList_ofList, ← List.reverse_reverse text.toList, h, List.reverse_append,
    List.reverse_reverse]

/-- The plain reader only appends. -/
theorem LineReader.appends_plain : LineReader.plain.Appends := by
  intro kept typed
  change ∃ dropped, _ = (chomp (kept ++ typed)).text.toList ++ dropped ∧ _
  generalize kept ++ typed = whole
  unfold chomp
  split
  · rename_i rest hreverse
    exact ⟨['\r', '\n'], toList_eq_of_reverse hreverse, by simp⟩
  · rename_i rest _ hreverse
    exact ⟨['\n'], toList_eq_of_reverse hreverse, by simp⟩
  · exact ⟨[], (List.append_nil _).symm, nofun⟩

section Invalid

variable {reader : LineReader} {s : Session} {c : Char} {i : Nat}

/-- The text that such a reader makes of an invalid one is invalid, for the same
bracket at the same place: a line end holds no bracket. -/
theorem LineReader.Appends.read_invalid (hreader : reader.Appends) {kept : String}
    (h : verdict kept.toList = .invalid c i) (typed : String) :
    verdict (reader.read kept typed).text.toList = .invalid c i := by
  obtain ⟨dropped, hwhole, hdropped⟩ := hreader kept typed
  have hlonger := verdict_append_of_invalid h typed.toList
  rw [← String.toList_append, hwhole] at hlonger
  refine verdict_of_append_invalid hlonger fun d hd => ?_
  rcases hdropped d hd with rfl | rfl <;> rfl

/-- A line that is typed after an invalid text is not accepted, and nothing is
run. -/
theorem feed_invalid (hreader : reader.Appends) (h : verdict s.pending.toList = .invalid c i)
    (line : ByteArray) :
    verdict (feed reader s line).pending.toList = .invalid c i ∧
      (feed reader s line).accepted = s.accepted ∧ (feed reader s line).store = s.store := by
  unfold feed
  split
  · exact ⟨h, rfl, rfl⟩
  · split
    · exact ⟨h, rfl, rfl⟩
    · rename_i typed _
      have hwhole := hreader.read_invalid h typed
      simp only [hwhole]
      exact ⟨hwhole, rfl, rfl⟩

/-- No input repairs an invalid text. -/
theorem foldl_feed_invalid (hreader : reader.Appends)
    (h : verdict s.pending.toList = .invalid c i) (lines : List ByteArray) :
    verdict (lines.foldl (feed reader) s).pending.toList = .invalid c i ∧
      (lines.foldl (feed reader) s).accepted = s.accepted ∧
        (lines.foldl (feed reader) s).store = s.store := by
  induction lines generalizing s with
  | nil => exact ⟨h, rfl, rfl⟩
  | cons line rest ih =>
      obtain ⟨hpending, haccepted, hstore⟩ := feed_invalid hreader h line
      obtain ⟨hlater, haccepted', hstore'⟩ := ih hpending
      exact ⟨hlater, haccepted'.trans haccepted, hstore'.trans hstore⟩

end Invalid

end LazyLisp.Interactive
