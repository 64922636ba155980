/-!
# Spans: where a piece of a program stands

A `Span` names a stretch of source text by the byte offsets of its two
ends, counted in UTF-8, the second one exclusive. Tokens carry the span
of their spelling, calls the span from their opening bracket to their
closing one, and every diagnostic is placed through one.

## Main results

* `merge_start`, `merge_stop` — two merged spans cover both: the earlier
  start and the later stop.
-/

namespace LazyLisp

/-- A stretch of source text, in UTF-8 bytes from its beginning. -/
structure Span where
  /-- Offset of the first byte. -/
  start : Nat
  /-- Offset just past the last byte. -/
  stop : Nat
deriving DecidableEq, Inhabited

namespace Span

/-- The span of calls that no source text spells: the ones built while a
program runs. -/
def nowhere : Span := ⟨0, 0⟩

/-- The smallest span that covers both, for example the one of an opening
bracket and the one of its closing bracket. -/
def merge (a b : Span) : Span := ⟨min a.start b.start, max a.stop b.stop⟩

@[simp] theorem merge_start (a b : Span) : (a.merge b).start = min a.start b.start := rfl

@[simp] theorem merge_stop (a b : Span) : (a.merge b).stop = max a.stop b.stop := rfl

/-- The text of a span in messages: both offsets with two dots between. -/
def text (s : Span) : String := s!"{s.start}..{s.stop}"

end Span

end LazyLisp
