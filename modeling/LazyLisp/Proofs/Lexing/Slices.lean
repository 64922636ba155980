import LazyLisp.Proofs.Lexing.MaximalMunch

/-!
# Slices of a text

A stretch of a text from the beginning of one token to the end of another is
cut into the same pieces as within the text.  The longest match at a place is
longest among the prefixes of what follows, and a text that ends earlier has
fewer of them; so a piece that fits stays the longest.  Only the places of the
tokens are others, as they count from the beginning of the slice.

## Main results

* `Cut.exists_token` — the first token of a text is a piece behind a gap.
* `Cut.truncate` — a text that ends where a cut does is cut in the same way.
* `Cut.mapPlaces`, `scan_add` — the tokens of a text move with it, and so does
  its error.
* `Cut.exists_piece` — every token has a piece of the text that it is cut from.
* `Cut.exists_slice` — the stretch from one token to another, on its own.
-/

namespace LazyLisp

/-! ## Other places -/

/-- The span with both offsets changed. -/
def Span.map (g : Nat → Nat) (s : Span) : Span := ⟨g s.start, g s.stop⟩

/-- The token at another place. -/
def Token.mapPlaces (g : Nat → Nat) (t : Token) : Token := ⟨t.kind, t.span.map g⟩

@[simp] theorem Token.span_mapPlaces (g : Nat → Nat) (t : Token) :
    (t.mapPlaces g).span = t.span.map g := rfl

namespace Token

/-- The error at another place. -/
def Error.mapPlaces (g : Nat → Nat) (e : Error) : Error := ⟨e.fault, e.span.map g⟩

/-- What a scan answers for a text that begins so many bytes later. -/
def moved (n : Nat) : Except Error (List Token) → Except Error (List Token)
  | .ok ts => .ok (ts.map (Token.mapPlaces (n + ·)))
  | .error e => .error (e.mapPlaces (n + ·))

section Cut

variable {offset stop : Nat} {text left : List Char} {ts us : List Token} {t : Token}

/-- The tokens of a text move with it. -/
theorem Cut.mapPlaces {g : Nat → Nat} (h : Cut offset text ts stop left)
    (hg : ∀ place n, offset ≤ place → g (place + n) = g place + n) :
    Cut (g offset) text (ts.map (Token.mapPlaces g)) (g stop) left := by
  induction h with
  | done => exact .done _ _
  | skip hpiece hskip _ ih =>
      have hrest := ih fun place n hplace => hg place n (by omega)
      rw [hg _ _ (Nat.le_refl _)] at hrest
      exact .skip hpiece hskip hrest
  | token hpiece htoken _ ih =>
      have hrest := ih fun place n hplace => hg place n (by omega)
      rw [hg _ _ (Nat.le_refl _)] at hrest
      rw [List.map_cons, Token.mapPlaces, Span.map, hg _ _ (Nat.le_refl _)]
      exact .token hpiece htoken hrest

/-- The error of a text moves with it. -/
theorem Stuck.mapPlaces {g : Nat → Nat} {e : Error} (h : Stuck offset text e)
    (hg : ∀ n, g (offset + n) = g offset + n) : Stuck (g offset) text (e.mapPlaces g) := by
  cases h with
  | invalid hnone =>
      rw [Error.mapPlaces, Span.map, hg]
      exact .invalid hnone
  | fault hpiece hfault =>
      rw [Error.mapPlaces, Span.map, hg]
      exact .fault hpiece hfault

/-- A text has the same tokens or the same error wherever it begins. -/
theorem scan_add (n offset : Nat) (text : List Char) :
    scan (n + offset) text = moved n (scan offset text) := by
  have hg (place m : Nat) : n + (place + m) = n + place + m := (Nat.add_assoc n place m).symm
  obtain ⟨ts, stop, left, hcut, hend⟩ := exists_cut offset text
  have hmoved := hcut.mapPlaces (g := (n + ·)) fun place m _ => hg place m
  rcases hend with rfl | ⟨e, hstuck⟩
  · rw [hcut.scan_end, hmoved.scan_end, moved]
  · have hstuck' := hstuck.mapPlaces (g := (n + ·)) (hg stop)
    rw [hcut.scan_stuck hstuck, hmoved.scan_stuck hstuck', moved]

/-- No error stands before the beginning of the text. -/
theorem le_start_of_scan_error {e : Error} (h : scan offset text = .error e) :
    offset ≤ e.span.start := by
  obtain ⟨ts, stop, left, hcut, hstuck⟩ := scan_eq_error_iff.mp h
  obtain ⟨before, -, hstop⟩ := hcut.exists_before
  cases hstuck with
  | invalid | fault => simp only; omega

/-- What is munched is munched at the end of the text too, and before less
text. -/
theorem Pattern.Munches.of_append {p : Pattern} {piece rest after : List Char}
    (h : p.Munches piece (piece ++ (rest ++ after))) : p.Munches piece (piece ++ rest) where
  begins := List.prefix_append _ _
  matched := h.matched
  longest q w hw := by
    rw [← List.append_assoc] at h
    exact h.longest q w (hw.trans (List.prefix_append _ _))
  wins := h.wins

/-- A text that ends where a cut does is cut in the same way. -/
theorem Cut.truncate (h : Cut offset text ts stop left) :
    ∃ cs, text = cs ++ left ∧ Cut offset cs ts stop [] := by
  induction h with
  | done offset text => exact ⟨[], rfl, .done _ _⟩
  | skip hpiece hskip _ ih =>
      obtain ⟨cs, rfl, hcut⟩ := ih
      exact ⟨_, (List.append_assoc _ _ _).symm, .skip hpiece.of_append hskip hcut⟩
  | token hpiece htoken _ ih =>
      obtain ⟨cs, rfl, hcut⟩ := ih
      exact ⟨_, (List.append_assoc _ _ _).symm, .token hpiece.of_append htoken hcut⟩

/-- The first token of a text is a piece behind a gap. -/
theorem Cut.exists_token (h : Cut offset text (t :: ts) stop left) :
    ∃ (p : Pattern) (piece rest : List Char), Cut offset text [] t.span.start (piece ++ rest) ∧
      p.Munches piece (piece ++ rest) ∧ ofPiece p piece = .ok (some t.kind) ∧
        t.span.stop = t.span.start + Text.byteLength piece ∧ Cut t.span.stop rest ts stop left := by
  generalize hall : t :: ts = all at h
  induction h with
  | done => cases hall
  | skip hpiece hskip _ ih =>
      obtain ⟨p, piece, rest, hgap, htoken⟩ := ih hall
      exact ⟨p, piece, rest, .skip hpiece hskip hgap, htoken⟩
  | token hpiece htoken hrest _ =>
      cases hall
      exact ⟨_, _, _, .done _ _, hpiece, htoken, rfl, hrest⟩

/-- A piece and what is cut after it. -/
theorem Cut.cons {p : Pattern} {piece rest : List Char} (hpiece : p.Munches piece (piece ++ rest))
    (htoken : ofPiece p piece = .ok (some t.kind))
    (hstop : t.span.stop = t.span.start + Text.byteLength piece)
    (hrest : Cut t.span.stop rest ts stop left) :
    Cut t.span.start (piece ++ rest) (t :: ts) stop left := by
  rw [hstop] at hrest
  have hcons := Cut.token hpiece htoken hrest
  rwa [← hstop] at hcons

/-- A cut can be interrupted after any of its tokens. -/
theorem Cut.exists_split (h : Cut offset text (ts ++ us) stop left) :
    ∃ mid between, Cut offset text ts mid between ∧ Cut mid between us stop left := by
  induction ts generalizing offset text with
  | nil => exact ⟨offset, text, .done _ _, h⟩
  | cons t ts ih =>
      obtain ⟨p, piece, rest, hgap, hpiece, htoken, hstop, hrest⟩ := Cut.exists_token h
      obtain ⟨mid, between, hfirst, hsecond⟩ := ih hrest
      exact ⟨mid, between, hgap.trans (.cons hpiece htoken hstop hfirst), hsecond⟩

/-- The piece is what the token was cut from. -/
def CutFrom (t : Token) (piece : List Char) : Prop :=
  ∃ p : Pattern, p.regex.Matches piece ∧ ofPiece p piece = .ok (some t.kind)

/-- Every token has a piece of the text that it is cut from, and covers it. -/
theorem Cut.exists_piece (h : Cut offset text ts stop left) (ht : t ∈ ts) :
    ∃ before piece after, text = before ++ piece ++ after ∧
      t.span = ⟨offset + Text.byteLength before, offset + Text.byteLength (before ++ piece)⟩ ∧
        CutFrom t piece := by
  obtain ⟨us, vs, rfl⟩ := List.append_of_mem ht
  obtain ⟨mid, between, hbefore, hfrom⟩ := h.exists_split
  obtain ⟨p, piece, rest, hgap, hpiece, htoken, hstop, -⟩ := hfrom.exists_token
  obtain ⟨before, htext, hstart⟩ := (hbefore.trans hgap).exists_before
  refine ⟨before, piece, rest, ?_, ?_, p, hpiece.matched, htoken⟩
  · rw [htext, List.append_assoc]
  · rw [Text.byteLength_append, ← Nat.add_assoc, ← hstart, ← hstop]

/-- The stretch from one token of a text to another, on its own: it begins and
ends with the pieces of these tokens, and cutting it gives the tokens. -/
theorem Cut.exists_slice {first last : Token} {mid post : List Token}
    (h : Cut offset text (us ++ first :: (mid ++ last :: post)) stop left) :
    ∃ before piece between piece' after,
      text = before ++ (piece ++ (between ++ piece')) ++ after ∧
      first.span.start = offset + Text.byteLength before ∧
      last.span.stop = offset + Text.byteLength (before ++ (piece ++ (between ++ piece'))) ∧
      CutFrom first piece ∧ CutFrom last piece' ∧
      Cut first.span.start (piece ++ (between ++ piece')) (first :: (mid ++ [last]))
        last.span.stop [] := by
  obtain ⟨_, _, hbefore, hfrom⟩ := h.exists_split
  obtain ⟨p, piece, rest, hgap, hpiece, htoken, hstop, hrest⟩ := hfrom.exists_token
  obtain ⟨_, _, hmid, hto⟩ := hrest.exists_split
  obtain ⟨q, piece', after, hgap', hpiece', htoken', hstop', -⟩ := hto.exists_token
  obtain ⟨before, htext, hstart⟩ := (hbefore.trans hgap).exists_before
  obtain ⟨between, rfl, hstart'⟩ := (hmid.trans hgap').exists_before
  have hlast := Cut.cons hpiece' htoken' hstop' (.done _ _)
  have hslice := Cut.cons hpiece htoken hstop (hmid.trans (hgap'.trans hlast))
  obtain ⟨cs, hcs, hcut⟩ := hslice.truncate
  have hend : piece ++ (between ++ piece') = cs := by
    apply List.append_cancel_right
    rw [← hcs]
    simp only [List.append_assoc]
  refine ⟨before, piece, between, piece', after, ?_, hstart, ?_, ⟨p, hpiece.matched, htoken⟩,
    ⟨q, hpiece'.matched, htoken'⟩, hend ▸ hcut⟩
  · rw [htext]
    simp only [List.append_assoc]
  · simp only [hstop', hstart', hstop, hstart, Text.byteLength_append]
    omega

end Cut

end Token

end LazyLisp
