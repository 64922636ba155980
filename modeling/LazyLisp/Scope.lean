/-!
# Scopes: chains of frames

A scope is a static chain: the frame a name is looked up in first, then
the frames around it, up to a global frame. Frames themselves live in the
`Store` and are named here by number. A chain never changes once it is
built, so a closure that keeps its scope keeps seeing the same frames for
ever; and it always ends in a global frame, because the type says so.

## Main results

* `rootFrame_mem_frames` — the last frame of a chain is a global one.
-/

namespace LazyLisp

/-- The number of a frame in the store. -/
abbrev FrameId := Nat

/-- A chain of frames, innermost first, that ends in a global one. -/
inductive Scope where
  /-- A global scope: one frame and nothing around it. -/
  | global (frame : FrameId)
  /-- A frame opened inside another scope. -/
  | inner (frame : FrameId) (outer : Scope)
deriving DecidableEq, Inhabited

namespace Scope

/-- The innermost frame: the one that a binding made here goes to. -/
def frame : Scope → FrameId
  | .global f => f
  | .inner f _ => f

/-- The global frame that the chain ends in. -/
def rootFrame : Scope → FrameId
  | .global f => f
  | .inner _ outer => outer.rootFrame

/-- The global scope around this one. -/
def root (s : Scope) : Scope := .global s.rootFrame

/-- Whether no scope is around this one. -/
def isGlobal : Scope → Bool
  | .global _ => true
  | .inner _ _ => false

/-- All frames of the chain, innermost first. -/
def frames : Scope → List FrameId
  | .global f => [f]
  | .inner f outer => f :: outer.frames

/-- Every chain of frames ends in its global frame. -/
theorem rootFrame_mem_frames (s : Scope) : s.rootFrame ∈ s.frames := by
  induction s with
  | global f => simp [rootFrame, frames]
  | inner f outer ih => simp [rootFrame, frames, ih]

end Scope

end LazyLisp
