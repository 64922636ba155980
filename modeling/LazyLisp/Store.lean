import LazyLisp.Value.Basic

/-!
# The store: frames and output

All that a running program changes is one value: the frames with their
bindings, the count of functions built, and the text printed. Frames are
only ever added, so a scope stays valid for the rest of the run.

## Main results

* `Bindings.find?_put_self`, `Bindings.find?_put_of_ne` — a binding
  changes the look-up of its own name and of no other.
* `Store.find?_inner` — a name is looked up from the inside out.
-/

namespace LazyLisp

/-- The names bound in one frame, each once. -/
abbrev Bindings := List (String × Value)

namespace Bindings

/-- The value bound to a name. -/
def find? (name : String) : Bindings → Option Value
  | [] => none
  | (other, v) :: rest => if other = name then some v else find? name rest

/-- Binds a name, in the place of an earlier binding of it. -/
def put (name : String) (value : Value) : Bindings → Bindings
  | [] => [(name, value)]
  | (other, v) :: rest =>
      if other = name then (name, value) :: rest else (other, v) :: put name value rest

/-- The names that are bound. -/
def names (b : Bindings) : List String := b.map Prod.fst

/-- Binds parameters to arguments in order, so of a repeated parameter the
last argument counts. -/
def ofParams (params : List String) (args : List Value) : Bindings :=
  (params.zip args).foldl (fun b (name, value) => put name value b) []

@[simp] theorem find?_put_self (name : String) (value : Value) (b : Bindings) :
    find? name (put name value b) = some value := by
  induction b with
  | nil => simp [put, find?]
  | cons entry rest ih =>
      obtain ⟨other, v⟩ := entry
      by_cases h : other = name <;> simp [put, find?, h, ih]

theorem find?_put_of_ne {name other : String} (h : other ≠ name) (value : Value) (b : Bindings) :
    find? name (put other value b) = find? name b := by
  induction b with
  | nil => simp [put, find?, h]
  | cons entry rest ih =>
      obtain ⟨key, v⟩ := entry
      by_cases hk : key = other
      · subst hk
        simp [put, find?, h]
      · simp only [put, find?, if_neg hk, ih]

end Bindings

/-- The state of a run. -/
structure Store where
  /-- The bindings of every frame, by its number. -/
  frames : Array Bindings
  /-- How many functions have been built; it numbers the next one. -/
  closures : Nat
  /-- All that was printed. -/
  printed : String
deriving Inhabited

namespace Store

/-- The state before anything has run: no frames and no output. -/
def empty : Store := ⟨#[], 0, ""⟩

/-- The bindings of a frame. -/
def bindings (σ : Store) (f : FrameId) : Bindings := σ.frames[f]?.getD []

/-- Adds a frame with these bindings; its number is the count of frames
before. -/
def addFrame (σ : Store) (b : Bindings) : Store := { σ with frames := σ.frames.push b }

/-- Opens a new global scope. -/
def openGlobal (σ : Store) : Scope × Store := (.global σ.frames.size, σ.addFrame [])

/-- Opens a scope inside another one, with these bindings. -/
def openInner (σ : Store) (outer : Scope) (b : Bindings) : Scope × Store :=
  (.inner σ.frames.size outer, σ.addFrame b)

/-- Binds a name in one frame. -/
def define (σ : Store) (f : FrameId) (name : String) (value : Value) : Store :=
  { σ with frames := σ.frames.modify f (Bindings.put name value) }

/-- The value that a name has in a scope: the innermost binding of it. -/
def find? (σ : Store) (name : String) : Scope → Option Value
  | .global f => (σ.bindings f).find? name
  | .inner f outer =>
      match (σ.bindings f).find? name with
      | some v => some v
      | none => σ.find? name outer

theorem find?_inner (σ : Store) (name : String) (f : FrameId) (outer : Scope) :
    σ.find? name (.inner f outer) = ((σ.bindings f).find? name).or (σ.find? name outer) := by
  simp only [find?]
  cases (σ.bindings f).find? name <;> rfl

/-- All names visible in a scope, innermost frame first; a shadowed name
appears once for every frame that binds it. -/
def visibleNames (σ : Store) (scope : Scope) : List String :=
  scope.frames.flatMap fun f => (σ.bindings f).names

/-- Adds a line to what was printed. -/
def print (σ : Store) (line : String) : Store := { σ with printed := σ.printed ++ line ++ "\n" }

end Store

end LazyLisp
