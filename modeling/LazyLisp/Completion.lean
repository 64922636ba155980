import LazyLisp.Primitive
import LazyLisp.Store
import LazyLisp.Text.Bytes
import LazyLisp.Token.Stream

/-!
# Completion of names

When the text before the cursor ends in a symbol, the session proposes how
it could go on: every visible name and every primitive that begins with
the symbol and is longer, less what has been typed.

## Main results

* `append_of_remainder?` — a proposal put after what was typed spells the
  name.
* `mem_sortedOnce` — putting texts in order loses none and adds none.
-/

namespace LazyLisp.Completion

/-- Puts a text into its place among texts in increasing order, unless it
is there already. Texts are ordered by code points. -/
def insertOnce (text : String) : List String → List String
  | [] => [text]
  | other :: rest =>
      if text < other then text :: other :: rest
      else if text = other then other :: rest
      else other :: insertOnce text rest

/-- The texts in increasing order, each once. -/
def sortedOnce (texts : List String) : List String := texts.foldr insertOnce []

@[simp] theorem mem_insertOnce {t text : String} {texts : List String} :
    t ∈ insertOnce text texts ↔ t = text ∨ t ∈ texts := by
  induction texts with
  | nil => simp [insertOnce]
  | cons other rest ih =>
      simp only [insertOnce]
      split
      · simp
      · split
        · rename_i same
          subst same
          simp
        · simp only [List.mem_cons, ih]
          constructor
          · rintro (h | h | h) <;> simp [h]
          · rintro (h | h | h) <;> simp [h]

@[simp] theorem mem_sortedOnce {t : String} {texts : List String} :
    t ∈ sortedOnce texts ↔ t ∈ texts := by
  induction texts with
  | nil => simp [sortedOnce]
  | cons text rest ih =>
      rw [sortedOnce, List.foldr_cons, mem_insertOnce, List.mem_cons]
      rw [show rest.foldr insertOnce [] = sortedOnce rest from rfl, ih]

/-- What a name adds to its beginning; nothing if it does not begin so, or
is no longer. -/
def remainder? (typed name : String) : Option String :=
  if typed.toList.isPrefixOf name.toList ∧ typed.toList.length < name.toList.length then
    some (String.ofList (name.toList.drop typed.toList.length))
  else none

/-- A candidate is what is missing to a known name. -/
theorem append_of_remainder? {typed name added : String} (h : remainder? typed name = some added) :
    typed ++ added = name := by
  unfold remainder? at h
  split at h
  · rename_i found
    cases h
    obtain ⟨t, ht⟩ := List.isPrefixOf_iff_prefix.1 found.1
    apply String.toList_inj.1
    simp [← ht]
  · cases h

/-- The symbol that a text ends in, as the last of its tokens. Blanks and
comments may still follow it. -/
def lastSymbol? (before : List Char) : Option String :=
  match Token.scan 0 before with
  | .ok tokens =>
      match tokens.getLast? with
      | some ⟨.symbol name, _⟩ => some name
      | _ => none
  | .error _ => none

/-- The proposals for a text before the cursor, among these names. -/
def proposals (names : List String) (before : List Char) : List String :=
  match lastSymbol? before with
  | some typed => sortedOnce (names.filterMap (remainder? typed))
  | none => []

/-- The names that a user can write in a scope. -/
def knownNames (σ : Store) (scope : Scope) : List String :=
  σ.visibleNames scope ++ Primitive.all.map Primitive.name

/-- The proposals for a line with the cursor at a byte offset. -/
def complete (σ : Store) (scope : Scope) (line : List Char) (cursor : Nat) : List String :=
  proposals (knownNames σ scope) (Text.beforeByte cursor line)

/-- The names visible in a scope, in order and each once. -/
def identifiers (σ : Store) (scope : Scope) : List String := sortedOnce (σ.visibleNames scope)

end LazyLisp.Completion
