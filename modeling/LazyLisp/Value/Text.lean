import LazyLisp.Value.Basic

/-!
# How values are written

The text of a value, as printed by the command line and by `print`, and as
quoted in messages. Symbols, vectors and calls are written as they are
read, so a form without strings and floats can be read back from its text.
Strings stand without quotes. A lazy sequence shows the heads of the cells
that are there and three dots for what is not.

## Main results

* `texts_eq_map` — the elements of a list are written one by one.
* `cellTexts_eq_texts` — and so are those of a chain.
-/

namespace LazyLisp

namespace Value

/-- Names or texts with a blank between every two. -/
def spaced (words : List String) : String := " ".intercalate words

/-- A parameter list, as in the text of a function. -/
def paramsText (params : List String) : String := "[" ++ spaced params ++ "]"

mutual

/-- The text of a value. -/
def text : Value → String
  | .number n => n.text
  | .boolean b => if b then "true" else "false"
  | .string s => s
  | .vector items => "[" ++ spaced (texts items) ++ "]"
  | .pair cells => "(" ++ spaced (cellTexts cells) ++ ")"
  | .terminal => "<END>"
  | .nil => "<NIL>"
  | .symbol name => name
  | .closure _ params _ _ => "<fn " ++ paramsText params ++ ">"
  | .template params _ => "<macro " ++ paramsText params ++ ">"
  | .lastCell head => "(" ++ head.text ++ ")"
  | .lazyCell head rest _ => "(" ++ spaced (head.text :: rest.tailTexts) ++ ")"
  | .call callee args _ => "(" ++ spaced (callee.text :: texts args) ++ ")"

/-- The texts after a lazy cell's head: those of the cells that are there,
and dots for what is not. -/
def tailTexts : Value → List String
  | .lastCell head => [head.text]
  | .lazyCell head rest _ => head.text :: rest.tailTexts
  | _ => ["..."]

/-- The texts of all elements. -/
def texts : List Value → List String
  | [] => []
  | v :: rest => v.text :: texts rest

/-- The texts of the elements in a chain. -/
def cellTexts : Chain Value → List String
  | .empty => []
  | .last v => [v.text]
  | .cell v rest => v.text :: cellTexts rest

end

theorem texts_eq_map (items : List Value) : texts items = items.map text := by
  induction items with
  | nil => rfl
  | cons v rest ih => simp [texts, ih]

theorem cellTexts_eq_texts (cells : Chain Value) : cellTexts cells = texts cells.toList := by
  induction cells with
  | empty => simp [cellTexts, texts]
  | last v => simp [cellTexts, texts]
  | cell v rest ih => simp [cellTexts, texts, ih]

end Value

end LazyLisp
