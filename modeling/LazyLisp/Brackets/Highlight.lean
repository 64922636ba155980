import LazyLisp.Brackets.Balance

/-!
# Colours for a line being typed

A line is shown with its strings in green, the pair of brackets that the
cursor touches in blue, and brackets that do not match in red. Every
character keeps its place; a colour is only put around it. An opening
bracket gets its colour when its partner is met, so the line is painted on
an array of characters, and turned into text at the end.
-/

namespace LazyLisp.Brackets

/-- The colours of a line. -/
inductive Colour where
  /-- A character of a string. -/
  | green
  /-- The closing bracket of the pair at the cursor. -/
  | blue
  /-- The opening bracket of the pair at the cursor. -/
  | boldBlue
  /-- A closing bracket without a partner. -/
  | red
  /-- An opening bracket that met a closing one of the other sort. -/
  | boldRed
deriving DecidableEq

/-- The terminal code that switches a colour on. -/
def Colour.code : Colour → String
  | .green => "\x1b[32m"
  | .blue => "\x1b[34m"
  | .boldBlue => "\x1b[1;34m"
  | .red => "\x1b[31m"
  | .boldRed => "\x1b[1;31m"

/-- The terminal code that switches all colours off. -/
def resetCode : String := "\x1b[0m"

/-- A character of the line, with its colour if it has one. -/
structure Cell where
  char : Char
  colour : Option Colour
deriving DecidableEq

/-- The text of a cell: the character, between its colour and a reset. -/
def Cell.text (cell : Cell) : String :=
  match cell.colour with
  | some colour => colour.code ++ String.singleton cell.char ++ resetCode
  | none => String.singleton cell.char

/-- An opening bracket that waits for its partner. -/
structure Opening where
  bracket : Char
  /-- Its byte offset in the line. -/
  offset : Nat
  /-- Its place among the cells. -/
  index : Nat

/-- The cells with one of them coloured. -/
def recolour (cells : Array Cell) (index : Nat) (colour : Colour) : Array Cell :=
  cells.modify index fun cell => { cell with colour := some colour }

/-- Paints the rest of a line. `cursor` and `offset` count bytes; a cursor
touches a bracket that ends where it stands. -/
def paintFrom (cursor : Nat) (q : Quoting) (stack : List Opening) (offset : Nat)
    (cells : Array Cell) : List Char → Array Cell
  | [] => cells
  | c :: rest =>
      let following := offset + c.utf8Size
      match q.feed c with
      | (true, after) => paintFrom cursor after stack following (cells.push ⟨c, some .green⟩) rest
      | (false, after) =>
          if isOpening c then
            paintFrom cursor after (⟨c, offset, cells.size⟩ :: stack) following
              (cells.push ⟨c, none⟩) rest
          else if isClosing c then
            match stack with
            | opening :: around =>
                if isMatch opening.bracket c then
                  if opening.offset + 1 = cursor ∨ offset + 1 = cursor then
                    paintFrom cursor after around following
                      (recolour (cells.push ⟨c, some .blue⟩) opening.index .boldBlue) rest
                  else paintFrom cursor after around following (cells.push ⟨c, none⟩) rest
                else
                  paintFrom cursor after around following
                    (recolour (cells.push ⟨c, some .red⟩) opening.index .boldRed) rest
            | [] => paintFrom cursor after [] following (cells.push ⟨c, some .red⟩) rest
          else paintFrom cursor after stack following (cells.push ⟨c, none⟩) rest

/-- The painted line, for a cursor at a byte offset. -/
def paint (line : List Char) (cursor : Nat) : List Cell :=
  (paintFrom cursor .outside [] 0 #[] line).toList

/-- The text of painted cells. -/
def render (cells : List Cell) : String := cells.foldl (fun shown cell => shown ++ cell.text) ""

@[simp] theorem paintFrom_nil (cursor : Nat) (q : Quoting) (stack : List Opening) (offset : Nat)
    (cells : Array Cell) : paintFrom cursor q stack offset cells [] = cells := rfl

/-- The text that is shown for a line. -/
def highlight (line : List Char) (cursor : Nat) : String := render (paint line cursor)

end LazyLisp.Brackets
