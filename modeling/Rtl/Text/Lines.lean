/-! # Lines of a text -/

namespace Rtl.Text

/-- The pieces between line feeds; a text with `n` line feeds has `n + 1` of them. -/
def pieces : List Char → List (List Char)
  | [] => [[]]
  | c :: cs =>
      if c = '\n' then [] :: pieces cs
      else match pieces cs with
        | [] => [[c]]
        | piece :: rest => (c :: piece) :: rest

def splitLines (text : String) : List String :=
  (pieces text.toList).map String.ofList

/-- Without the carriage return at its end, if it has one. -/
def dropReturn (piece : List Char) : List Char :=
  if piece.getLast? = some '\r' then piece.dropLast else piece

/-- Each line feed, with a carriage return right before it, ends a line. What follows the
last one is a line only if it is not empty. -/
def lines (text : String) : List String :=
  let all := pieces text.toList
  let rest := all.getLast?.getD []
  let ended := all.dropLast.map dropReturn
  (if rest.isEmpty then ended else ended ++ [rest]).map String.ofList

def indent : Nat → String
  | 0 => ""
  | depth + 1 => "  " ++ indent depth

/-- The texts one after another, with a comma and a blank between neighbours. -/
def commas : List String → String
  | [] => ""
  | [text] => text
  | text :: next :: rest => text ++ ", " ++ commas (next :: rest)

end Rtl.Text
