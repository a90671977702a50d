import Rtl.Text.Blank

/-! # Wrapping words

A text is set word by word. A word that does not fit on the line starts the next one, and the
blanks around the break are dropped. A line feed counts as a blank, but the next line starts
anew if it is indented, and so it does behind an empty line. A line that is indented by four
blanks is set as it is, and nothing may follow it on its line; but if it is a single blank
that does not fit, it is dropped like any other blank.
-/

namespace Rtl.Text

/-- A part of a text that is set in one go. -/
inductive Chunk where
  | word (text : String)
  | blank
  | lineBreak
  /-- An indented line, without its indentation. -/
  | verbatim (text : String)
deriving DecidableEq

def inWord (c : Char) : Bool :=
  c ≠ ' ' && c ≠ '\n'

theorem length_dropWhile_le (p : Char → Bool) (cs : List Char) :
    (cs.dropWhile p).length ≤ cs.length :=
  (List.dropWhile_sublist p).length_le

/-- The parts of a text, in order. -/
def chunks : List Char → List Chunk
  | [] => []
  | '\n' :: ' ' :: ' ' :: ' ' :: ' ' :: cs =>
      .verbatim (String.ofList (cs.takeWhile (· ≠ '\n'))) :: chunks (cs.dropWhile (· ≠ '\n'))
  | '\n' :: '\n' :: ' ' :: ' ' :: ' ' :: ' ' :: cs =>
      .lineBreak :: chunks ('\n' :: ' ' :: ' ' :: ' ' :: ' ' :: cs)
  | '\n' :: '\n' :: cs => .lineBreak :: chunks cs
  | '\n' :: ' ' :: cs => .lineBreak :: chunks cs
  | '\n' :: cs => .blank :: chunks cs
  | ' ' :: cs => .blank :: chunks cs
  | c :: cs =>
      .word (String.ofList (c :: cs.takeWhile inWord)) :: chunks (cs.dropWhile inWord)
termination_by cs => cs.length
decreasing_by all_goals grind [length_dropWhile_le]

/-- Text that is being set, and the column of the last line that it has reached. -/
structure Page where
  text : String := ""
  column : Nat := 0

namespace Page

/-- Add text that stays on the line. -/
def put (page : Page) (text : String) : Page :=
  ⟨page.text ++ text, page.column + text.length⟩

/-- Whether a text goes beyond the width. Its size counts here, not its length. -/
def overflows (width : Nat) (page : Page) (text : String) : Bool :=
  page.text ≠ "" && width < page.column + text.utf8ByteSize

/-- Start a new line where the text has to be broken. -/
def wrap (page : Page) : Page :=
  ⟨trimEnd page.text ++ "\n", 0⟩

/-- Whether a text is a single blank that stands where the line has to be broken. -/
def swallows (width : Nat) (page : Page) (text : String) : Bool :=
  text = " " && page.overflows width text

/-- Add text, on a new line if the line would become too long. A single blank is dropped
there. -/
def putFitting (width : Nat) (page : Page) (text : String) : Page :=
  if page.swallows width text then page.wrap
  else if page.overflows width text then page.wrap.put text
  else page.put text

/-- Add a part of a text. A verbatim line leaves no room behind it, unless it was dropped. -/
def putChunk (width : Nat) (page : Page) : Chunk → Page
  | .word text => page.putFitting width text
  | .blank => page.putFitting width " "
  | .lineBreak => ⟨page.text ++ "\n", 0⟩
  | .verbatim text =>
      let next := page.putFitting width text
      if page.swallows width text then next else ⟨next.text, width + 1⟩

def putText (width : Nat) (page : Page) (text : String) : Page :=
  (chunks text.toList).foldl (putChunk width) page

end Page

end Rtl.Text
