/-!
# Lines and cuts

A line ends at a line feed, which may stand behind one carriage return; the
end of the text ends a line too, unless that line would be empty.
-/

namespace RtpReassembly.Text

/-- A line without the carriage return that belongs to its end. -/
def dropReturn (line : List Char) : List Char :=
  if line.getLast? = some '\r' then line.dropLast else line

/-- The lines of a text whose pieces between line feeds are given: all but the
last piece are ended by a line feed, and the last is a line unless it is empty. -/
def linesOfPieces : List (List Char) → List (List Char)
  | [] => []
  | [last] => if last.isEmpty then [] else [last]
  | piece :: next :: rest => dropReturn piece :: linesOfPieces (next :: rest)

/-- The lines of a text. -/
def lines (cs : List Char) : List (List Char) :=
  linesOfPieces (cs.splitOn '\n')

/-- A text of lines, each ended by a line feed. -/
def unlines (ls : List (List Char)) : List Char :=
  ls.flatMap (· ++ ['\n'])

/-- Cuts a text at the first `mark`: what stands before it, and what stands
behind it if there is one. -/
def cutAt (mark : Char) : List Char → List Char × Option (List Char)
  | [] => ([], none)
  | c :: cs =>
    if c = mark then ([], some cs)
    else
      let (before, behind) := cutAt mark cs
      (c :: before, behind)

/-- What follows `head` in a text that starts with it. -/
def afterHead? : List Char → List Char → Option (List Char)
  | [], cs => some cs
  | _ :: _, [] => none
  | h :: head, c :: cs => if h = c then afterHead? head cs else none

/-- Whether `part` stands somewhere in a text. -/
def contains (part : List Char) : List Char → Bool
  | [] => part.isEmpty
  | c :: cs => part.isPrefixOf (c :: cs) || contains part cs

end RtpReassembly.Text
