import RtpReassembly.Table
import RtpReassembly.Policy
import RtpReassembly.Text.Blank
import RtpReassembly.Text.Line
import RtpReassembly.Text.Number

/-!
# Settings

Settings are pairs `key = value`, one a line; a line `[name]` opens a section,
and pairs before any section are global.  A line that starts with `#` is a
comment, and a line that is nothing of this is passed over.  Blanks around
keys, values and section names do not count, and double quotes around a value
are taken off.
-/

namespace RtpReassembly

/-- Pairs of keys and values. -/
abbrev Pairs := Table String String

/-- Global pairs and those of each section that has any. -/
structure Settings where
  globals : Pairs := []
  sections : Table String Pairs := []
  deriving DecidableEq, Repr

namespace Settings

/-- A line of settings. -/
inductive Line
  | header (name : String)
  | pair (key value : String)
  | other
  deriving DecidableEq, Repr

/-- The text without the double quotes at its ends. -/
def unquote (text : List Char) : List Char :=
  Text.dropTailWhile (· == '"') (text.dropWhile (· == '"'))

/-- What stands between brackets around a text. -/
def bracketed? (text : List Char) : Option (List Char) :=
  match text with
  | '[' :: rest => if rest.getLast? = some ']' then some rest.dropLast else none
  | _ => none

/-- The line that a text is, blanks at its ends apart. -/
def Line.ofText (text : List Char) : Line :=
  let text := Text.trim text
  if text.isEmpty ∨ text.head? = some '#' then .other
  else
    match bracketed? text with
    | some name => .header (String.ofList (Text.trim name))
    | none =>
      match Text.cutAt '=' text with
      | (_, none) => .other
      | (key, some value) =>
        .pair (String.ofList (Text.trim key)) (String.ofList (unquote (Text.trim value)))

/-- The settings with a pair more in a section, or among the globals. -/
def put (s : Settings) (section? : Option String) (key value : String) : Settings :=
  match section? with
  | none => { s with globals := s.globals.put key value }
  | some name =>
    { s with sections := s.sections.put name (((s.sections.get? name).getD []).put key value) }

/-- The settings after more lines, of which the first stands in a section, or
before any. -/
def addLines (s : Settings) (current : Option String) : List Line → Settings
  | [] => s
  | .header name :: lines => addLines s (some name) lines
  | .pair key value :: lines => addLines (s.put current key value) current lines
  | .other :: lines => addLines s current lines

/-- Reads settings. -/
def read (text : List Char) : Settings :=
  addLines {} none ((Text.lines text).map Line.ofText)

/-- Reads settings from a string. -/
def parse (text : String) : Settings :=
  read text.toList

/-- The value of a key in a section. -/
def get? (s : Settings) (name key : String) : Option String :=
  (s.sections.get? name).bind (Table.get? key)

/-- The value of a key in a section, unless it is empty. -/
def getNonEmpty? (s : Settings) (name key : String) : Option String :=
  (s.get? name key).filter (· ≠ "")

/-- The value of a global key. -/
def getGlobal? (s : Settings) (key : String) : Option String :=
  s.globals.get? key

/-- The value of a key in a section, or else the global one, read by `reader`;
an empty value counts as none.  If there is none, or the one that counts
cannot be read, it is `fallback`. -/
def getParsedOr {α : Type} (s : Settings) (reader : List Char → Option α) (name key : String)
    (fallback : α) : α :=
  let value := (s.getNonEmpty? name key).or ((s.getGlobal? key).filter (· ≠ ""))
  (value.bind (fun v => reader v.toList)).getD fallback

/-- Reads a count of up to 64 bits. -/
def readCount (text : List Char) : Option Nat :=
  (Text.readNat (0xFFFFFFFFFFFFFFFF) text).toOption

/-- Reads a switch. -/
def readSwitch (text : List Char) : Option Bool :=
  if text = "true".toList then some true
  else if text = "false".toList then some false
  else none

end Settings

/-- The policy in the section `Unpacker`; what is missing or cannot be read is
as in the default policy. -/
def Policy.ofSettings (s : Settings) : Policy :=
  let d : Policy := {}
  let name := "Unpacker"
  let p : Policy :=
    { tolerance := s.getParsedOr Settings.readCount name "reorder_tolerance" d.tolerance
      discardOrphans :=
        s.getParsedOr Settings.readSwitch name "discard_orphan_fragments" d.discardOrphans }
  p.withCapacity (s.getParsedOr Settings.readCount name "max_buffered_packets" d.capacity)

end RtpReassembly
