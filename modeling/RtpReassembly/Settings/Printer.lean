import RtpReassembly.Settings

/-!
# Writing settings

Settings are written as global pairs, followed by blocks: a section's header
and pairs of that section.  A section can have several blocks, and a key can be
written several times; what is written last counts.
-/

namespace RtpReassembly.Settings

/-- The line of a pair; the value stands between double quotes. -/
def renderPair (key value : String) : List Char :=
  key.toList ++ " = \"".toList ++ value.toList ++ ['"']

/-- The line that opens a section. -/
def renderHeader (name : String) : List Char :=
  '[' :: name.toList ++ [']']

/-- Pairs of one section that are written together. -/
structure Block where
  name : String
  pairs : List (String × String)
  deriving DecidableEq, Repr

/-- The order in which settings are written. -/
structure Layout where
  globals : List (String × String)
  blocks : List Block
  deriving DecidableEq, Repr

namespace Layout

/-- The lines of a layout. -/
def lines (l : Layout) : List (List Char) :=
  l.globals.map (fun (key, value) => renderPair key value) ++
    l.blocks.flatMap (fun b =>
      renderHeader b.name :: b.pairs.map (fun (key, value) => renderPair key value))

/-- The text of a layout. -/
def render (l : Layout) : List Char :=
  Text.unlines l.lines

/-- The value that a layout gives a key before any section: the last one. -/
def getGlobal? (l : Layout) (key : String) : Option String :=
  (l.globals.reverse.find? (fun pair => pair.1 = key)).map Prod.snd

/-- The value that a layout gives a key in a section: the last one. -/
def get? (l : Layout) (name key : String) : Option String :=
  let pairs := (l.blocks.filter (fun b => b.name = name)).flatMap Block.pairs
  (pairs.reverse.find? (fun pair => pair.1 = key)).map Prod.snd

end Layout

end RtpReassembly.Settings
