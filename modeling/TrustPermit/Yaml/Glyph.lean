import TrustPermit.Text

/-! # Glyphs and tags

A document is the list of its characters, each with its place. A line break is one character,
whichever system wrote it, and control characters are refused. Tags state the type of a node,
anchors name a node and references stand for a named one; directives say what the handles of tags
stand for.
-/

namespace TrustPermit.Yaml

structure Glyph where
  char : Char
  line : Nat
  /-- The number of characters before it in its line. -/
  column : Nat
  /-- The number of octets before it in its line, in UTF-8. -/
  offset : Nat
  deriving DecidableEq

def isSpace (c : Char) : Bool := c == ' ' || c == '\t'

def isBreak (c : Char) : Bool := c == '\n' || c == '\u2028' || c == '\u2029'

def isBlank (c : Char) : Bool := isSpace c || isBreak c

def orderMark : Char := '\ufeff'

/-- Whether a document may hold the character as it is. -/
def isPermitted (c : Char) : Bool :=
  c == '\t' || c == '\n' || c == '\r' || ' ' ≤ c && c ≤ '~' || c == '\u0085' ||
    '\u00a0' ≤ c && c != '\ufffe' && c != '\uffff'

/-- Writes the breaks of all systems as line feeds; the separators of Unicode stay. -/
def unifyBreaks : List Char → List Char
  | [] => []
  | '\r' :: '\n' :: cs => '\n' :: unifyBreaks cs
  | c :: cs => (if c = '\r' || c = '\u0085' then '\n' else c) :: unifyBreaks cs

/-- Places characters from a place on. -/
def place (line column offset : Nat) : List Char → List Glyph
  | [] => []
  | c :: cs => ⟨c, line, column, offset⟩ ::
    if isBreak c then place (line + 1) 0 0 cs
    else place line (column + 1) (offset + c.utf8Size) cs

def Glyph.ofText? (text : String) : Option (List Glyph) :=
  if text.toList.all isPermitted then some (place 0 0 0 (unifyBreaks text.toList)) else none

def atWordEnd (gs : List Glyph) : Bool := gs.head?.all (isBlank ·.char)

/-- Whether a line starts here with `c` three times and nothing more in the word. -/
def atMarker (c : Char) : List Glyph → Bool
  | g₁ :: g₂ :: g₃ :: gs =>
    g₁.column = 0 && g₁.char = c && g₂.char = c && g₃.char = c && atWordEnd gs
  | _ => false

/-- Whether a document starts or ends here. -/
def atBoundary (gs : List Glyph) : Bool := atMarker '-' gs || atMarker '.' gs

def skipSpaces (gs : List Glyph) : List Glyph := gs.dropWhile (isSpace ·.char)

/-- Without the spaces and the comment up to the end of the line, which must be here. -/
def finishLine? (gs : List Glyph) : Option (List Glyph) :=
  match skipSpaces gs with
  | [] => some []
  | g :: gs =>
    if isBreak g.char then some gs
    else if g.char = '#' then some ((gs.dropWhile (!isBreak ·.char)).drop 1)
    else none

open Text

/-- A tag without handles. A percent escape counts as the character of its octet. -/
abbrev Tag := List Char

def isWord (c : Char) : Bool := isAlphanumeric c || c == '-' || c == '_'

def spanWord (gs : List Glyph) : List Char × List Glyph :=
  let (word, rest) := gs.span (isWord ·.char)
  (word.map (·.char), rest)

/-- The name of an anchor, with what may follow it. -/
def readName? (gs : List Glyph) : Option (List Char × List Glyph) :=
  let (name, rest) := spanWord gs
  if !name.isEmpty && (atWordEnd rest || rest.head?.any ("?:,]\x7d%@\x60".toList.contains ·.char))
  then some (name, rest) else none

namespace Tag

def wholeNumber : Tag := "tag:yaml.org,2002:int".toList

def standardHandles : List (List Char × Tag) :=
  [("!".toList, "!".toList), ("!!".toList, "tag:yaml.org,2002:".toList)]

/-- Whether a tag may hold the character as it is; some only between angle brackets. -/
def accepts (bracketed : Bool) (c : Char) : Bool :=
  isWord c || ";/?:@&=+$.!~*'()".toList.contains c || bracketed && ",[]".toList.contains c

/-- How many octets follow the first octet of a character in UTF-8. -/
def followers? (octet : Nat) : Option Nat :=
  if octet < 0x80 then some 0
  else if 0xc0 ≤ octet && octet < 0xe0 then some 1
  else if 0xe0 ≤ octet && octet < 0xf0 then some 2
  else if 0xf0 ≤ octet && octet < 0xf8 then some 3
  else none

/-- Reads the longest text of a tag. `due` escaped octets must come first. -/
def readText (bracketed : Bool) (due : Nat) : List Glyph → Option (Tag × List Glyph)
  | g₁ :: g₂ :: g₃ :: gs =>
    if g₁.char = '%' then do
      let octet ← valueIn? 16 [g₂.char, g₃.char]
      let due ← if due = 0 then followers? octet
        else if 0x80 ≤ octet && octet < 0xc0 then some (due - 1) else none
      let (text, rest) ← readText bracketed due gs
      return (.ofNat octet :: text, rest)
    else if due = 0 && accepts bracketed g₁.char then
      (readText bracketed 0 (g₂ :: g₃ :: gs)).map fun (text, rest) => (g₁.char :: text, rest)
    else if due = 0 then some ([], g₁ :: g₂ :: g₃ :: gs)
    else none
  | g :: gs =>
    if due = 0 && accepts bracketed g.char then
      (readText bracketed 0 gs).map fun (text, rest) => (g.char :: text, rest)
    else if due = 0 && g.char ≠ '%' then some ([], g :: gs)
    else none
  | [] => if due = 0 then some ([], []) else none

/-- What counts of the text of a tag: all before its first null character. -/
def beforeNull (t : Tag) : Tag := t.takeWhile (· ≠ '\x00')

/-- A tag as written. Without a handle the suffix is the whole tag. -/
structure Written where
  handle : List Char
  suffix : Tag
  deriving DecidableEq

/-- Reads a tag after its exclamation mark. -/
def readWritten (gs : List Glyph) : Option (Written × List Glyph) :=
  if gs.head?.any (·.char = '<') then do
    let (suffix, rest) ← readText true 0 (gs.drop 1)
    if !suffix.isEmpty && rest.head?.any (·.char = '>') then
      return (⟨[], beforeNull suffix⟩, rest.drop 1)
    else none
  else
    let (word, rest) := spanWord gs
    if rest.head?.any (·.char = '!') then do
      let (suffix, rest) ← readText false 0 (rest.drop 1)
      if suffix.isEmpty then none
      else return (⟨'!' :: word ++ ['!'], beforeNull suffix⟩, rest)
    else do
      let (more, rest) ← readText false 0 rest
      let suffix := beforeNull (word ++ more)
      return (if suffix.isEmpty then ⟨[], ['!']⟩ else ⟨['!'], suffix⟩, rest)

def read? (inFlow : Bool) (gs : List Glyph) : Option (Written × List Glyph) := do
  let (tag, rest) ← readWritten gs
  if atWordEnd rest || inFlow && rest.head?.any (·.char = ',') then return (tag, rest) else none

/-- Replaces the handle by what it stands for. -/
def Written.resolve? (handles : List (List Char × Tag)) (w : Written) : Option Tag :=
  if w.handle.isEmpty then some w.suffix else (handles.lookup w.handle).map (· ++ w.suffix)

end Tag

/-- A line that says something about the documents after it. -/
inductive Directive where
  | version (major minor : Nat)
  | handle (name : List Char) (tag : Tag)
  deriving DecidableEq

namespace Directive

def readNumber? (gs : List Glyph) : Option (Nat × List Glyph) :=
  let (digits, rest) := gs.span (isDigit ·.char)
  if digits.isEmpty || 9 < digits.length then none
  else some (digitsValue (digits.map (·.char)), rest)

def readVersion? (gs : List Glyph) : Option (Directive × List Glyph) := do
  let (major, rest) ← readNumber? gs
  if !rest.head?.any (·.char = '.') then none
  else
    let (minor, rest) ← readNumber? (rest.drop 1)
    return (version major minor, rest)

/-- The handle `!`, or a name between exclamation marks. -/
def readHandleName? (gs : List Glyph) : Option (List Char × List Glyph) :=
  if !gs.head?.any (·.char = '!') then none
  else
    let (word, rest) := spanWord (gs.drop 1)
    if rest.head?.any (·.char = '!') then some ('!' :: word ++ ['!'], rest.drop 1)
    else if word.isEmpty then some (['!'], rest)
    else none

def readHandle? (gs : List Glyph) : Option (Directive × List Glyph) := do
  let (name, rest) ← readHandleName? gs
  if !rest.head?.any (isSpace ·.char) then none
  else
    let (tag, rest) ← Tag.readText true 0 (skipSpaces rest)
    if !tag.isEmpty && atWordEnd rest then return (handle name (Tag.beforeNull tag), rest)
    else none

/-- Reads a directive after its percent sign, with its line. -/
def read? (gs : List Glyph) : Option (Directive × List Glyph) := do
  let (name, rest) := spanWord gs
  let content := skipSpaces rest
  if !atWordEnd rest then none
  else
    let (directive, rest) ←
      if name = "YAML".toList then readVersion? content
      else if name = "TAG".toList then readHandle? content
      else none
    return (directive, ← finishLine? rest)

end Directive

end TrustPermit.Yaml
