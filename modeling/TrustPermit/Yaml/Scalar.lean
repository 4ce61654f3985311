import TrustPermit.Yaml.Glyph

/-! # Scalars

How a text stands in a document: plain, between quotes, or as a block of indented lines. A single
line break inside it counts as a space, further breaks stay, except that the lines of a literal
block stay apart.
-/

namespace TrustPermit.Yaml

inductive Style where
  | plain
  | quoted
  | literal
  | folded
  deriving DecidableEq

/-- Blank space inside a scalar: spaces in a line, or the break that ends a line and the breaks
of empty lines after it. An escaped break counts for nothing. -/
inductive Gap where
  | spaces (run : List Char)
  | lines (first : Option Char) (more : List Char)
  deriving DecidableEq

namespace Gap

def empty : Gap := spaces []

def isLines : Gap → Bool
  | spaces _ => false
  | lines _ _ => true

/-- The gap with one more blank. Spaces around a break are dropped. -/
def add : Gap → Char → Gap
  | spaces cs, c => if isBreak c then lines (some c) [] else spaces (cs ++ [c])
  | lines first more, c => if isBreak c then lines first (more ++ [c]) else lines first more

def folded : Gap → List Char
  | spaces cs => cs
  | lines (some '\n') [] => [' ']
  | lines (some '\n') more => more
  | lines first more => first.toList ++ more

end Gap

/-- The marks that build flow collections. -/
def isFlowMark (c : Char) : Bool := [',', '[', ']', '\x7b', '\x7d'].contains c

structure Plain where
  text : List Char
  /-- Whether blank lines or a break follow the text. -/
  endsLine : Bool
  rest : List Glyph

/-- Whether the scalar stops before a character that is not blank. -/
def Plain.stops (inFlow : Bool) (margin : Nat) (gap : Gap) : List Glyph → Bool
  | [] => true
  | g :: gs =>
    gap.isLines && !inFlow && g.column < margin ||
      gap ≠ .empty && (g.char = '#' || atBoundary (g :: gs)) ||
      g.char = ':' && atWordEnd gs || inFlow && isFlowMark g.char

/-- Reads on after a gap. Lines after the first start at the column `margin` or beyond. -/
def readPlain (inFlow : Bool) (margin : Nat) : Gap → List Glyph → Option Plain
  | gap, [] => some ⟨[], gap.isLines, []⟩
  | gap, g :: gs =>
    if isBlank g.char then
      if g.char = '\t' && gap.isLines && g.column < margin then none
      else readPlain inFlow margin (gap.add g.char) gs
    else if Plain.stops inFlow margin gap (g :: gs) then some ⟨[], gap.isLines, g :: gs⟩
    else if inFlow && g.char = ':' && gs.head?.any (fun n => n.char = '?' || isFlowMark n.char) then
      none
    else do
      let p ← readPlain inFlow margin .empty gs
      return { p with text := gap.folded ++ g.char :: p.text }

open Text

def readSingle (gap : Gap) (gs : List Glyph) : Option (List Char × List Glyph) :=
  match gs with
  | [] => none
  | g :: rest =>
    if isBlank g.char then readSingle (gap.add g.char) rest
    else if atBoundary (g :: rest) then none
    else if g.char = '\'' then
      match rest with
      | [] => some (gap.folded, [])
      | h :: rest =>
        if h.char = '\'' then
          (readSingle .empty rest).map fun (text, rest) => (gap.folded ++ '\'' :: text, rest)
        else some (gap.folded, h :: rest)
    else (readSingle .empty rest).map fun (text, rest) => (gap.folded ++ g.char :: text, rest)
termination_by gs.length

/-- The character of an escape of one letter. -/
def simpleEscape? (c : Char) : Option Char :=
  [('0', '\x00'), ('a', '\x07'), ('b', '\x08'), ('t', '\t'), ('\t', '\t'), ('n', '\n'),
   ('v', '\x0b'), ('f', '\x0c'), ('r', '\r'), ('e', '\x1b'), (' ', ' '), ('"', '"'), ('/', '/'),
   ('\\', '\\'), ('N', '\u0085'), ('_', '\u00a0'), ('L', '\u2028'), ('P', '\u2029')].lookup c

/-- The number of hexadecimal digits after the letter of a numeric escape. -/
def escapeWidth? (c : Char) : Option Nat := [('x', 2), ('u', 4), ('U', 8)].lookup c

/-- What a backslash and `c` stand for, and how many of the next glyphs belong to it. -/
def escape? (c : Char) (gs : List Glyph) : Option (Char × Nat) :=
  match simpleEscape? c with
  | some d => some (d, 0)
  | none => do
    let width ← escapeWidth? c
    let digits := (gs.take width).map (·.char)
    let code ← valueIn? 16 digits
    if digits.length = width ∧ code.isValidChar then some (.ofNat code, width) else none

def readDouble (gap : Gap) (gs : List Glyph) : Option (List Char × List Glyph) :=
  match gs with
  | [] => none
  | g :: rest =>
    if isBlank g.char then readDouble (gap.add g.char) rest
    else if atBoundary (g :: rest) then none
    else if g.char = '"' then some (gap.folded, rest)
    else if g.char = '\\' then
      match rest with
      | [] => none
      | e :: rest =>
        if isBreak e.char then
          (readDouble (.lines none []) rest).map fun (text, rest) => (gap.folded ++ text, rest)
        else do
          let (c, width) ← escape? e.char rest
          let (text, rest) ← readDouble .empty (rest.drop width)
          return (gap.folded ++ c :: text, rest)
    else (readDouble .empty rest).map fun (text, rest) => (gap.folded ++ g.char :: text, rest)
termination_by gs.length
decreasing_by all_goals simp only [List.length_cons, List.length_drop]; omega

/-- Which of the breaks at the end count: none, the first, or all. -/
inductive Chomping where
  | strip
  | clip
  | keep
  deriving DecidableEq

def Chomping.ofMark? (c : Char) : Option Chomping := [('-', strip), ('+', keep)].lookup c

structure BlockHeader where
  chomping : Chomping
  /-- Columns of indentation beyond the enclosing block, if they are stated. -/
  depth : Option Nat

def BlockHeader.chompingAt : List Glyph → Chomping × List Glyph
  | [] => (.clip, [])
  | g :: gs =>
    match Chomping.ofMark? g.char with
    | some c => (c, gs)
    | none => (.clip, g :: gs)

def BlockHeader.depthAt? : List Glyph → Option (Option Nat × List Glyph)
  | [] => some (none, [])
  | g :: gs =>
    if !isDigit g.char then some (none, g :: gs)
    else if g.char = '0' then none
    else some (some (digitsValue [g.char]), gs)

/-- Reads the two indicators, in either order, and the end of the line. -/
def BlockHeader.read? (gs : List Glyph) : Option (BlockHeader × List Glyph) := do
  let (chomping, afterMark) := chompingAt gs
  let (depth, gs) ← depthAt? afterMark
  let (chomping, gs) := if chomping = .clip then chompingAt gs else (chomping, gs)
  return (⟨chomping, depth⟩, ← finishLine? gs)

/-- Skips empty lines and the indentation of the line after them, which ends at the column
`indent` if that is known. Gives the breaks, the widest indentation, and the rest. -/
def skipEmptyLines (indent : Option Nat) (widest : Nat) :
    List Glyph → Option (List Char × Nat × List Glyph)
  | [] => some ([], widest, [])
  | g :: gs =>
    let isIndentation := indent.all (g.column < ·)
    if isIndentation && g.char = ' ' then skipEmptyLines indent widest gs
    else if isIndentation && g.char = '\t' then none
    else if isBreak g.char then
      (skipEmptyLines indent (max widest g.column) gs).map fun (breaks, rest) =>
        (g.char :: breaks, rest)
    else some ([], max widest g.column, g :: gs)

/-- A line with its break and the breaks of the empty lines after it. -/
structure BlockLine where
  text : List Char
  ending : List Char
  emptyAfter : List Char

def BlockLine.startsBlank (l : BlockLine) : Bool := l.text.head?.any isSpace

/-- What stands between two lines. -/
def BlockLine.join (folds : Bool) (a b : BlockLine) : List Char :=
  if folds && a.ending = ['\n'] && !a.startsBlank && !b.startsBlank then
    if a.emptyAfter.isEmpty then [' '] else a.emptyAfter
  else a.ending ++ a.emptyAfter

/-- Reads the lines that are indented to the column `indent`. -/
def readBlockLines (indent : Nat) (gs : List Glyph) : Option (List BlockLine × List Glyph) :=
  if gs.head?.any (·.column = indent) then do
    let (text, fromBreak) := gs.span (!isBreak ·.char)
    let ending := (fromBreak.take 1).map (·.char)
    let (emptyAfter, _, next) ← skipEmptyLines (some indent) 0 (fromBreak.drop 1)
    if next.length < gs.length then
      let (lines, rest) ← readBlockLines indent next
      return (⟨text.map (·.char), ending, emptyAfter⟩ :: lines, rest)
    else none
  else some ([], gs)
termination_by gs.length

def joinLines (folds : Bool) : List BlockLine → List Char
  | [] => []
  | [a] => a.text
  | a :: b :: ls => a.text ++ a.join folds b ++ joinLines folds (b :: ls)

/-- What counts of the breaks after the last line. -/
def BlockLine.tail (chomping : Chomping) (l : BlockLine) : List Char :=
  match chomping with
  | .strip => []
  | .clip => l.ending
  | .keep => l.ending ++ l.emptyAfter

/-- Reads a block scalar after its mark. `enclosing` is the column of the block around it. -/
def readBlock (folds : Bool) (enclosing : Option Nat) (gs : List Glyph) :
    Option (List Char × List Glyph) := do
  let (header, gs) ← BlockHeader.read? gs
  let stated := header.depth.map (enclosing.getD 0 + ·)
  let (before, widest, gs) ← skipEmptyLines stated 0 gs
  let (lines, rest) ← readBlockLines (stated.getD (max widest (enclosing.getD 0 + 1))) gs
  match lines.getLast? with
  | none => return (if header.chomping = .keep then before else [], rest)
  | some last => return (before ++ joinLines folds lines ++ last.tail header.chomping, rest)

end TrustPermit.Yaml
