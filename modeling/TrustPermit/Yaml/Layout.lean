import TrustPermit.Yaml.Scalar

/-! # Layout

From glyphs to tokens: indentation becomes brackets around blocks. A block collection goes on as
long as lines are indented to its column. A key is known as such by the colon after it, so its mark
is put before tokens that were read already; it must be short and in one line.
-/

namespace TrustPermit.Yaml

inductive Token where
  | directive (d : Directive)
  | documentStart
  | documentEnd
  | blockSequence
  | blockMapping
  | blockEnd
  | flowSequence
  | flowSequenceEnd
  | flowMapping
  | flowMappingEnd
  | entry
  | comma
  | key
  | value
  | reference (name : List Char)
  | anchor (name : List Char)
  | tag (tag : Tag.Written)
  | scalar (style : Style) (text : List Char)
  deriving DecidableEq

/-- Whether a node starts with the token. -/
def Token.startsNode : Token → Bool
  | blockSequence | blockMapping | flowSequence | flowMapping => true
  | reference _ | anchor _ | tag _ | scalar .. => true
  | _ => false

/-- A place where a key may have started. -/
structure KeyStart where
  glyph : Glyph
  /-- The number of tokens before it. -/
  position : Nat
  /-- Whether nothing but a key can stand there. -/
  isDue : Bool

/-- What has been read of a document. -/
structure Layout where
  /-- The tokens, the last first. -/
  tokens : List Token
  /-- The columns of the open block collections, the innermost first. -/
  columns : List Nat
  /-- Where a key may have started inside the innermost flow collection. -/
  keyStart : Option KeyStart
  /-- Likewise around each open flow collection, the innermost first. -/
  outerStarts : List (Option KeyStart)
  keyAllowed : Bool

/-- The greatest distance between the start of a key and its colon, in octets. -/
def maxKeyLength : Nat := 1024

/-- Whether the colon of a key can no longer follow. -/
def KeyStart.isLate (k : KeyStart) (here : Glyph) : Bool :=
  k.glyph.line < here.line || k.glyph.offset + maxKeyLength < here.offset

namespace Layout

def start : Layout := ⟨[], [], none, [], true⟩

def inFlow (l : Layout) : Bool := !l.outerStarts.isEmpty

def add (l : Layout) (t : Token) : Layout := { l with tokens := t :: l.tokens }

def allowKey (l : Layout) (b : Bool) : Layout := { l with keyAllowed := b }

/-- Closes the open block collections whose columns satisfy `p`. -/
def closeBlocks (l : Layout) (p : Nat → Bool) : Layout :=
  if l.inFlow then l
  else
    let (closed, kept) := l.columns.span p
    { l with tokens := closed.map (fun _ => .blockEnd) ++ l.tokens, columns := kept }

/-- Whether a block collection in the column lies inside the open ones. -/
def opensAt (l : Layout) (column : Nat) : Bool :=
  !l.inFlow && l.columns.head?.all (· < column)

def openBlock (l : Layout) (t : Token) (column : Nat) : Layout :=
  if l.opensAt column then { l with tokens := t :: l.tokens, columns := column :: l.columns }
  else l

/-- Gives up the start of a key, which may not be due. -/
def dropKeyStart? (l : Layout) : Option Layout :=
  if l.keyStart.any (·.isDue) then none else some { l with keyStart := none }

def noteKeyStart? (l : Layout) (g : Glyph) : Option Layout :=
  if !l.keyAllowed then some l
  else do
    let isDue := !l.inFlow && l.columns.head? = some g.column
    return { ← l.dropKeyStart? with keyStart := some ⟨g, l.tokens.length, isDue⟩ }

def dropLateKeys? (l : Layout) (g : Glyph) : Option Layout :=
  let starts := l.keyStart :: l.outerStarts
  if starts.any (·.any fun k => k.isDue && k.isLate g) then none
  else
    let kept (k : Option KeyStart) : Option KeyStart := k.filter (!·.isLate g)
    some { l with keyStart := kept l.keyStart, outerStarts := l.outerStarts.map kept }

/-- A mark that stands alone, after which keys are allowed or not. -/
def addMark? (l : Layout) (t : Token) (thenKey : Bool) : Option Layout := do
  return (← l.dropKeyStart?).add t |>.allowKey thenKey

/-- A token that belongs to a node and may start a key. -/
def addContent? (l : Layout) (g : Glyph) (t : Token) : Option Layout := do
  return (← l.noteKeyStart? g).add t |>.allowKey false

/-- A mark between documents. -/
def addBoundary? (l : Layout) (t : Token) : Option Layout :=
  (l.closeBlocks fun _ => true).addMark? t false

def openFlow? (l : Layout) (g : Glyph) (t : Token) : Option Layout := do
  let l ← l.noteKeyStart? g
  return { l.add t with
    keyStart := none
    outerStarts := l.keyStart :: l.outerStarts
    keyAllowed := true }

def closeFlow? (l : Layout) (t : Token) : Option Layout := do
  let l ← l.addMark? t false
  match l.outerStarts with
  | [] => return l
  | k :: outer => return { l with keyStart := k, outerStarts := outer }

/-- The mark of a sequence's entry or of a key. It opens a block collection if none is open. -/
def addItemMark? (l : Layout) (g : Glyph) (collection mark : Token) (thenKey : Bool) :
    Option Layout :=
  if l.inFlow then l.addMark? mark thenKey
  else if !l.keyAllowed then none
  else (l.openBlock collection g.column).addMark? mark thenKey

/-- The colon after a key, which also marks the key. -/
def addValue? (l : Layout) (g : Glyph) : Option Layout :=
  match l.keyStart with
  | some k =>
    let since := l.tokens.length - k.position
    let before : Layout := { l with tokens := l.tokens.drop since }
    let opened := (before.openBlock .blockMapping k.glyph.column).add .key
    some { opened with
      tokens := .value :: l.tokens.take since ++ opened.tokens
      keyStart := none
      keyAllowed := false }
  | none => l.addItemMark? g .blockMapping .value (!l.inFlow)

def addPlain? (l : Layout) (g : Glyph) (gs : List Glyph) : Option (Layout × List Glyph) := do
  let p ← readPlain l.inFlow (l.columns.head?.elim 0 (· + 1)) .empty (g :: gs)
  let l ← l.addContent? g (.scalar .plain p.text)
  return (l.allowKey p.endsLine, p.rest)

def addBlock? (l : Layout) (folds : Bool) (gs : List Glyph) : Option (Layout × List Glyph) := do
  let (text, rest) ← readBlock folds l.columns.head? gs
  return (← l.addMark? (.scalar (if folds then .folded else .literal) text) true, rest)

/-- Reads the token that starts with the glyph `g`. -/
def readToken? (l : Layout) (g : Glyph) (gs : List Glyph) : Option (Layout × List Glyph) := do
  let l ← l.dropLateKeys? g
  let l := l.closeBlocks (g.column < ·)
  if g.column = 0 && g.char = '%' then
    let (d, rest) ← Directive.read? gs
    return (← l.addBoundary? (.directive d), rest)
  else if atMarker '-' (g :: gs) then return (← l.addBoundary? .documentStart, gs.drop 2)
  else if atMarker '.' (g :: gs) then return (← l.addBoundary? .documentEnd, gs.drop 2)
  else
    match g.char with
    | '[' => return (← l.openFlow? g .flowSequence, gs)
    | '\x7b' => return (← l.openFlow? g .flowMapping, gs)
    | ']' => return (← l.closeFlow? .flowSequenceEnd, gs)
    | '\x7d' => return (← l.closeFlow? .flowMappingEnd, gs)
    | ',' => return (← l.addMark? .comma true, gs)
    | '-' =>
      if atWordEnd gs then return (← l.addItemMark? g .blockSequence .entry true, gs)
      else l.addPlain? g gs
    | '?' =>
      if l.inFlow || atWordEnd gs then
        return (← l.addItemMark? g .blockMapping .key (!l.inFlow), gs)
      else l.addPlain? g gs
    | ':' =>
      if l.inFlow || atWordEnd gs then return (← l.addValue? g, gs) else l.addPlain? g gs
    | '*' =>
      let (name, rest) ← readName? gs
      return (← l.addContent? g (.reference name), rest)
    | '&' =>
      let (name, rest) ← readName? gs
      return (← l.addContent? g (.anchor name), rest)
    | '!' =>
      let (tag, rest) ← Tag.read? l.inFlow gs
      return (← l.addContent? g (.tag tag), rest)
    | '|' => if l.inFlow then none else l.addBlock? false gs
    | '>' => if l.inFlow then none else l.addBlock? true gs
    | '\'' =>
      let (text, rest) ← readSingle .empty gs
      return (← l.addContent? g (.scalar .quoted text), rest)
    | '"' =>
      let (text, rest) ← readDouble .empty gs
      return (← l.addContent? g (.scalar .quoted text), rest)
    | '\t' | '#' | '%' | '@' | '\x60' => none
    | _ => l.addPlain? g gs

/-- Skips what stands between tokens. In a block a line may start with a key, and must not
start with a tab. -/
def skipGap (l : Layout) (inComment : Bool) : List Glyph → Layout × List Glyph
  | [] => (l, [])
  | g :: gs =>
    if isBreak g.char then skipGap (l.allowKey (l.keyAllowed || !l.inFlow)) false gs
    else if inComment || g.char = '#' then skipGap l true gs
    else if g.char = ' ' || g.char = '\t' && (l.inFlow || !l.keyAllowed) ||
        g.char = orderMark && g.column = 0 then skipGap l false gs
    else (l, g :: gs)

def read? (l : Layout) (gs : List Glyph) : Option Layout :=
  match l.skipGap false gs with
  | (l, []) => (l.closeBlocks fun _ => true).dropKeyStart?
  | (l, g :: rest) =>
    match l.readToken? g rest with
    | none => none
    | some (l, rest) => if rest.length < gs.length then read? l rest else none
termination_by gs.length

end Layout

def Token.ofText? (text : String) : Option (List Token) := do
  return (← Layout.start.read? (← Glyph.ofText? text)).tokens.reverse

end TrustPermit.Yaml
