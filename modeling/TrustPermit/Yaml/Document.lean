import TrustPermit.Yaml.Layout

/-! # Documents

A document is a tree of scalars, sequences and mappings. A reference stands for the node that its
anchor names. A text holds one document or nothing at all; directives may stand before the mark of
its start, and marks of its end after it.
-/

namespace TrustPermit.Yaml

structure Scalar where
  style : Style
  tag : Option Tag
  text : List Char
  deriving DecidableEq

inductive Node where
  | scalar (s : Scalar)
  | reference (anchor : Nat)
  | sequence (items : List Node)
  | mapping (entries : List (Node × Node))

/-- What stands where a node is left out. -/
def Node.empty : Node := .scalar ⟨.plain, none, []⟩

/-- The anchors of a document. Only scalars can be reached through a reference. -/
structure Anchors where
  /-- The number that each name has now. -/
  numbers : List (List Char × Nat)
  /-- What the numbers stand for, the last meaning first. -/
  targets : List (Nat × Option Scalar)

namespace Anchors

def empty : Anchors := ⟨[], []⟩

/-- Gives a name to a node. The number is the count of names so far, so a name that is given
again shares its number with the next new name. -/
def define (a : Anchors) (name : List Char) (target : Option Scalar) : Anchors :=
  let number := a.numbers.length
  ⟨(name, number) :: a.numbers.filter (·.1 ≠ name), (number, target) :: a.targets⟩

/-- The scalar that a reference with this number stands for. -/
def target? (a : Anchors) (number : Nat) : Option Scalar := (a.targets.lookup number).join

end Anchors

/-- The anchor and the tag in front of a node. -/
structure Properties where
  anchor : Option (List Char)
  tag : Option Tag
  deriving DecidableEq

namespace Properties

def bare : Properties := ⟨none, none⟩

def define (p : Properties) (a : Anchors) (target : Option Scalar) : Anchors :=
  p.anchor.elim a (a.define · target)

end Properties

/-- Where a node stands: as a key or a value in a block, elsewhere in a block, or in a flow
collection. -/
inductive Position where
  | keyed
  | block
  | flow
  deriving DecidableEq

/-- A part of a document, the tokens after it, and the anchors up to there. -/
structure Reading (α : Type) where
  part : α
  rest : List Token
  anchors : Anchors

namespace Node

/-- What the handles of tags stand for. -/
abbrev Handles := List (List Char × Tag)

def ofScalar (p : Properties) (a : Anchors) (s : Scalar) (rest : List Token) : Reading Node :=
  ⟨.scalar s, rest, p.define a (some s)⟩

/-- A node without content, which must have properties. -/
def ofProperties? (p : Properties) (a : Anchors) (rest : List Token) : Option (Reading Node) :=
  if p = .bare then none else some (ofScalar p a ⟨.plain, p.tag, []⟩ rest)

mutual

def read (handles : Handles) (pos : Position) (p : Properties) (a : Anchors) :
    List Token → Option (Reading Node)
  | .anchor name :: ts =>
    if p.anchor.isSome then ofProperties? p a (.anchor name :: ts)
    else read handles pos { p with anchor := name } a ts
  | .tag written :: ts =>
    if p.tag.isSome then ofProperties? p a (.tag written :: ts)
    else
      match written.resolve? handles with
      | none => none
      | some tag => read handles pos { p with tag := tag } a ts
  | .reference name :: ts =>
    if p = .bare then (a.numbers.lookup name).map (⟨.reference ·, ts, a⟩)
    else ofProperties? p a (.reference name :: ts)
  | .scalar style text :: ts => some (ofScalar p a ⟨style, p.tag, text⟩ ts)
  | .flowSequence :: ts => do
    let r ← readFlowItems handles (p.define a none) ts
    return ⟨.sequence r.part, r.rest, r.anchors⟩
  | .flowMapping :: ts => do
    let r ← readFlowEntries handles (p.define a none) ts
    return ⟨.mapping r.part, r.rest, r.anchors⟩
  | .blockSequence :: ts => do
    let r ← readBlockItems handles true (p.define a none) ts
    return ⟨.sequence r.part, r.rest, r.anchors⟩
  | .blockMapping :: ts => do
    let r ← readBlockEntries handles (p.define a none) ts
    return ⟨.mapping r.part, r.rest, r.anchors⟩
  | .entry :: ts =>
    if pos = .keyed then do
      let r ← readBlockItems handles false (p.define a none) (.entry :: ts)
      return ⟨.sequence r.part, r.rest, r.anchors⟩
    else ofProperties? p a (.entry :: ts)
  | ts => ofProperties? p a ts
termination_by ts => 4 * ts.length + 1

def readOptional (handles : Handles) (pos : Position) (a : Anchors) :
    List Token → Option (Reading Node)
  | [] => some ⟨.empty, [], a⟩
  | t :: ts =>
    if t.startsNode || pos = .keyed && t = .entry then read handles pos .bare a (t :: ts)
    else some ⟨.empty, t :: ts, a⟩
termination_by ts => 4 * ts.length + 2

def readValue (handles : Handles) (pos : Position) (a : Anchors) :
    List Token → Option (Reading Node)
  | .value :: ts => readOptional handles pos a ts
  | ts => some ⟨.empty, ts, a⟩
termination_by ts => 4 * ts.length

def readPair (handles : Handles) (pos : Position) (a : Anchors) (ts : List Token) :
    Option (Reading (Node × Node)) := do
  let k ← readOptional handles pos a ts
  if k.rest.length ≤ ts.length then
    let v ← readValue handles pos k.anchors k.rest
    return ⟨(k.part, v.part), v.rest, v.anchors⟩
  else none
termination_by 4 * ts.length + 3

/-- Reads the items of a block sequence. Without brackets the sequence stands at the column of
the mapping around it. -/
def readBlockItems (handles : Handles) (bracketed : Bool) (a : Anchors) :
    List Token → Option (Reading (List Node))
  | .entry :: ts => do
    let n ← readOptional handles .block a ts
    if n.rest.length ≤ ts.length then
      let r ← readBlockItems handles bracketed n.anchors n.rest
      return { r with part := n.part :: r.part }
    else none
  | .blockEnd :: ts => some ⟨[], if bracketed then ts else .blockEnd :: ts, a⟩
  | ts => if bracketed then none else some ⟨[], ts, a⟩
termination_by ts => 4 * ts.length

def readBlockEntries (handles : Handles) (a : Anchors) :
    List Token → Option (Reading (List (Node × Node)))
  | .key :: ts => do
    let e ← readPair handles .keyed a ts
    if e.rest.length ≤ ts.length then
      let r ← readBlockEntries handles e.anchors e.rest
      return { r with part := e.part :: r.part }
    else none
  | .blockEnd :: ts => some ⟨[], ts, a⟩
  | _ => none
termination_by ts => 4 * ts.length

/-- Reads an item of a flow sequence. A key mark makes it a mapping with one entry; without a
key it also uses up the mark that stands in place of the key. -/
def readFlowItem (handles : Handles) (a : Anchors) : List Token → Option (Reading Node)
  | .key :: .value :: ts | .key :: .comma :: ts | .key :: .flowSequenceEnd :: ts => do
    let v ← readValue handles .flow a ts
    return { v with part := .mapping [(.empty, v.part)] }
  | .key :: ts => do
    let e ← readPair handles .flow a ts
    return ⟨.mapping [e.part], e.rest, e.anchors⟩
  | ts => read handles .flow .bare a ts
termination_by ts => 4 * ts.length + 2

def readFlowItems (handles : Handles) (a : Anchors) :
    List Token → Option (Reading (List Node))
  | .flowSequenceEnd :: ts => some ⟨[], ts, a⟩
  | ts => do
    let n ← readFlowItem handles a ts
    match n.rest with
    | .flowSequenceEnd :: rest => return ⟨[n.part], rest, n.anchors⟩
    | .comma :: rest =>
      if rest.length < ts.length then
        let r ← readFlowItems handles n.anchors rest
        return { r with part := n.part :: r.part }
      else none
    | _ => none
termination_by ts => 4 * ts.length + 3

/-- Reads an entry of a flow mapping. Without a key mark it has no value. -/
def readFlowEntry (handles : Handles) (a : Anchors) :
    List Token → Option (Reading (Node × Node))
  | .key :: ts => readPair handles .flow a ts
  | ts => do
    let k ← read handles .flow .bare a ts
    return { k with part := (k.part, .empty) }
termination_by ts => 4 * ts.length + 2

def readFlowEntries (handles : Handles) (a : Anchors) :
    List Token → Option (Reading (List (Node × Node)))
  | .flowMappingEnd :: ts => some ⟨[], ts, a⟩
  | ts => do
    let e ← readFlowEntry handles a ts
    match e.rest with
    | .flowMappingEnd :: rest => return ⟨[e.part], rest, e.anchors⟩
    | .comma :: rest =>
      if rest.length < ts.length then
        let r ← readFlowEntries handles e.anchors rest
        return { r with part := e.part :: r.part }
      else none
    | _ => none
termination_by ts => 4 * ts.length + 3

end

end Node

structure Document where
  root : Node
  anchors : Anchors

namespace Document

/-- The document of a text without content. -/
def empty : Document := ⟨.empty, .empty⟩

def spanDirectives : List Token → List Directive × List Token
  | .directive d :: ts =>
    let (ds, rest) := spanDirectives ts
    (d :: ds, rest)
  | ts => ([], ts)

def versions (ds : List Directive) : List (Nat × Nat) :=
  ds.filterMap fun
    | .version major minor => some (major, minor)
    | .handle .. => none

def handles (ds : List Directive) : Node.Handles :=
  ds.filterMap fun
    | .version .. => none
    | .handle name tag => some (name, tag)

/-- One version at most, which is 1.1 or 1.2, and one meaning for each handle. -/
def areSound (ds : List Directive) : Bool :=
  (versions ds).length ≤ 1 && (versions ds).all ([(1, 1), (1, 2)].contains ·) &&
    decide ((handles ds).map (·.1)).Nodup

/-- Reads a document up to the mark of its end. -/
def read? : List Token → Option (Reading Node)
  | ts =>
    match spanDirectives ts with
    | (ds, .documentStart :: rest) =>
      if !areSound ds then none
      else
        match rest with
        | [] | .directive _ :: _ | .documentStart :: _ | .documentEnd :: _ =>
          some ⟨.empty, rest, .empty⟩
        | ts => Node.read (handles ds ++ Tag.standardHandles) .block .bare .empty ts
    | ([], ts) => Node.read Tag.standardHandles .block .bare .empty ts
    | _ => none

def ofTokens? : List Token → Option Document
  | [] => some empty
  | ts => do
    let r ← read? ts
    if r.rest.all (· = .documentEnd) then return ⟨r.part, r.anchors⟩ else none

def ofText? (text : String) : Option Document := do ofTokens? (← Token.ofText? text)

def scalar? (d : Document) : Node → Option Scalar
  | .scalar s => some s
  | .reference n => d.anchors.target? n
  | .sequence _ => none
  | .mapping _ => none

def entries? (d : Document) : Option (List (Node × Node)) :=
  match d.root with
  | .mapping entries => some entries
  | .scalar s => if s.style = .plain ∧ s.text = [] then some [] else none
  | _ => none

end Document

end TrustPermit.Yaml
