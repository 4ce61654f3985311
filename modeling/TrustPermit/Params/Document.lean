import TrustPermit.Params.Basic
import TrustPermit.Yaml.Document

/-! # Parameter documents

Operators write parameters as a YAML mapping. A parameter left out has its default, an unknown
key counts for nothing, and a known key may stand once.
-/

namespace TrustPermit

open Text Yaml

namespace ParamsDocument

/-- A whole number with an optional plus sign, in base 10 without leading zeros, or in base 16,
8 or 2 after a mark. -/
def wholeNumber? (cs : List Char) : Option Nat :=
  let cs := match cs with
    | '+' :: rest => rest
    | cs => cs
  match cs with
  | '0' :: 'x' :: rest => valueIn? 16 rest
  | '0' :: 'o' :: rest => valueIn? 8 rest
  | '0' :: 'b' :: rest => valueIn? 2 rest
  | '0' :: _ :: _ => none
  | cs => if !cs.isEmpty && cs.all isDigit then some (digitsValue cs) else none

def text (s : Scalar) : String := .ofList s.text

/-- A number is plain, or literal under the tag of whole numbers. -/
def mayBeNumber (s : Scalar) : Bool :=
  s.style = .plain || s.style = .literal && s.tag = some Tag.wholeNumber

def count? (s : Scalar) : Option Nat := do
  let n ← if mayBeNumber s then wholeNumber? s.text else none
  if n < countBound then some n else none

def rate? (s : Scalar) : Option Rate := (Rate.parse (text s)).toOption

/-- The keys with their values. Only a scalar can be a key. -/
def entries? (d : Document) : Option (List (String × Node)) := do
  (← d.entries?).mapM fun (key, value) => return (text (← d.scalar? key), value)

/-- The value of a parameter: its default if the key is missing. -/
def parameter? {α : Type} (d : Document) (entries : List (String × Node)) (key : String)
    (read : Scalar → Option α) (standard : α) : Option α :=
  match entries.filter (·.1 = key) with
  | [] => some standard
  | [(_, value)] => (d.scalar? value).bind read
  | _ => none

end ParamsDocument

namespace Params

open ParamsDocument in
/-- Reads a document without checking the constraints. -/
def ofYaml? (d : Document) : Option Params := do
  let es ← entries? d
  return {
    depositRate := ← parameter? d es "trust_deposit_rate" rate? standard.depositRate
    bondDenom := ← parameter? d es "bond_denom" (some ∘ text) standard.bondDenom
    moduleAccount := ← parameter? d es "module_account" (some ∘ text) standard.moduleAccount
    maxChainDepth := ←
      parameter? d es "max_validator_chain_depth" count? standard.maxChainDepth
    defaultPageSize := ←
      parameter? d es "default_response_max_size" count? standard.defaultPageSize
    maxPageSize := ← parameter? d es "max_response_max_size" count? standard.maxPageSize }

/-- Why a document yields no parameters. -/
inductive DocumentFault where
  | unreadable
  | broken (fault : ParamsFault)
  deriving DecidableEq

/-- Sound parameters from a document. -/
def ofDocument (text : String) : Except DocumentFault Params :=
  match (Document.ofText? text).bind ofYaml? with
  | none => .error .unreadable
  | some p =>
    match p.fault? with
    | some f => .error (.broken f)
    | none => .ok p

end Params

end TrustPermit
