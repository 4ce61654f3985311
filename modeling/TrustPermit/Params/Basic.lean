import TrustPermit.Rate

/-! # Parameters

The knobs of the engine that governance sets. Every one has a default.
-/

namespace TrustPermit

structure Params where
  /-- Share of every fee that goes into trust deposits. -/
  depositRate : Rate
  bondDenom : String
  /-- Module account that holds escrowed fees. -/
  moduleAccount : String
  /-- Bound on the hops of a walk along validators. -/
  maxChainDepth : Nat
  defaultPageSize : Nat
  maxPageSize : Nat
  deriving DecidableEq

/-- The first constraint that parameters break. -/
inductive ParamsFault where
  | rateAboveOne (rate : Rate)
  | emptyDenom
  | emptyModule
  | zeroDepth
  | pageSize
  deriving DecidableEq

namespace ParamsFault

def field : ParamsFault → String
  | rateAboveOne _ => "trust_deposit_rate"
  | emptyDenom => "bond_denom"
  | emptyModule => "module_account"
  | zeroDepth => "max_validator_chain_depth"
  | pageSize => "default_response_max_size"

def reason : ParamsFault → String
  | rateAboveOne rate => rate.toText ++ " is above 1"
  | emptyDenom => "must not be empty"
  | emptyModule => "must not be empty"
  | zeroDepth => "must be at least 1"
  | pageSize => "must be between 1 and max_response_max_size"

def message (f : ParamsFault) : String := "invalid param `" ++ f.field ++ "`: " ++ f.reason

end ParamsFault

namespace Params

def standard : Params where
  depositRate := ⟨200000000000000000, by decide⟩
  bondDenom := "uvna"
  moduleAccount := "perm"
  maxChainDepth := 32
  defaultPageSize := 64
  maxPageSize := 1024

def fault? (p : Params) : Option ParamsFault :=
  if !p.depositRate.isAtMostOne then some (.rateAboveOne p.depositRate)
  else if p.bondDenom.isEmpty then some .emptyDenom
  else if p.moduleAccount.isEmpty then some .emptyModule
  else if p.maxChainDepth = 0 then some .zeroDepth
  else if p.defaultPageSize = 0 ∨ p.maxPageSize < p.defaultPageSize then some .pageSize
  else none

def check (p : Params) : Except ParamsFault Unit :=
  match p.fault? with
  | some f => .error f
  | none => .ok ()

end Params

end TrustPermit
