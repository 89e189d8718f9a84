import Rcc.Abi.Codec

/-!
# Rcc.Dag.Criticals

Which transactions of a block may be executed in parallel, and on which fields they conflict:
`ExecutiveContext::getTxCriticals` and the ABI reader it calls.

Of the two options in the answer the inner one is the pointer of the source: it is null for a
transaction that cannot be executed in parallel, which is not the same as a list without
critical fields. The outer one is `none` where the source does not come back: it reads through a
null reference, on call data that is too short for a selector, or the reader throws.
-/

namespace Rcc.Dag

abbrev Address := Nat

abbrev Bytes := List UInt8

/-- What is read of a transaction. -/
structure Tx where
  isCreation : Bool
  receiveAddress : Address
  data : Bytes
deriving DecidableEq, Repr

/-- What is called of a precompiled contract. -/
structure Precompiled where
  isParallelPrecompiled : Bool
  getParallelTag : Bytes → Option (List String)

structure ParallelConfig where
  functionName : String
  criticalSize : Nat

/-- The types a critical parameter may have. -/
inductive AbiType
  | int
  | uint
  | address
  | string

def AbiType.ofName (type : String) : Option AbiType :=
  if type = "int" ∨ type = "int256" then some .int
  else if type = "uint" ∨ type = "uint256" then some .uint
  else if type = "address" then some .address
  else if type = "string" then some .string
  else none

def AbiType.ty : AbiType → Abi.Ty
  | .int => .s256
  | .uint => .u256
  | .address => .address
  | .string => .string

/-- The parts of the execution context that decide the critical fields. The configurations are
read from the tables as they stand before the block, through a cache that keeps the first
answer for each contract and selector. -/
structure Context where
  getPrecompiled : Address → Option Precompiled
  getParallelConfig : Address → Nat → Option ParallelConfig
  /-- The parameter types in a function signature, if `ABIFunc::parser` accepts it. -/
  parser : String → Option (List String)
  /-- A value as text. -/
  text : (t : AbiType) → t.ty.Value → String
  /-- An address as hexadecimal text. -/
  hex : Address → String

/-- The first four bytes of the call data, most significant first. -/
def getParamFunc (param : Bytes) : Option Nat :=
  if param.length < 4 then none
  else some ((param.take 4).foldl (fun func b => 256 * func + b.toNat) 0)

/-- The width of a parameter in the call data. -/
def maxByteLength : Nat := 32

/-- The value at an offset of the call data, or, of a string, at the offset that is there. -/
def deserialise (data : Bytes) (offset : Nat) : (t : AbiType) → Option t.ty.Value
  | .int => Abi.deserialise .s256 data offset
  | .uint => Abi.deserialise .u256 data offset
  | .address => Abi.deserialise .address data offset
  | .string => do
    let stringOffset ← Abi.deserialiseU256 data offset
    Abi.deserialiseBytes data (Abi.sizeT stringOffset)

def abiOutByFuncSelector (ctx : Context) (data : Bytes) :
    Nat → List String → Option (Option (List String))
  | _, [] => some (some [])
  | offset, type :: allTypes =>
    match AbiType.ofName type with
    | none => some none
    | some t => do
      let value ← deserialise data offset t
      let out ← abiOutByFuncSelector ctx data (offset + maxByteLength) allTypes
      return out.map (ctx.text t value :: ·)

def getTxCriticals (ctx : Context) (tx : Tx) : Option (Option (List String)) :=
  let tagged := fun critical => critical ++ ctx.hex tx.receiveAddress
  if tx.isCreation then some none
  else
    match ctx.getPrecompiled tx.receiveAddress with
    | some p =>
      if p.isParallelPrecompiled then do
        let tags ← p.getParallelTag tx.data
        return some (tags.map tagged)
      else some none
    | none => do
      let selector ← getParamFunc tx.data
      match ctx.getParallelConfig tx.receiveAddress selector with
      | none => return none
      | some config =>
        match ctx.parser config.functionName with
        | none => return none
        | some paramTypes =>
          let criticalSize := config.criticalSize % 2 ^ 64
          if paramTypes.length < criticalSize then return none
          let res ← abiOutByFuncSelector ctx (tx.data.drop 4) 0 (paramTypes.take criticalSize)
          return res.map (·.map tagged)

end Rcc.Dag
