import Rcc.Storage.Table

/-!
# Rcc.Precompiled.Common

What the precompiled contracts share: how a call ends when it does not return, and the hex text of
hashes and addresses (`libdevcore/CommonData.cpp`, `libdevcore/FixedHash.h`).
-/

namespace Rcc.Precompiled

open Storage (Address lexicalCast fromHexChar)

/-- What a call ends with when it does not return. `outOfRange` is an access past the end of a
container. -/
inductive Fault where
  | precompiledException (what : String)
  | badLexicalCast
  | divisionByZero
  | outOfRange
  deriving DecidableEq

/-- `boost::lexical_cast<int64_t>`. -/
def castInt64 (s : String) : Except Fault Int :=
  match lexicalCast s with
  | some n => .ok n
  | none => .error .badLexicalCast

/-- `FixedHash<N>(fromHex(s))`: a bad digit makes `fromHex` empty, and another number of bytes
than `N` makes the hash zero. -/
def fixedHash (N : Nat) (s : String) : Nat :=
  let digits := match s.toList with
    | '0' :: 'x' :: ds => ds
    | ds => ds
  match digits.mapM fromHexChar with
  | some ds => if (ds.length + 1) / 2 = N then ds.foldl (fun n d => 16 * n + d) 0 else 0
  | none => 0

/-- `toHex` of a hash of `N` bytes. -/
def toHex (N n : Nat) : String := String.ofList ((Nat.toDigits 16 n).leftpad (2 * N) '0')

def hexPrefixed (a : Address) : String := "0x" ++ toHex 20 a.val

end Rcc.Precompiled
