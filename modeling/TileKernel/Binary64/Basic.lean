import TileKernel.Binary64.Round

/-!
# 64-bit floating-point values as words

A `Binary64` is the 64-bit IEEE encoding of a double: a sign bit, eleven exponent bits and 52
fraction bits. `Binary64.view` reads a word as NaN, a signed infinity, or a signed finite value
`m * 2 ^ q`; `Binary64.ofExact` writes the nearest word for a signed exact value
`num / den * 2 ^ e`, so every operation of the library is "compute exactly, then round once".
-/

set_option autoImplicit false

namespace TileKernel

/-- A double-precision floating-point value, kept as its 64-bit encoding. -/
structure Binary64 where
  bits : UInt64
deriving DecidableEq, Inhabited, Repr

namespace Binary64

/-- What a word stands for: NaN, a signed infinity, or the signed finite value `m * 2 ^ q`. -/
inductive View where
  | nan
  | inf (neg : Bool)
  | finite (neg : Bool) (m : Nat) (q : Int)
deriving DecidableEq, Repr

/-- The sign bit. -/
def neg (x : Binary64) : Bool := x.bits >>> 63 == 1

/-- The biased exponent field. -/
def expField (x : Binary64) : Nat := ((x.bits >>> 52) &&& 0x7FF).toNat

/-- The fraction field. -/
def fracField (x : Binary64) : Nat := (x.bits &&& 0xFFFFFFFFFFFFF).toNat

/-- The value a word encodes. Subnormals have exponent field 0 and quantum `2 ^ -1074`. -/
def view (x : Binary64) : View :=
  if x.expField = 2047 then
    if x.fracField = 0 then .inf x.neg else .nan
  else if x.expField = 0 then .finite x.neg x.fracField (-1074)
  else .finite x.neg (Nat.pow 2 52 + x.fracField) ((x.expField : Int) - 1075)

/-- The word of biased exponent `e`, fraction `f` and the given sign. -/
def ofFields (neg : Bool) (e f : Nat) : Binary64 :=
  ⟨(if neg then (1 : UInt64) <<< 63 else 0) ||| (e.toUInt64 <<< 52) ||| f.toUInt64⟩

/-- The quiet NaN that arithmetic produces. -/
def nan : Binary64 := ⟨0x7FF8000000000000⟩

/-- The infinity of the given sign. -/
def inf (neg : Bool) : Binary64 := ofFields neg 2047 0

/-- The zero of the given sign. -/
def zero (neg : Bool) : Binary64 := ofFields neg 0 0

/-- Whether the word is a NaN. -/
def isNaN (x : Binary64) : Bool := x.expField == 2047 && x.fracField != 0

/-- The word of a value `n * 2 ^ u` that the format holds exactly, with `u ≥ -1074` and
`n * 2 ^ u < 2 ^ 1024`. The significand is normalised to 53 bits; below `2 ^ -1022` the value
is subnormal and `n * 2 ^ (u + 1074)` is its fraction. -/
def encode (neg : Bool) (n : Nat) (u : Int) : Binary64 :=
  if n = 0 then zero neg else
  let l := Nat.log2 n
  let top := (l : Int) + u
  if -1022 ≤ top then
    let sig := if l ≤ 52 then n * Nat.pow 2 (52 - l) else n / Nat.pow 2 (l - 52)
    ofFields neg (top + 1023).toNat (sig - Nat.pow 2 52)
  else ofFields neg 0 (n * Nat.pow 2 (u + 1074).toNat)

/-- The word nearest to `±(num / den * 2 ^ e)`, ties to even; an out-of-range magnitude gives
the infinity of that sign. -/
def ofExact (neg : Bool) (num den : Nat) (e : Int) : Binary64 :=
  match double.round num den e with
  | some (n, u) => encode neg n u
  | none => inf neg

/-- Flips the sign bit. -/
def negate (x : Binary64) : Binary64 := ⟨x.bits ^^^ ((1 : UInt64) <<< 63)⟩

end Binary64
end TileKernel
