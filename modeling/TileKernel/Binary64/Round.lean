/-!
# Rounding exact values into a binary interchange format

A binary format keeps `precision` significand bits; below its normal range every value is a
multiple of one least quantum `2 ^ minExp`, and values from `2 ^ overflowExp` up are out of range.
`Format.round` takes a non-negative rational `num / den * 2 ^ e` to the nearest value of the format,
ties to the even significand, and answers it as `n * 2 ^ u` with `u` the quantum at that magnitude
(`none` when the rounded value leaves the range). Every computation is on `Nat` and `Int`, so the
result is exact and can be reasoned about without any machine arithmetic.
-/

set_option autoImplicit false

namespace TileKernel.Binary64

/-- A binary interchange format: significand bits, exponent of the least subnormal quantum, and
the power of two from which values overflow. -/
structure Format where
  precision : Nat
  minExp : Int
  overflowExp : Int

/-- The 64-bit format: 53 significand bits, quanta down to `2 ^ -1074`, overflow at `2 ^ 1024`. -/
def double : Format := ⟨53, -1074, 1024⟩

/-- The 32-bit format: 24 significand bits, quanta down to `2 ^ -149`, overflow at `2 ^ 128`. -/
def single : Format := ⟨24, -149, 128⟩

/-- `num * 2 ^ s ≥ den`, decided on naturals. -/
def geScaled (num den : Nat) (s : Int) : Bool :=
  if 0 ≤ s then den ≤ num * Nat.pow 2 s.toNat else den * Nat.pow 2 (-s).toNat ≤ num

/-- The exponent of the leading bit of `num / den * 2 ^ e`, for `num` and `den` positive. -/
def floorLog2 (num den : Nat) (e : Int) : Int :=
  let t := (Nat.log2 num : Int) - Nat.log2 den + e
  if geScaled num den (e - t) then t else t - 1

/-- `a / b` rounded to the nearest natural, a tie going to the even one. -/
def divRoundEven (a b : Nat) : Nat :=
  let q := a / b
  let r := a % b
  if b < 2 * r || (2 * r == b && q % 2 == 1) then q + 1 else q

/-- The nearest value of the format to `num / den * 2 ^ e` (ties to even), as `(n, u)` meaning
`n * 2 ^ u`; `none` when it reaches the overflow power. A zero numerator gives `n = 0`. -/
def Format.round (f : Format) (num den : Nat) (e : Int) : Option (Nat × Int) :=
  if num = 0 then some (0, f.minExp) else
  let t := floorLog2 num den e
  let u := max (t - (f.precision - 1 : Nat)) f.minExp
  let a := num * Nat.pow 2 (e - u).toNat
  let b := den * Nat.pow 2 (u - e).toNat
  let n := divRoundEven a b
  if f.overflowExp ≤ u || Nat.pow 2 (f.overflowExp - u).toNat ≤ n then none else some (n, u)

end TileKernel.Binary64
