import TileKernel.Binary64.Basic

/-!
# Arithmetic and conversions on 64-bit floating-point words

Each operation computes the exact result from the operands' views and rounds it once to the
nearest word, ties to even, which is the IEEE rule for `+`, `-` and `*`. The special values follow
the same standard: NaN absorbs everything, opposite infinities cancel to NaN, an exact zero sum is
`+0` unless both addends are `-0`, and a product's sign is the exclusive or of the signs.

The conversions are the ones a literal needs: the nearest word to an integer, the word rounded
through the 32-bit format and back, and truncation toward zero into the 64-bit signed range,
saturating at its ends with NaN going to 0.
-/

set_option autoImplicit false

namespace TileKernel.Binary64

/-- A signed exact value `±m * 2 ^ q` as an integer numerator over the power `2 ^ q`. -/
def signedNum (neg : Bool) (m : Nat) : Int := if neg then -(m : Int) else m

/-- The sum of two words. -/
def add (x y : Binary64) : Binary64 :=
  match x.view, y.view with
  | .nan, _ => nan
  | _, .nan => nan
  | .inf a, .inf b => if a == b then inf a else nan
  | .inf a, _ => inf a
  | _, .inf b => inf b
  | .finite a m p, .finite b n q =>
    let r := min p q
    let s := signedNum a (m * Nat.pow 2 (p - r).toNat) + signedNum b (n * Nat.pow 2 (q - r).toNat)
    if s = 0 then zero (a && b && m == 0 && n == 0)
    else ofExact (s < 0) s.natAbs 1 r

/-- The difference of two words. -/
def sub (x y : Binary64) : Binary64 := add x y.negate

/-- The product of two words. -/
def mul (x y : Binary64) : Binary64 :=
  match x.view, y.view with
  | .nan, _ => nan
  | _, .nan => nan
  | .inf a, .inf b => inf (a != b)
  | .inf a, .finite b n _ => if n = 0 then nan else inf (a != b)
  | .finite a m _, .inf b => if m = 0 then nan else inf (a != b)
  | .finite a m p, .finite b n q => ofExact (a != b) (m * n) 1 (p + q)

/-- The place of a non-NaN word in the order of values: both zeros share 0, and larger
magnitudes lie further from it on the side of their sign. -/
def orderKey (x : Binary64) : Int :=
  let mag := (x.bits &&& 0x7FFFFFFFFFFFFFFF).toNat
  if x.neg then -(mag : Int) else mag

/-- `x < y` as values; false when either is NaN. -/
def lt (x y : Binary64) : Bool := !x.isNaN && !y.isNaN && decide (x.orderKey < y.orderKey)

/-- Equality of values: `+0` equals `-0`, and a NaN equals nothing. -/
def eqv (x y : Binary64) : Bool := !x.isNaN && !y.isNaN && x.orderKey == y.orderKey

/-- The larger of two words, ignoring a NaN operand; of two equal values (such as `-0` and `+0`)
the second. -/
def maxNum (x y : Binary64) : Binary64 :=
  if x.isNaN then y else if y.isNaN then x else if lt y x then x else y

/-- The smaller of two words, ignoring a NaN operand; of two equal values (such as `-0` and `+0`)
the second. -/
def minNum (x y : Binary64) : Binary64 :=
  if x.isNaN then y else if y.isNaN then x else if lt x y then x else y

/-- Whether the word is a value other than zero (a NaN counts as non-zero). -/
def isNonzero (x : Binary64) : Bool := !(eqv x (zero false))

/-- The nearest word to an integer. -/
def ofInt (i : Int) : Binary64 := ofExact (i < 0) i.natAbs 1 0

/-- The least and greatest 64-bit signed integers. -/
def int64Min : Int := -((Nat.pow 2 63 : Nat) : Int)
def int64Max : Int := ((Nat.pow 2 63 : Nat) : Int) - 1

/-- Truncation toward zero into the 64-bit signed range: values beyond it give its ends and NaN
gives 0. -/
def truncSat (x : Binary64) : Int :=
  match x.view with
  | .nan => 0
  | .inf neg => if neg then int64Min else int64Max
  | .finite neg m q =>
    let t : Nat := if 0 ≤ q then m * Nat.pow 2 q.toNat else m / Nat.pow 2 (-q).toNat
    let v := signedNum neg t
    if v < int64Min then int64Min else if int64Max < v then int64Max else v

/-- The word rounded to the nearest 32-bit value (ties to even, overflow to infinity) and read
back; NaN, infinities and zeros stay as they are. -/
def roundSingle (x : Binary64) : Binary64 :=
  match x.view with
  | .finite neg m q =>
    if m = 0 then x else
    match single.round m 1 q with
    | some (n, u) => encode neg n u
    | none => inf neg
  | _ => x

end TileKernel.Binary64
