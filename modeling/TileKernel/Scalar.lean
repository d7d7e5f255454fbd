import TileKernel.Binary64.Arith
import TileKernel.Binary64.Shortest
import TileKernel.Fault

/-!
# Element types and literal values

A `Scalar` is an element type: a kind (boolean, signed or unsigned integer, float, brain float)
and a width in bytes. `Scalar.promote` is the common type of two operands: a float beats an
integer, otherwise the wider type wins and a tie keeps the first.

A `Literal` is a compile-time constant. `Literal.cast` converts it to the representation of a
type: to a boolean by comparing with zero; to a float through its value as a double, rounded
through the 32-bit format when the type is four bytes wide; to an integer by truncating a float
toward zero (saturating at the 64-bit ends, NaN giving 0) and wrapping to the type's width, signed
types sign-extending their top bit. Widths of eight bytes and more keep the 64-bit value. A signed
type of no bytes has no top bit: the position of it underflows its 32-bit word and the cast
faults.
-/

set_option autoImplicit false

namespace TileKernel

/-- The kind of an element type. -/
inductive ScalarKind where
  | bool
  | sint
  | uint
  | float
  | bfloat
deriving DecidableEq, Repr, Inhabited

/-- An element type: kind and width in bytes. -/
structure Scalar where
  kind : ScalarKind
  width : Nat
deriving DecidableEq, Repr, Inhabited

/-- The kind of a name: `bool`, `sint`, `uint`, `float` or `bfloat`. -/
def ScalarKind.ofName? : String → Option ScalarKind
  | "bool" => some .bool
  | "sint" => some .sint
  | "uint" => some .uint
  | "float" => some .float
  | "bfloat" => some .bfloat
  | _ => none

namespace Scalar

def bool : Scalar := ⟨.bool, 1⟩
def i8 : Scalar := ⟨.sint, 1⟩
def u8 : Scalar := ⟨.uint, 1⟩
def i16 : Scalar := ⟨.sint, 2⟩
def u16 : Scalar := ⟨.uint, 2⟩
def i32 : Scalar := ⟨.sint, 4⟩
def u32 : Scalar := ⟨.uint, 4⟩
def i64 : Scalar := ⟨.sint, 8⟩
def u64 : Scalar := ⟨.uint, 8⟩
def f16 : Scalar := ⟨.float, 2⟩
def bf16 : Scalar := ⟨.bfloat, 2⟩
def f32 : Scalar := ⟨.float, 4⟩
def f64 : Scalar := ⟨.float, 8⟩

/-- Size of one element in bytes. -/
def bytes (s : Scalar) : Nat := s.width

/-- Float and brain-float types. -/
def isFloat (s : Scalar) : Bool :=
  match s.kind with
  | .float | .bfloat => true
  | _ => false

/-- The type both operands convert to without losing range: floats win over integers, otherwise
the wider type wins and a tie keeps `s`. -/
def promote (s o : Scalar) : Scalar :=
  match s.isFloat, o.isFloat with
  | true, false => s
  | false, true => o
  | _, _ => if s.width < o.width then o else s

/-- The width in bits, counted in a byte: types of 32 bytes and more fault. -/
def bits (s : Scalar) : Checked Nat := Word.byte.mul s.width 8

/-- The name of a type, with its width in bits: `bool`, `i32`, `u8`, `f16`, `bf16`. A type other
than `bool` whose width in bits does not fit a byte has no name: naming it faults. -/
def name (s : Scalar) : Checked String :=
  match s.kind with
  | .bool => pure "bool"
  | .sint => return s!"i{← s.bits}"
  | .uint => return s!"u{← s.bits}"
  | .float => return s!"f{← s.bits}"
  | .bfloat => return s!"bf{← s.bits}"

/-- The type of a name, as `name` writes it for the thirteen standard types. -/
def ofName? : String → Option Scalar
  | "bool" => some bool
  | "i8" => some i8
  | "u8" => some u8
  | "i16" => some i16
  | "u16" => some u16
  | "i32" => some i32
  | "u32" => some u32
  | "i64" => some i64
  | "u64" => some u64
  | "f16" => some f16
  | "bf16" => some bf16
  | "f32" => some f32
  | "f64" => some f64
  | _ => none

end Scalar

/-- A compile-time constant. -/
inductive Literal where
  | float (v : Binary64)
  | int (v : Int)
  | bool (v : Bool)
deriving DecidableEq, Repr, Inhabited

namespace Literal

/-- Literal floats are written with the fewest digits that read back; leading-digit exponents
from -4 to 15 positionally with at least one fractional digit, others as `1e16` or `1.5e-7`; of
two equally near shortest decimals the upper one. -/
def floatStyle : Binary64.DecimalStyle :=
  { plainFrom := -4, plainBelow := 16, tie := .up, nanText := "NaN", infText := "inf" }

/-- The text of a float in the literal style. -/
def floatText (v : Binary64) : String := Binary64.text floatStyle v

/-- The numeric value as a double; `true` is 1. -/
def asFloat : Literal → Binary64
  | .float v => v
  | .int v => Binary64.ofInt v
  | .bool v => Binary64.ofInt (if v then 1 else 0)

/-- Wraps an integer to a type of `width` bytes: below eight bytes the low `8 * width` bits are
kept, sign-extended for signed types; from eight bytes on the value is kept. A signed type reads
the top bit at `8 * width - 1` in a 32-bit word, so a signed type of no bytes faults. -/
def wrapInt (v : Int) (s : Scalar) : Checked Int := do
  let bits := s.width * 8
  if 64 ≤ bits then return v
  let raw := v % (Nat.pow 2 bits : Nat)
  if s.kind = .sint then
    let top ← Word.u32.sub bits 1
    if (Nat.pow 2 top : Nat) ≤ raw then return raw - (Nat.pow 2 bits : Nat)
  return raw

/-- Converts a literal to the representation of a type; only wrapping to a signed type of no
bytes faults. -/
def cast (l : Literal) (s : Scalar) : Checked Literal :=
  match s.kind with
  | .bool =>
    pure (.bool (match l with
      | .float v => v.isNonzero
      | .int v => v != 0
      | .bool v => v))
  | .float | .bfloat =>
    let v := l.asFloat
    pure (.float (if s.width = 4 then v.roundSingle else v))
  | .sint | .uint =>
    let v := match l with
      | .float v => v.truncSat
      | .int v => v
      | .bool v => if v then 1 else 0
    return .int (← wrapInt v s)

/-- The kind word of a literal: `float`, `int` or `bool`. -/
def kindName : Literal → String
  | .float _ => "float"
  | .int _ => "int"
  | .bool _ => "bool"

/-- The text of a literal: floats in `floatStyle`, integers in decimal, booleans as words. -/
def text : Literal → String
  | .float v => floatText v
  | .int v => toString v
  | .bool v => if v then "true" else "false"

/-- Equality of literals as values: floats compare as numbers, so a NaN differs from itself and
the two zeros are equal; literals of different kinds differ. -/
def sameValue : Literal → Literal → Bool
  | .float a, .float b => Binary64.eqv a b
  | .int a, .int b => a == b
  | .bool a, .bool b => a == b
  | _, _ => false

end Literal
end TileKernel
