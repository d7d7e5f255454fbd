import TileKernel.Error
import TileKernel.Fault

/-!
# Shared-memory address swizzles

A swizzle rewrites the `bits`-wide field of an element offset that starts at bit `base`, using the
field `shift` bits higher: by exclusive or, or by adding or subtracting it modulo the field width.
The source field is never written, so each swizzle is a bijection on every range whose length is a
multiple of its `span`, and `Swizzle.inverse` undoes it (exclusive or is its own inverse, adding
and subtracting undo each other). `Swizzle.make` refuses fields that are empty, that overlap their
source, or that reach past bit 62; `Swizzle.build` does the same with the field's end counted in
a 32-bit word, which faults when it overflows.
-/

set_option autoImplicit false

namespace TileKernel

/-- How the target field is combined with the source field. -/
inductive SwizzleKind where
  | xor
  | rotate
  | rotateInverse
deriving DecidableEq, Repr, Inhabited

/-- An address permutation of element offsets. -/
structure Swizzle where
  kind : SwizzleKind
  bits : Nat
  base : Nat
  shift : Nat
deriving DecidableEq, Repr, Inhabited

/-- The kind of a name: `xor`, `rotate` or `rotate_inverse`. -/
def SwizzleKind.ofName? : String → Option SwizzleKind
  | "xor" => some .xor
  | "rotate" => some .rotate
  | "rotate_inverse" => some .rotateInverse
  | _ => none

/-- The new field from the field and the source, both below the width `w`: their exclusive
or, their sum modulo `w`, or their difference modulo `w`. -/
def SwizzleKind.combine (k : SwizzleKind) (w field source : Nat) : Nat :=
  match k with
  | .xor => field ^^^ source
  | .rotate => (field + source) % w
  | .rotateInverse => (field + w - source) % w

/-- The combination that undoes this one: exclusive or undoes itself, adding and subtracting
undo each other. -/
def SwizzleKind.inverse : SwizzleKind → SwizzleKind
  | .xor => .xor
  | .rotate => .rotateInverse
  | .rotateInverse => .rotate

namespace Swizzle

/-- A swizzle whose field is non-empty, lies below its source, and ends below bit 63. -/
def make (kind : SwizzleKind) (bits base shift : Nat) : Except KernelError Swizzle :=
  if bits = 0 ∨ shift < bits ∨ 63 < base + shift + bits then
    .error (.invalidLayout s!"swizzle bits={bits} base={base} shift={shift} overlaps itself")
  else .ok ⟨kind, bits, base, shift⟩

/-- `make`, with the field's end computed in 32-bit words: once the field is known to be
non-empty and below its source, an end of `2 ^ 32` or more faults instead of being refused. -/
def build (kind : SwizzleKind) (bits base shift : Nat) : Checked (Except KernelError Swizzle) := do
  if bits = 0 ∨ shift < bits then return make kind bits base shift
  let reach ← Word.u32.add base shift
  let _ ← Word.u32.add reach bits
  return make kind bits base shift

/-- The field bits at `base`, `bits` wide. -/
def field (s : Swizzle) (x : Nat) : Nat := (x >>> s.base) % Nat.pow 2 s.bits

/-- The source bits, `shift` above the field and as wide. -/
def source (s : Swizzle) (x : Nat) : Nat := (x >>> (s.base + s.shift)) % Nat.pow 2 s.bits

/-- The permuted offset: the field replaced by its combination with the source. -/
def apply (s : Swizzle) (x : Nat) : Nat :=
  x - s.field x * Nat.pow 2 s.base +
    s.kind.combine (Nat.pow 2 s.bits) (s.field x) (s.source x) * Nat.pow 2 s.base

/-- `apply` computed with shifts and masks instead of powers, which is what accesses use:
`Swizzle.applyBits_eq` shows the two agree. -/
def applyBits (s : Swizzle) (x : Nat) : Nat :=
  let mask := (1 <<< s.bits) - 1
  let field := (x >>> s.base) &&& mask
  let source := (x >>> (s.base + s.shift)) &&& mask
  x - (field <<< s.base) + (s.kind.combine (1 <<< s.bits) field source <<< s.base)

/-- The swizzle that undoes this one. -/
def inverse (s : Swizzle) : Swizzle := { s with kind := s.kind.inverse }

/-- Exclusive-or swizzles are their own inverse. -/
def isSelfInverse (s : Swizzle) : Bool := s.kind == .xor

/-- Elements kept contiguous by the permutation. -/
def chunkElems (s : Swizzle) : Nat := Nat.pow 2 s.base

/-- The smallest block the permutation maps onto itself. -/
def span (s : Swizzle) : Nat := Nat.pow 2 (s.base + s.bits)

/-- Whether the permutation stays inside `[0, extent)`. -/
def isBijectiveOn (s : Swizzle) (extent : Nat) : Bool := 0 < extent && extent % s.span == 0

/-- The printed form `xor(bits=2, base=3, shift=3)`, with `rot` and `rot_inv` for the others. -/
def text (s : Swizzle) : String :=
  let kind := match s.kind with
    | .xor => "xor"
    | .rotate => "rot"
    | .rotateInverse => "rot_inv"
  s!"{kind}(bits={s.bits}, base={s.base}, shift={s.shift})"

end Swizzle
end TileKernel
