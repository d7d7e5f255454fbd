import TileKernel.Layout.Basic
import TileKernel.Swizzle

/-!
# Buffers

A buffer is a logical tensor: a name, a shape, an element type and a memory scope, fixed when it
is declared, plus the layout and swizzle that lowering attaches once. Buffers live in the kernel's
arena and are referred to by `BufferId`, so attaching a layout is one update that every op
referring to the buffer sees.
-/

set_option autoImplicit false

namespace TileKernel

/-- The handle of a buffer: its position in the kernel's buffer arena. -/
structure BufferId where
  idx : Nat
deriving DecidableEq, Repr, Inhabited, Hashable

/-- The memory space a buffer lives in. -/
inductive Scope where
  /-- Device memory. -/
  | global
  /-- Banked scratchpad shared by the lanes of a block. -/
  | shared
  /-- Register tile distributed over the lanes of a warp. -/
  | fragment
  /-- Per-lane private memory. -/
  | local
deriving DecidableEq, Repr, Inhabited

namespace Scope

/-- Whether buffers of the scope are addressed by linear offsets. -/
def isDense (s : Scope) : Bool := s != .fragment

/-- The scope's name: `global`, `shared`, `fragment`, `local`. -/
def name : Scope → String
  | .global => "global"
  | .shared => "shared"
  | .fragment => "fragment"
  | .local => "local"

/-- The scope's name as a title: `Global`, `Shared`, `Fragment`, `Local`. -/
def title : Scope → String
  | .global => "Global"
  | .shared => "Shared"
  | .fragment => "Fragment"
  | .local => "Local"

/-- The scope of a name, as `name` writes it. -/
def ofName? : String → Option Scope
  | "global" => some .global
  | "shared" => some .shared
  | "fragment" => some .fragment
  | "local" => some .local
  | _ => none

end Scope

/-- A logical tensor. -/
structure Buffer where
  name : String
  shape : Shape
  dtype : Scalar
  scope : Scope
  /-- A layout the front end asks for. -/
  hint : Option Layout := none
  /-- Forbids materializing copies on behalf of this buffer. -/
  noCopy : Bool := false
  /-- Forbids swizzling this buffer. -/
  noSwizzle : Bool := false
  /-- On pipeline ring instances: the logical buffer and the instance number. -/
  instanceOf : Option (BufferId × Nat) := none
  layout : Option Layout := none
  swizzle : Option Swizzle := none
deriving DecidableEq, Repr, Inhabited

namespace Buffer

/-- Number of elements, a 64-bit count. -/
def elements (b : Buffer) : Checked Nat := b.shape.count

/-- Size in bytes, a 64-bit count. -/
def sizeBytes (b : Buffer) : Checked Nat := do Word.u64.mul (← b.elements) b.dtype.bytes

/-- A fresh declaration with the same shape, type, scope and flags, under a new name, with no
hint, layout, swizzle or ring membership. -/
def renamed (b : Buffer) (name : String) : Buffer :=
  { name, shape := b.shape, dtype := b.dtype, scope := b.scope, noCopy := b.noCopy,
    noSwizzle := b.noSwizzle }

end Buffer
end TileKernel
