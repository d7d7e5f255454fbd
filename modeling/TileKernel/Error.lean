import TileKernel.Shape

/-!
# Errors of kernel construction and checking

Every way in which building, editing or checking a kernel can fail is one constructor of
`KernelError`; `KernelError.message` gives its text. Handles name their arena
(`ArenaKind`) so that an out-of-range index can say which arena it missed.
-/

set_option autoImplicit false

namespace TileKernel

/-- The arena a handle indexes. -/
inductive ArenaKind where
  | buffer
  | op
  | loop
deriving DecidableEq, Repr

/-- The word for an arena in messages. -/
def ArenaKind.word : ArenaKind → String
  | .buffer => "buffer"
  | .op => "op"
  | .loop => "loop"

/-- Why an operation on a kernel failed. -/
inductive KernelError where
  /-- A handle index is outside its arena. -/
  | badHandle (kind : ArenaKind) (index size : Nat)
  /-- A buffer declaration is malformed or its name is taken. -/
  | invalidBuffer (name reason : String)
  /-- Adding a dependency edge would close a cycle. -/
  | dependencyCycle (op on : String)
  /-- The dependency graph is not acyclic. -/
  | cycle (visited total : Nat)
  /-- An op is placed before one of its dependencies. -/
  | dependencyOrder (op on : String)
  /-- An op's operands do not fit its kind. -/
  | operands (op reason : String)
  /-- A fragment does not fit the hardware's native tile or its buffer. -/
  | invalidFragment (reason : String)
  /-- A dense layout or swizzle description is malformed. -/
  | invalidLayout (reason : String)
  /-- A layout cannot be attached to the buffer. -/
  | layoutMismatch (buffer reason : String)
  /-- A buffer already carries a layout. -/
  | layoutAlreadyAttached (buffer : String)
  /-- A swizzle cannot be attached to the buffer. -/
  | swizzleMismatch (buffer reason : String)
  /-- An op mixes element types and no cast can make the conversion explicit. -/
  | implicitConversion (op : String) (input : Nat) (source target : String)
  /-- A buffer reached a later stage without a layout. -/
  | unresolved (buffer : String)
  /-- The op carries scheduling metadata and can no longer be rewired. -/
  | opFrozen (op : String)
  /-- The op is not placed in any live block of the kernel. -/
  | notPlaced (op : String)
  /-- A loop nest is malformed. -/
  | invalidLoop (name reason : String)
deriving DecidableEq, Repr

/-- The text of an error. -/
def KernelError.message : KernelError → String
  | .badHandle kind index size =>
    s!"{kind.word} handle index {index} out of bounds (arena size: {size})"
  | .invalidBuffer name reason => s!"invalid buffer `{name}`: {reason}"
  | .dependencyCycle op on => s!"dependency `{op}` -> `{on}` would create a cycle"
  | .cycle visited total => s!"dependency graph contains a cycle ({visited} of {total} ops ordered)"
  | .dependencyOrder op on => s!"op `{op}` runs before its dependency `{on}`"
  | .operands op reason => s!"invalid operands for `{op}`: {reason}"
  | .invalidFragment reason => s!"invalid fragment: {reason}"
  | .invalidLayout reason => s!"invalid layout: {reason}"
  | .layoutMismatch buffer reason => s!"cannot attach layout to `{buffer}`: {reason}"
  | .layoutAlreadyAttached buffer => s!"buffer `{buffer}` already has a layout"
  | .swizzleMismatch buffer reason => s!"cannot attach swizzle to `{buffer}`: {reason}"
  | .implicitConversion op input source target =>
    s!"`{op}` reads input {input} as {source} but computes in {target}, and no cast can stage it"
  | .unresolved buffer => s!"buffer `{buffer}` has no layout"
  | .opFrozen op => s!"op `{op}` is scheduled and can no longer be rewired"
  | .notPlaced op => s!"op `{op}` is not placed in the kernel body"
  | .invalidLoop name reason => s!"invalid loop `{name}`: {reason}"

end TileKernel
