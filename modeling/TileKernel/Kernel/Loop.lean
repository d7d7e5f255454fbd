import TileKernel.Kernel.Op

/-!
# Loops and the kernel body

The kernel body is a list of statements: a top-level op or a counted loop. A loop's body is a
straight list of ops run once per iteration. Once the loop is software-pipelined it carries an
`Expansion`: a prologue run once, a steady block run `steadyTrips` times with counter `i`, an
epilogue run once, and the rings of rotating instances for the buffers it stages.
-/

set_option autoImplicit false

namespace TileKernel

/-- The handle of a loop: its position in the kernel's loop arena. -/
structure LoopId where
  idx : Nat
deriving DecidableEq, Repr, Inhabited, Hashable

/-- Rotating physical instances of one staged buffer; the first instance is the logical buffer. -/
structure Ring where
  logical : BufferId
  instances : List BufferId
deriving DecidableEq, Repr

/-- The instance used by a source iteration: the iteration modulo the ring's length. -/
def Ring.instance (r : Ring) (iteration : Nat) : BufferId :=
  r.instances[iteration % r.instances.length]?.getD r.logical

/-- A software-pipelined loop. -/
structure Expansion where
  depth : Nat
  steadyTrips : Nat
  prologue : List OpId
  steady : List OpId
  epilogue : List OpId
  rings : List Ring
deriving DecidableEq, Repr

/-- The ring of a buffer, if the expansion stages it. -/
def Expansion.ringOf (p : Expansion) (b : BufferId) : Option Ring := p.rings.find? (·.logical == b)

/-- A counted loop. -/
structure LoopNest where
  name : String
  /-- Trip count. -/
  extent : Nat
  /-- Declared pipeline depth. -/
  depth : Option Nat := none
  /-- The original iteration body. -/
  body : List OpId := []
  expansion : Option Expansion := none
deriving DecidableEq, Repr

/-- A top-level statement. -/
inductive Stmt where
  | op (h : OpId)
  | loop (l : LoopId)
deriving DecidableEq, Repr

/-- Where a live op sits. -/
inductive Block where
  | body
  | loop (l : LoopId)
  | prologue (l : LoopId)
  | steady (l : LoopId)
  | epilogue (l : LoopId)
deriving DecidableEq, Repr

/-- The loop of a block, if it is inside one. -/
def Block.loop? : Block → Option LoopId
  | .body => none
  | .loop l | .prologue l | .steady l | .epilogue l => some l

end TileKernel
