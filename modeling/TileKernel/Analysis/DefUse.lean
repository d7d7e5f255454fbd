import TileKernel.Kernel.Basic

/-!
# Def-use chains

`DefUse.build` walks the live ops of a kernel in program order and records every access of a
buffer: which op, through which operand (`Port`), and whether it reads and writes. An input is
read; an output is written, and read too when the op reads its output (accumulating products and
atomics). `DefUse.accessors` lists the distinct ops touching a buffer in program order.
-/

set_option autoImplicit false

namespace TileKernel

/-- The operand slot of an op. -/
inductive Port where
  | input (i : Nat)
  | output (i : Nat)
deriving DecidableEq, Repr

/-- The slot's name: `in0`, `out1`. -/
def Port.text : Port → String
  | .input i => s!"in{i}"
  | .output i => s!"out{i}"

/-- One access of a buffer by an op. -/
structure Use where
  op : OpId
  port : Port
  reads : Bool
  writes : Bool
deriving DecidableEq, Repr

/-- Every access of every buffer by the live ops, in program order. -/
structure DefUse where
  /-- The accessed buffer and the access, in program order. -/
  entries : List (BufferId × Use)
  /-- The live ops in program order. -/
  live : List OpId

namespace DefUse

/-- The accesses of one op: its inputs, then its outputs. -/
def opUses (k : Kernel) (h : OpId) : List (BufferId × Use) :=
  let o := k.op h
  o.inputs.zipIdx.map (fun (x, i) => (x.buffer, ⟨h, .input i, true, false⟩)) ++
    o.outputs.zipIdx.map (fun (x, i) => (x.buffer, ⟨h, .output i, o.kind.readsOutput, true⟩))

/-- The chains of the kernel's live ops. -/
def build (k : Kernel) : DefUse :=
  let live := k.liveOps
  ⟨live.flatMap (opUses k), live⟩

/-- The accesses of a buffer in program order. -/
def uses (d : DefUse) (b : BufferId) : List Use :=
  d.entries.filterMap fun (x, u) => if x == b then some u else none

/-- The ops writing a buffer, one per writing access. -/
def writers (d : DefUse) (b : BufferId) : List OpId := (d.uses b).filterMap fun u => if u.writes then some u.op else none

/-- The ops reading a buffer, one per reading access. -/
def readers (d : DefUse) (b : BufferId) : List OpId := (d.uses b).filterMap fun u => if u.reads then some u.op else none

/-- The distinct ops touching a buffer, in program order. -/
def accessors (d : DefUse) (b : BufferId) : List OpId :=
  (d.uses b).foldl (fun acc u => if acc.contains u.op then acc else acc ++ [u.op]) []

/-- The program-order position of a live op. -/
def position (d : DefUse) (h : OpId) : Option Nat := d.live.idxOf? h

/-- Whether no live op touches the buffer. -/
def isUnused (d : DefUse) (b : BufferId) : Bool := (d.uses b).isEmpty

end DefUse
end TileKernel
