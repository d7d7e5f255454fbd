import TileKernel.Lowering.Basic

/-!
# Store granularity

Every copy and atomic update records the per-lane chunk it moves. The chunk is the widest power
of two that the target can issue in one vector (or atomic) access and that every operand can
deliver contiguously: a dense operand along its innermost axis, in runs no longer than its
swizzle's unpermuted chunk, and dividing its tile's extent on that axis; a register fragment
along its contiguous axis in runs of its lane run. Operands whose contiguous axes differ, or an
operand with no layout, allow one element only.

The pass leaves a recorded width alone when it is a power of two dividing the legal one (a
narrower power of two is legal too) and replaces the op with the legal width otherwise.
-/

set_option autoImplicit false

namespace TileKernel

/-- The largest run a chunk size is bounded by when nothing else bounds it. -/
def unboundedRun : Nat := 4294967295

/-- What one operand allows: its contiguous axis, the longest run it delivers, and the extent a
chunk must divide. -/
structure SideLimit where
  axis : Option Nat
  cap : Nat
  extent : Option Nat

/-- The limit one operand puts on a chunk. -/
def sideLimit (k : Kernel) (o : Operand) : SideLimit :=
  let b := k.buffer o.buffer
  match b.layout with
  | some (.dense d) =>
    let axis := d.innermost
    { axis := some axis,
      cap := (b.swizzle.map fun s => min s.chunkElems unboundedRun).getD unboundedRun,
      extent := some ((o.tileShape b.shape)[axis]?.getD 1) }
  | some (.fragment f) => { axis := some f.contiguousAxis, cap := f.laneRun, extent := none }
  | none => { axis := none, cap := 1, extent := none }

/-- The widest power of two from 1, doubling while the double stays within `cap` and divides
every extent. Each double is a 32-bit product, so doubling past `2 ^ 31` faults; 32 doublings
reach it, and the fuel covers them. -/
def widestChunk (cap : Nat) (extents : List Nat) : Checked Nat :=
  go 33 1
where
  /-- Doubles `v` while the double stays within `cap` and divides every extent. -/
  go : Nat → Nat → Checked Nat
    | 0, v => pure v
    | fuel + 1, v => do
      let twice ← Word.u32.mul v 2
      if twice ≤ cap ∧ extents.all (· % twice == 0) then go fuel twice else pure v

/-- The widest legal chunk of a copy or atomic op; `none` for other kinds. -/
def legalVector (t : Target) (k : Kernel) (op : TileOp) : Checked (Option Nat) := do
  let budget := match op.kind with
    | .copy .. => some t.vectorBytes
    | .atomic .. => some t.atomicBytes
    | _ => none
  let some budget := budget | return none
  let elem := (op.operands.map fun o => (k.buffer o.buffer).dtype.bytes).foldl max 1
  let sides := op.operands.map (sideLimit k)
  let axes := sides.filterMap (·.axis)
  if axes.any (· != axes.headD 0) then return some 1
  let cap := sides.foldl (fun c s => min c s.cap) (max (budget / max elem 1) 1)
  return some (← widestChunk cap (sides.filterMap (·.extent)))

/-- The kind with its recorded chunk set to `v`. -/
def OpKind.withVector (kind : OpKind) (v : Nat) : OpKind :=
  match kind with
  | .copy _ materialize => .copy (some v) materialize
  | .atomic op _ => .atomic op (some v)
  | other => other

/-- Whether the recorded chunk is a power of two dividing `legal`. -/
def chunkFits (recorded : Option Nat) (legal : Nat) : Bool :=
  match recorded with
  | some v => v != 0 && v &&& (v - 1) == 0 && legal % v == 0
  | none => false

/-- Sets the legal chunk on every live copy and atomic op whose recorded one does not fit;
answers whether any op changed. -/
def storeGranularity (t : Target) : KernelM KernelError Bool := do
  let live := (← get).liveOps
  live.foldlM (fun changed h => do
    let k ← get
    let op := k.op h
    match ← liftM (legalVector t k op) with
    | none => pure changed
    | some legal =>
      if chunkFits op.kind.vector? legal then pure changed
      else
        let _ ← KernelM.edit (·.replaceOp h { op.detached with kind := op.kind.withVector legal })
        pure true) false

end TileKernel
