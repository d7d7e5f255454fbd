import TileKernel.Analysis.DefUse
import TileKernel.Lowering.Basic

/-!
# Simplification

One round of simplification does three things in turn.

* It normalizes fills: a fill literal is cast to the representation of its destination type, and
  the fill is replaced when that changes its value (a NaN never equals itself, so a NaN fill is
  replaced every round).
* It folds constants. A non-global buffer is constant for a reader when its only writing access,
  earlier in program order, is a fill of the whole buffer. An elementwise op over two constants
  and a cast of one constant become fills of the computed value, keeping the op's name and
  output operand. Folding a chain turns one link into a fill per round.
* It removes dead ops. Barriers, atomic updates and ops writing global memory are live, and so
  is every writer of a buffer that a live op reads; the other ops are removed in program order.
-/

set_option autoImplicit false

namespace TileKernel

/-- Casts every fill literal to its destination type; answers whether any fill changed. -/
def normalizeFills : KernelM KernelError Bool := do
  let live := (← get).liveOps
  live.foldlM (fun changed h => do
    let k ← get
    let op := k.op h
    match op.kind, op.outputs with
    | .fill value, out :: _ =>
      let normalized ← liftM (value.cast (k.buffer out.buffer).dtype)
      if normalized.sameValue value then pure changed
      else
        let _ ← KernelM.edit (·.replaceOp h { op.detached with kind := .fill normalized })
        pure true
    | _, _ => pure changed) false

/-- The value of a buffer where `reader` runs, if a single earlier fill of the whole buffer is its
only writing access and the buffer is not global. -/
def constantAt (k : Kernel) (d : DefUse) (b : BufferId) (reader : OpId) : Option Literal :=
  if (k.buffer b).scope == .global then none else
  match d.writers b with
  | [w] =>
    match d.position w, d.position reader with
    | some pw, some pr =>
      if pr ≤ pw then none else
      match (k.op w).kind, (k.op w).outputs with
      | .fill v, out :: _ => if out.step.isNone then some v else none
      | _, _ => none
    | _, _ => none
  | _ => none

/-- The literal an op folds to before it is cast to the type of its output, with that output
operand, if its inputs are constants it can combine. An op that reads its own output buffer is
never folded. -/
def foldSource (k : Kernel) (d : DefUse) (h : OpId) : Option (Literal × Operand) :=
  let op := k.op h
  match op.outputs with
  | [] => none
  | out :: _ =>
    if op.inputs.any (·.buffer == out.buffer) then none else
    match op.kind, op.inputs.mapM fun i => constantAt k d i.buffer h with
    | .elementwise bin, some [a, b] => some (.float (bin.eval a.asFloat b.asFloat), out)
    | .cast, some [a] => some (a, out)
    | _, _ => none

/-- The fill an op folds to: its folded literal cast to the type of its output. -/
def foldedFill (k : Kernel) (d : DefUse) (h : OpId) : Checked (Option TileOp) :=
  match foldSource k d h with
  | none => pure none
  | some (v, out) => do
    return some (TileOp.fill (k.op h).name (← v.cast (k.buffer out.buffer).dtype) out)

/-- Replaces every foldable live op with its fill, all decided on the kernel as it was; answers
whether any op was folded. -/
def foldConstants : KernelM KernelError Bool := do
  let k ← get
  let d := DefUse.build k
  let folds ← liftM (k.liveOps.mapM fun h => do return (← foldedFill k d h).map fun f => (h, f))
  let folds := folds.reduceOption
  folds.forM fun (h, f) => do let _ ← KernelM.edit (·.replaceOp h f)
  pure !folds.isEmpty

/-- Ops that are live on their own: barriers, atomic updates and writes to global memory. -/
def isRootOp (k : Kernel) (op : TileOp) : Bool :=
  match op.kind with
  | .barrier _ | .atomic .. => true
  | _ => op.outputs.any fun o => (k.buffer o.buffer).scope == .global

/-- Grows a set of live ops by the writers of the buffers they read, until nothing is added or
the fuel (one more than the number of ops that can be added) runs out. -/
def liveClosure (k : Kernel) (d : DefUse) : Nat → List OpId → List OpId
  | 0, live => live
  | fuel + 1, live =>
    let add := fun (acc : List OpId) (w : OpId) => if acc.contains w then acc else acc ++ [w]
    let next := live.foldl (fun acc h =>
      (k.op h).reads.foldl (fun acc o => (d.writers o.buffer).foldl add acc) acc) live
    if next.length == live.length then live else liveClosure k d fuel next

/-- Removes the live ops that no root needs, in program order; answers whether any was
removed. -/
def removeDead : KernelM KernelError Bool := do
  let k ← get
  let d := DefUse.build k
  let ops := k.liveOps
  let live := liveClosure k d (ops.length + 1) (ops.filter fun h => isRootOp k (k.op h))
  let dead := ops.filter fun h => !live.contains h
  dead.forM fun h => KernelM.update (·.removeOp h)
  pure !dead.isEmpty

/-- One round of simplification; answers whether anything changed. -/
def simplify : KernelM KernelError Bool := do
  let normalized ← normalizeFills
  let folded ← foldConstants
  let removed ← removeDead
  pure (normalized || folded || removed)

end TileKernel
