import TileKernel.Kernel.Check

/-!
# Building kernels

The operations that declare buffers, add and place ops, open loops, record dependencies and
attach layouts, swizzles and schedules. Each checks its arguments first and changes nothing when
it fails; on success it answers the new handle (if any) and the updated kernel.

A layout and a swizzle are attached at most once, and only where they fit the buffer; an op is
placed at most once; a dependency that would close a cycle is refused, so the dependency graph
stays acyclic.
-/

set_option autoImplicit false

namespace TileKernel
namespace Kernel

/-- Replaces the op behind a handle. -/
def modifyOp (k : Kernel) (h : OpId) (f : TileOp → TileOp) : Kernel :=
  { k with ops := k.ops.modify h.idx f }

/-- Replaces the buffer behind a handle. -/
def modifyBuffer (k : Kernel) (h : BufferId) (f : Buffer → Buffer) : Kernel :=
  { k with buffers := k.buffers.modify h.idx f }

/-- Replaces the loop behind a handle. -/
def modifyLoop (k : Kernel) (h : LoopId) (f : LoopNest → LoopNest) : Kernel :=
  { k with loops := k.loops.modify h.idx f }

/-- Declares a buffer. Its name must be new, its shape non-empty with non-zero extents, a
register buffer must be two-dimensional, and a hint must cover the buffer's shape. -/
def addBuffer (k : Kernel) (b : Buffer) : Except KernelError (BufferId × Kernel) :=
  let invalid := fun reason => Except.error (KernelError.invalidBuffer b.name reason)
  if (k.findBuffer? b.name).isSome then invalid "name already declared"
  else if b.shape.isEmpty ∨ b.shape.contains 0 then
    invalid "shape must be non-empty with non-zero extents"
  else if b.scope = .fragment ∧ b.shape.length ≠ 2 then invalid "fragment buffers must be rank 2"
  else if (b.hint.map (·.shape != b.shape)).getD false then
    invalid "layout hint shape differs from buffer shape"
  else .ok (⟨k.buffers.size⟩, { k with buffers := k.buffers.push b })

/-- Attaches a buffer's one layout: it must cover the buffer's shape, and be a fragment exactly
when the buffer lives in registers. -/
def attachLayout (k : Kernel) (h : BufferId) (l : Layout) : Except KernelError Kernel := do
  let b ← k.tryBuffer h
  if b.layout.isSome then throw (.layoutAlreadyAttached b.name)
  if l.shape ≠ b.shape then
    throw (.layoutMismatch b.name
      s!"layout shape {l.shape.text} differs from buffer shape {b.shape.text}")
  match l, b.scope with
  | .fragment _, .fragment => pure ()
  | .fragment _, scope => throw (.layoutMismatch b.name s!"fragment layout on {scope.title} buffer")
  | .dense _, .fragment => throw (.layoutMismatch b.name "dense layout on a register fragment")
  | .dense _, _ => pure ()
  return k.modifyBuffer h ({ · with layout := some l })

/-- Attaches a swizzle to a shared buffer with a dense layout, when the permutation stays inside
the allocation. -/
def attachSwizzle (k : Kernel) (h : BufferId) (s : Swizzle) : ExceptT KernelError Checked Kernel := do
  let b ← ExceptT.mk (pure (k.tryBuffer h))
  let mismatch := fun reason =>
    (throw (KernelError.swizzleMismatch b.name reason) : ExceptT KernelError Checked Unit)
  if b.scope ≠ .shared then mismatch "only shared buffers are swizzled"
  if b.swizzle.isSome then mismatch "a swizzle is already attached"
  match b.layout with
  | none => throw (.unresolved b.name)
  | some (.fragment _) => mismatch "layout is not dense"
  | some (.dense _) => pure ()
  if !s.isBijectiveOn (← b.elements) then mismatch "permutation leaves the allocation"
  return k.modifyBuffer h ({ · with swizzle := some s })

/-- Adds an op, unplaced, after checking its operands and dependencies. -/
def addOp (k : Kernel) (op : TileOp) : Except KernelError (OpId × Kernel) := do
  k.checkOperands op
  op.deps.forM fun d => do let _ ← k.checkOp d
  return (⟨k.ops.size⟩, { k with ops := k.ops.push op })

/-- The op exists and is neither placed nor removed. -/
def checkUnplaced (k : Kernel) (h : OpId) : Except KernelError Unit := do
  let o ← k.checkOp h
  if (k.placement h).isSome || k.isRemoved h then throw (.operands o.name "op is already placed")

/-- Appends an op to the top-level body. -/
def push (k : Kernel) (h : OpId) : Except KernelError Kernel := do
  k.checkUnplaced h
  return { k with body := k.body ++ [.op h] }

/-- Appends a loop to the top-level body; its trip count and declared depth must be positive and
its body empty. -/
def pushLoop (k : Kernel) (nest : LoopNest) : Except KernelError (LoopId × Kernel) := do
  if nest.extent = 0 ∨ nest.depth = some 0 then
    throw (.invalidLoop nest.name "extent and depth must be at least 1")
  if !nest.body.isEmpty || nest.expansion.isSome then
    throw (.invalidLoop nest.name "ops are added through push_to_loop")
  let l : LoopId := ⟨k.loops.size⟩
  return (l, { k with loops := k.loops.push nest, body := k.body ++ [.loop l] })

/-- Appends an op to the body of a loop that is not pipelined. -/
def pushToLoop (k : Kernel) (l : LoopId) (h : OpId) : Except KernelError Kernel := do
  k.checkUnplaced h
  let nest ← k.tryLoop l
  if nest.expansion.isSome then throw (.invalidLoop nest.name "loop is already pipelined")
  return k.modifyLoop l fun n => { n with body := n.body ++ [h] }

/-- Records that `h` runs after `on`, refusing an edge that would close a cycle. -/
def addDependency (k : Kernel) (h on : OpId) : Except KernelError Kernel := do
  let o ← k.checkOp h
  let p ← k.checkOp on
  if k.dependsOn on h then throw (.dependencyCycle o.name p.name)
  return k.modifyOp h fun x => { x with deps := on.insertSorted x.deps }

/-- Attaches an op's schedule, once. -/
def setSched (k : Kernel) (h : OpId) (info : SchedInfo) : Except KernelError Kernel := do
  let o ← k.checkOp h
  if o.sched.isSome then throw (.opFrozen o.name)
  return k.modifyOp h ({ · with sched := some info })

/-- Installs the pipelined rewrite of a loop: the clones must be fresh, and the original body ops
are removed. -/
def setExpansion (k : Kernel) (l : LoopId) (p : Expansion) : Except KernelError Kernel := do
  let nest := k.loop l
  if nest.expansion.isSome || p.depth == 0 then
    throw (.invalidLoop nest.name "loop is already pipelined or depth is 0")
  (p.prologue ++ p.steady ++ p.epilogue).forM k.checkUnplaced
  let k' := { k with removed := k.removed ++ nest.body.filter fun h => !k.removed.contains h }
  return k'.modifyLoop l ({ · with expansion := some p })

end Kernel
end TileKernel
