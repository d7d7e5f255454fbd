import TileKernel.Kernel.Basic

/-!
# Effect traces

A trace unrolls a loop into the ordered list of its op executions, each with the regions of
buffers it reads and writes. A loop that is not pipelined runs its body once per iteration; a
pipelined loop runs its prologue once, its steady block `steadyTrips` times and its epilogue once.
A scheduled clone reports the body op it stems from and the source iteration it executes, and a
rotating operand reports both the logical buffer and the ring instance it addresses, so the trace
of a pipelined loop can be compared with the trace of its original body. Executions that touch no
buffer (barriers) are left out. Iteration numbers and region origins are 32-bit counts.
-/

set_option autoImplicit false

namespace TileKernel

/-- One region touched by an execution. -/
structure Access where
  /-- The logical buffer (the ring's first instance for ring instances). -/
  buffer : BufferId
  /-- The buffer actually addressed. -/
  physical : BufferId
  origin : List Nat
  tile : Shape
deriving DecidableEq, Repr

/-- One executed op. -/
structure Effect where
  /-- The loop-body op this execution stems from. -/
  op : OpId
  iteration : Nat
  reads : List Access
  writes : List Access
deriving DecidableEq, Repr

/-- An effect with the physical instances erased. -/
structure LogicalEffect where
  op : OpId
  iteration : Nat
  reads : List (BufferId × List Nat)
  writes : List (BufferId × List Nat)
deriving DecidableEq, Repr

/-- The effect as logical regions. -/
def Effect.logical (e : Effect) : LogicalEffect :=
  let erase := fun (xs : List Access) => xs.map fun a => (a.buffer, a.origin)
  ⟨e.op, e.iteration, erase e.reads, erase e.writes⟩

/-- The region an operand touches at a source iteration. -/
def resolveAccess (k : Kernel) (o : Operand) (iteration : Nat) (p : Option Expansion) :
    Checked Access := do
  let buf := k.buffer o.buffer
  let logical := match buf.instanceOf with
    | some (l, _) => l
    | none => o.buffer
  let physical := match p.bind (·.ringOf logical) with
    | some ring => if o.rotating then ring.instance iteration else o.buffer
    | none => o.buffer
  return ⟨logical, physical, ← o.origin buf.shape.length iteration, o.tileShape buf.shape⟩

/-- The effects of one pass over `ops` with loop counter `i`. -/
def traceBody (k : Kernel) (ops : List OpId) (i : Nat) (p : Option Expansion) :
    Checked (List Effect) :=
  ops.filterMapM fun h => do
    let op := k.op h
    let (origin, iteration) ← match op.sched with
      | some info => do pure (info.origin, ← info.iteration.resolve i)
      | none => pure (h, i)
    let reads ← op.reads.mapM fun o => resolveAccess k o iteration p
    let writes ← op.outputs.mapM fun o => resolveAccess k o iteration p
    if reads.isEmpty && writes.isEmpty then return none
    return some ⟨origin, iteration, reads, writes⟩

/-- The effects of passes over `ops` with loop counters `0, 1, …, count - 1`, in order. A pass
over no ops has no effects and cannot fault, so an empty body is not iterated. -/
def traceRepeat (k : Kernel) (ops : List OpId) (count : Nat) (p : Option Expansion) :
    Checked (List Effect) := do
  if ops.isEmpty then return []
  let reversed ← foldRangeM count (fun acc i => do
    return (← traceBody k ops i p).reverse ++ acc) []
  return reversed.reverse

/-- A loop unrolled into its effects, in execution order. -/
def traceLoop (k : Kernel) (l : LoopId) : Checked (List Effect) := do
  let nest := k.loop l
  match nest.expansion with
  | none => traceRepeat k nest.body nest.extent none
  | some p =>
    let prologue ← traceBody k p.prologue 0 (some p)
    let steady ← traceRepeat k p.steady p.steadyTrips (some p)
    let epilogue ← traceBody k p.epilogue 0 (some p)
    return prologue ++ steady ++ epilogue

end TileKernel
