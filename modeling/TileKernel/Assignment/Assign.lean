import TileKernel.Assignment.Solver

/-!
# Assigning layouts

`assignLayouts` gives every buffer one layout. Each round builds the initial domains and the
constraints of the live ops and solves them. When a domain runs empty, a materializing copy is
inserted next to one of the two disagreeing ops (the op of the emptying constraint on the buffer,
then the other op on the buffer, then the emptying op on its partner buffer), where copies are
allowed and the op reads or writes the buffer whole; the next round starts over. Every round
that inserts a copy spends one unit of a budget of the initial number of live ops, so the rounds
end. With no place for a copy, the conflict is reported. On success the layouts are attached, in
handle order, to the buffers that have none.

A copy for an op that only reads the buffer copies it into a fresh buffer just before the op,
which then reads the fresh one; for an op that only writes it, the op writes a fresh buffer and a
copy just after it writes the original, taking over the op's dependents.
-/

set_option autoImplicit false

namespace TileKernel

/-- Where a materializing copy can separate an op from a buffer. -/
inductive CopySite where
  /-- The op only reads the buffer: copy into a fresh buffer before it. -/
  | reader (op : OpId) (buffer : BufferId)
  /-- The op only writes the buffer: let it write a fresh buffer and copy after it. -/
  | writer (op : OpId) (buffer : BufferId)
deriving DecidableEq, Repr

/-- Where a copy can separate `h` from `b`: never for global buffers; a reader or writer site when
the op only reads or only writes the buffer and touches it whole (no window, not rotating). -/
def copySite (k : Kernel) (h : OpId) (b : BufferId) : Option CopySite :=
  if (k.buffer b).scope == .global then none else
  let op := k.op h
  let whole := fun (o : Operand) => o.buffer != b || (o.step.isNone && !o.rotating)
  let reads := op.reads.any (·.buffer == b)
  let writes := op.outputs.any (·.buffer == b)
  if reads && !writes && op.inputs.all whole then some (.reader h b)
  else if writes && !reads && op.outputs.all whole then some (.writer h b)
  else none

/-- The first name `base_rN` that no buffer has. -/
def freshCopyName (k : Kernel) (base : String) : String :=
  let tries := (List.range (k.buffers.size + 1)).map fun n => s!"{base}_r{n}"
  (tries.find? fun n => (k.findBuffer? n).isNone).getD base

/-- A relayout copy from `src` to `dst`. -/
def relayoutOp (name : String) (src dst : BufferId) : TileOp :=
  { name, kind := .copy none true, inputs := [.whole src], outputs := [.whole dst] }

/-- The op with every operand on `src` moved to `dst`, without dependencies or schedule. -/
def retarget (op : TileOp) (src dst : BufferId) : TileOp :=
  let move := fun (o : Operand) => if o.buffer == src then { o with buffer := dst } else o
  { op.detached with inputs := op.inputs.map move, outputs := op.outputs.map move }

/-- Inserts one materializing copy; answers the copy op. -/
def materialize (site : CopySite) : KernelM KernelError OpId := do
  let (h, b) := match site with
    | .reader h b | .writer h b => (h, b)
  let k ← get
  let name := freshCopyName k (k.buffer b).name
  let fresh ← KernelM.edit (·.addBuffer ((k.buffer b).renamed name))
  let copyName := s!"relayout_{name}"
  let rewritten := retarget ((← get).op h) b fresh
  match site with
  | .reader .. =>
    let copy ← KernelM.edit (·.insertBefore h (relayoutOp copyName b fresh))
    let deps := ((← get).op h).deps
    deps.forM fun d => KernelM.update (·.addDependency copy d)
    let new ← KernelM.edit (·.replaceOp h rewritten)
    KernelM.update (·.addDependency new copy)
    pure copy
  | .writer .. =>
    let new ← KernelM.edit (·.replaceOp h rewritten)
    let copy ← KernelM.edit (·.insertAfter new (relayoutOp copyName fresh b))
    modify (·.redirectDependents new copy)
    KernelM.update (·.addDependency copy new)
    pure copy

/-- The initial domain of every buffer, in handle order; the first failure is reported. -/
def initialDomains (k : Kernel) (o : CompileOptions) :
    ExceptT KernelError Checked (Array (List Layout)) := do
  return (← k.buffers.toList.mapM fun b => initialDomain b o).toArray

/-- The constraints of the live ops, in program order. -/
def liveConstraints (k : Kernel) (t : Target) : Checked (List Constraint) := do
  return (← k.liveOps.mapM (opConstraints k t)).flatten

/-- Where a copy could resolve a conflict, in preference order. -/
def conflictSites (c : Conflict) : List (Option OpId × BufferId) :=
  [(c.second.op, c.buffer), (c.first.op, c.buffer)] ++
    (match c.partner with
      | some p => [(c.second.op, p)]
      | none => [])

/-- One round: solves the network of the kernel's live ops from their initial domains. -/
def solveRound (o : CompileOptions) (k : Kernel) :
    KernelM LowerError (Except Conflict (List (BufferId × Layout))) := do
  let initial ← KernelM.lift (KernelM.attempt (initialDomains k o))
  let constraints ← liftM (m := Checked) (liveConstraints k o.target)
  liftM (m := Checked) (Solver.solve constraints initial).run

/-- The first place, in preference order, where a copy may resolve the conflict: copies must be
allowed, by the options and by the buffer. -/
def copySiteFor (o : CompileOptions) (k : Kernel) (c : Conflict) : Option CopySite :=
  (conflictSites c).findSome? fun (op, b) =>
    if o.layoutCopies && !(k.buffer b).noCopy then op.bind fun h => copySite k h b else none

/-- The error reporting a conflict no copy resolves. -/
def conflictError (k : Kernel) (c : Conflict) : LowerError :=
  .layoutConflict (k.buffer c.buffer).name (c.first.describe k) (c.second.describe k)

/-- Solves the layouts, inserting copies until the network has a solution; `copies` gathers the
copies in order and `budget` counts the copies still allowed. -/
def solveWithCopies (o : CompileOptions) :
    Nat → List OpId → KernelM LowerError (List (BufferId × Layout) × List OpId)
  | budget, copies => do
    let k ← get
    match ← solveRound o k with
    | .ok assignment => pure (assignment, copies)
    | .error c =>
      match budget with
      | 0 => throw (conflictError k c)
      | fuel + 1 =>
        match copySiteFor o k c with
        | some s =>
          let copy ← KernelM.lift (materialize s)
          solveWithCopies o fuel (copies ++ [copy])
        | none => throw (conflictError k c)

/-- Attaches one layout to every buffer without one; answers the materializing copies
inserted. -/
def assignLayouts (o : CompileOptions) : KernelM LowerError (List OpId) := do
  let budget := (← get).liveOps.length
  let (assignment, copies) ← solveWithCopies o budget []
  assignment.forM fun (b, l) => do
    if ((← get).buffer b).layout.isNone then
      KernelM.lift (KernelM.update (·.attachLayout b l))
  pure copies

end TileKernel
