import TileKernel.Kernel.Loop

/-!
# Kernels

A kernel owns three arenas (buffers, ops, loops), the top-level body, and the set of ops that were
removed or replaced. Handles are arena positions and are never reused, so an op's handle also says
when it was created.

An op is *live* when the body places it: at top level, in the body of a loop that is not
pipelined, or in a block of a pipelined loop's expansion, and it was not removed.
`Kernel.liveOps` lists the live ops in program order. Dependencies point from an op to the ops
that must complete first; `Kernel.dependsOn` is reachability along them (an op reaches itself),
and `Kernel.topologicalOrder` orders the live ops so that each follows its live dependencies,
taking the least handle whenever several are ready.
-/

set_option autoImplicit false

namespace TileKernel

/-- A tile kernel. -/
structure Kernel where
  name : String
  buffers : Array Buffer := #[]
  ops : Array TileOp := #[]
  loops : Array LoopNest := #[]
  body : List Stmt := []
  /-- Ops removed or replaced; they are never live again. -/
  removed : List OpId := []
deriving Inhabited

namespace Kernel

/-- The buffer behind a handle, if the handle is in range. -/
def buffer? (k : Kernel) (h : BufferId) : Option Buffer := k.buffers[h.idx]?

/-- The buffer behind a handle. -/
def buffer (k : Kernel) (h : BufferId) : Buffer := (k.buffer? h).getD default

/-- The op behind a handle, if the handle is in range. -/
def op? (k : Kernel) (h : OpId) : Option TileOp := k.ops[h.idx]?

/-- The op behind a handle. -/
def op (k : Kernel) (h : OpId) : TileOp :=
  (k.op? h).getD { name := "", kind := .cast, inputs := [], outputs := [] }

/-- The loop behind a handle, if the handle is in range. -/
def loop? (k : Kernel) (h : LoopId) : Option LoopNest := k.loops[h.idx]?

/-- The loop behind a handle. -/
def loop (k : Kernel) (h : LoopId) : LoopNest := (k.loop? h).getD { name := "", extent := 0 }

/-- Every buffer handle, in declaration order. -/
def bufferIds (k : Kernel) : List BufferId := (List.range k.buffers.size).map (⟨·⟩)

/-- Every op handle, in creation order. -/
def opIds (k : Kernel) : List OpId := (List.range k.ops.size).map (⟨·⟩)

/-- Every loop handle, in creation order. -/
def loopIds (k : Kernel) : List LoopId := (List.range k.loops.size).map (⟨·⟩)

/-- The first buffer with the given name. -/
def findBuffer? (k : Kernel) (name : String) : Option BufferId :=
  (k.buffers.findIdx? (·.name == name)).map (⟨·⟩)

/-- The first loop with the given name. -/
def findLoop? (k : Kernel) (name : String) : Option LoopId :=
  (k.loops.findIdx? (·.name == name)).map (⟨·⟩)

/-- Whether the op was removed or replaced. -/
def isRemoved (k : Kernel) (h : OpId) : Bool := k.removed.contains h

/-- The ops a statement contributes, in order: a pipelined loop gives its prologue, steady and
epilogue blocks, any other loop its body. -/
def stmtOps (k : Kernel) : Stmt → List OpId
  | .op h => [h]
  | .loop l =>
    match (k.loop l).expansion with
    | some p => p.prologue ++ p.steady ++ p.epilogue
    | none => (k.loop l).body

/-- The live ops in program order. -/
def liveOps (k : Kernel) : List OpId :=
  (k.body.flatMap k.stmtOps).filter fun h => !k.isRemoved h

/-- The block of a statement that holds the op, if any. -/
def blockIn (k : Kernel) (h : OpId) : Stmt → Option Block
  | .op o => if o == h then some .body else none
  | .loop l =>
    let nest := k.loop l
    match nest.expansion with
    | some p =>
      if p.prologue.contains h then some (.prologue l)
      else if p.steady.contains h then some (.steady l)
      else if p.epilogue.contains h then some (.epilogue l)
      else none
    | none => if nest.body.contains h then some (.loop l) else none

/-- The block a live op sits in; `none` when the op is not live. -/
def placement (k : Kernel) (h : OpId) : Option Block :=
  if k.isRemoved h then none else k.body.findSome? (k.blockIn h)

/-- Whether the op is live. -/
def isLive (k : Kernel) (h : OpId) : Bool := (k.placement h).isSome

/-- The ops, not removed, that depend directly on `h`, in handle order. -/
def dependents (k : Kernel) (h : OpId) : List OpId :=
  k.opIds.filter fun o => !k.isRemoved o && (k.op o).deps.contains h

/-- Every op reachable from `start` along dependencies, `start` included. Each round adds the
dependencies of the ops found in the previous one; as every round that goes on adds an op, one
round per op reaches the closure. -/
def ancestors (k : Kernel) (start : OpId) : List OpId :=
  go (k.ops.size + 1) [start] [start]
where
  /-- Extends `seen` from the newest ops `frontier`, for at most `fuel` rounds. -/
  go : Nat → List OpId → List OpId → List OpId
    | 0, _, seen => seen
    | fuel + 1, frontier, seen =>
      let next := (frontier.flatMap fun h => (k.op h).deps).eraseDups.filter fun h => !seen.contains h
      if next.isEmpty then seen else go fuel next (seen ++ next)

/-- Whether `h` depends on `target` through a chain of dependencies, or is `target`. -/
def dependsOn (k : Kernel) (h target : OpId) : Bool := (k.ancestors h).contains target

/-- Handles in increasing order without repeats. -/
def sortedIds (hs : List OpId) : List OpId :=
  ((hs.map (·.idx)).mergeSort (· ≤ ·)).eraseDups.map (⟨·⟩)

/-- The live ops ordered so that each follows its live dependencies, taking the least ready
handle at each step; on a cycle, the error says how many ops could be ordered. -/
def topologicalOrder (k : Kernel) : Except KernelError (List OpId) :=
  let live := sortedIds k.liveOps
  let ready := fun (done : List OpId) (h : OpId) =>
    !done.contains h && (k.op h).deps.all fun d => !live.contains d || done.contains d
  let rec go : Nat → List OpId → List OpId
    | 0, done => done
    | fuel + 1, done =>
      match live.find? (ready done) with
      | some h => go fuel (done ++ [h])
      | none => done
  let order := go live.length []
  if order.length = live.length then .ok order
  else .error (.cycle order.length live.length)

end Kernel
end TileKernel
