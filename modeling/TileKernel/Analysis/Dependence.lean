import TileKernel.Kernel.Basic

/-!
# Loop-body dependencies and pipeline stages

`loopDependencies` compares the read and write sets of a loop's original body ops, both within
one iteration (from an earlier op to a later one) and from one iteration into the next (any pair,
`carried`). A windowed operand touches a different region in every iteration, so it never carries
a dependency into the next one. Each hit is reported by body position, buffer and kind
(read after write, write after read, write after write).

`classifyStage` sorts ops into the two pipeline stages: a copy from global memory into a faster
scope is a load, everything else a computation.
-/

set_option autoImplicit false

namespace TileKernel

/-- The pipeline stage of a loop-body op. -/
inductive Stage where
  | load
  | compute
deriving DecidableEq, Repr

/-- Loads are copies out of global memory into another scope. -/
def classifyStage (k : Kernel) (op : TileOp) : Stage :=
  match op.kind, op.inputs, op.outputs with
  | .copy .., src :: _, dst :: _ =>
    if (k.buffer src.buffer).scope == .global && (k.buffer dst.buffer).scope != .global then .load
    else .compute
  | _, _, _ => .compute

/-- The kind of a dependency between two ops. -/
inductive DependencyKind where
  /-- Read after write. -/
  | dataFlow
  /-- Write after read. -/
  | anti
  /-- Write after write. -/
  | output
deriving DecidableEq, Repr

/-- The short name: `RAW`, `WAR`, `WAW`. -/
def DependencyKind.text : DependencyKind → String
  | .dataFlow => "RAW"
  | .anti => "WAR"
  | .output => "WAW"

/-- A dependency between two ops of a loop body, by body position. -/
structure LoopDependency where
  src : Nat
  dst : Nat
  buffer : BufferId
  kind : DependencyKind
  /-- The source runs in iteration `n` and the destination in iteration `n + 1`. -/
  carried : Bool
deriving DecidableEq, Repr

/-- The buffers an op reads and writes, each with whether the operand is windowed. -/
def accessSets (op : TileOp) : List (BufferId × Bool) × List (BufferId × Bool) :=
  (op.reads.map fun o => (o.buffer, o.step.isSome), op.outputs.map fun o => (o.buffer, o.step.isSome))

/-- The dependencies from body op `i` to body op `j`, same-iteration or carried. -/
def pairDependencies (i j : Nat) (src dst : List (BufferId × Bool) × List (BufferId × Bool))
    (carried : Bool) : List LoopDependency :=
  let pairs := [(src.2, dst.1, DependencyKind.dataFlow), (src.1, dst.2, .anti), (src.2, dst.2, .output)]
  pairs.flatMap fun (a, b, kind) =>
    a.filterMap fun (buffer, windowed) =>
      if b.any (fun (other, w) => other == buffer && !(carried && (windowed || w))) then
        some ⟨i, j, buffer, kind, carried⟩
      else none

/-- The dependencies among a loop's original body ops. -/
def loopDependencies (k : Kernel) (l : LoopId) : List LoopDependency :=
  let sets := (k.loop l).body.map fun h => accessSets (k.op h)
  sets.zipIdx.flatMap fun (src, i) =>
    sets.zipIdx.flatMap fun (dst, j) =>
      [false, true].flatMap fun carried =>
        if !carried && j ≤ i then [] else pairDependencies i j src dst carried

end TileKernel
