import TileKernel.Kernel.Build

/-!
# Editing placed ops

Passes rewrite a kernel by inserting an op next to a placed one, replacing a placed op, removing
one, or moving the dependents of one op to another. An inserted op lands in its anchor's block
and takes the anchor's schedule; a replacement takes over the old op's dependencies, dependents,
schedule and place, and the old op is removed; a removed op's dependents inherit its
dependencies, so no ordering between the remaining ops is lost.
-/

set_option autoImplicit false

namespace TileKernel
namespace Kernel

/-- Inserts `a` at position `i` of a list (at the end when `i` is past it). -/
def insertAt {α : Type} (xs : List α) (i : Nat) (a : α) : List α := xs.take i ++ a :: xs.drop i

/-- Applies `f` to the op list of a block inside a loop, or to the top-level statements holding
ops for the body. -/
def modifyBlock (k : Kernel) (b : Block) (inLoop : List OpId → List OpId)
    (inBody : List Stmt → List Stmt) : Kernel :=
  match b with
  | .body => { k with body := inBody k.body }
  | .loop l => k.modifyLoop l fun n => { n with body := inLoop n.body }
  | .prologue l => k.modifyLoop l fun n =>
      { n with expansion := n.expansion.map fun p => { p with prologue := inLoop p.prologue } }
  | .steady l => k.modifyLoop l fun n =>
      { n with expansion := n.expansion.map fun p => { p with steady := inLoop p.steady } }
  | .epilogue l => k.modifyLoop l fun n =>
      { n with expansion := n.expansion.map fun p => { p with epilogue := inLoop p.epilogue } }

/-- The block of a live op, or the error saying it is not placed. -/
def placed (k : Kernel) (h : OpId) : Except KernelError Block := do
  let o ← k.checkOp h
  match k.placement h with
  | some b => pure b
  | none => throw (.notPlaced o.name)

/-- Places a new op immediately before `anchor`, in the same block; it takes the anchor's schedule
unless it has one. -/
def insertBefore (k : Kernel) (anchor : OpId) (op : TileOp) : Except KernelError (OpId × Kernel) := do
  let block ← k.placed anchor
  let op := if op.sched.isNone then { op with sched := (k.op anchor).sched } else op
  let (h, k) ← k.addOp op
  let k := k.modifyBlock block
    (fun xs => insertAt xs ((xs.idxOf? anchor).getD 0) h)
    (fun ss => insertAt ss ((ss.idxOf? (.op anchor)).getD 0) (.op h))
  return (h, k)

/-- Places a new op immediately after `anchor`, in the same block; it takes the anchor's schedule
unless it has one. -/
def insertAfter (k : Kernel) (anchor : OpId) (op : TileOp) : Except KernelError (OpId × Kernel) := do
  let block ← k.placed anchor
  let op := if op.sched.isNone then { op with sched := (k.op anchor).sched } else op
  let (h, k) ← k.addOp op
  let k := k.modifyBlock block
    (fun xs => insertAt xs (((xs.idxOf? anchor).map (· + 1)).getD xs.length) h)
    (fun ss => insertAt ss (((ss.idxOf? (.op anchor)).map (· + 1)).getD ss.length) (.op h))
  return (h, k)

/-- Makes every dependent of `src` other than `dst` depend on `dst` instead. -/
def redirectDependents (k : Kernel) (src dst : OpId) : Kernel :=
  (k.dependents src).foldl (fun k d =>
    if d == dst then k
    else k.modifyOp d fun o => { o with deps := dst.insertSorted (o.deps.erase src) }) k

/-- Replaces a placed op by a new one in place: the new op takes over the old one's dependencies,
dependents, schedule and position, and the old op is removed. -/
def replaceOp (k : Kernel) (old : OpId) (op : TileOp) : Except KernelError (OpId × Kernel) := do
  let block ← k.placed old
  k.checkOperands op
  let prev := k.op old
  let h : OpId := ⟨k.ops.size⟩
  let k := { k with ops := k.ops.push { op with deps := prev.deps, sched := prev.sched } }
  let k := k.redirectDependents old h
  let k := k.modifyBlock block (·.map fun x => if x == old then h else x)
    (·.map fun s => if s == .op old then .op h else s)
  return (h, { k with removed := k.removed ++ [old] })

/-- Removes a placed op; its dependents inherit its dependencies. -/
def removeOp (k : Kernel) (h : OpId) : Except KernelError Kernel := do
  let block ← k.placed h
  let inherited := (k.op h).deps
  let k := (k.dependents h).foldl (fun k d =>
    k.modifyOp d fun o => { o with deps := inherited.foldl (fun ds x => x.insertSorted ds) (o.deps.erase h) }) k
  let k := k.modifyBlock block (·.filter (· != h)) (·.filter (· != .op h))
  return { k with removed := k.removed ++ [h] }

end Kernel
end TileKernel
