import TileKernel.Analysis.Dependence
import TileKernel.Lowering.Basic

/-!
# Software pipelining of load/compute loops

A loop of depth `d > 1` is rewritten into

* a prologue issuing the loads of iterations `0 … d-2`,
* a steady block, run `extent - (d - 1)` times, that issues the load of iteration `i + d - 1`,
  waits until at most `d - 1` load groups are in flight, computes iteration `i` and synchronizes,
* an epilogue computing the remaining iterations while draining the outstanding loads.

Every buffer written by a load gets a ring of `d` rotating instances, so the load for iteration
`t` and the compute for iteration `t` meet in instance `t % d` while the others are in flight. A
depth of one keeps the body as one steady block run `extent` times.

Each block entry is a fresh clone of a body op. A clone keeps its original's dependencies on ops
outside the loop and mirrors those on body ops cloned earlier in the same slot; ops outside the
loop that depended on a body op then depend on its last clone.

`checkPipelinable` refuses a depth above one when the overlap would change what the body computes:
no load stage, too few iterations, a load fed by a computation, a staged buffer written by a
computation or read before its load, or a staged buffer used outside the loop.
-/

set_option autoImplicit false

namespace TileKernel

/-- Checks that pipelining loop `l` at `depth > 1` keeps the body's meaning; answers the staged
buffers (the load destinations) in body order. `entries` pairs the body ops with their stages. -/
def checkPipelinable (k : Kernel) (l : LoopId) (depth : Nat) (entries : List (OpId × Stage)) :
    Except LowerError (List BufferId) := do
  let lp := k.loop l
  let violation := fun (reason : DependencyViolation) (op : Option OpId) (b : Option BufferId) =>
    LowerError.pipelineDependency lp.name depth (op.map fun h => (k.op h).name)
      (b.map fun b => (k.buffer b).name) reason
  let stageAt := fun (i : Nat) => (entries[i]?.map (·.2)).getD .compute
  if !entries.any (·.2 == .load) then throw (violation .noLoadStage none none)
  if lp.extent < depth - 1 then throw (violation .tripCountTooSmall none none)
  let loads := entries.filter (·.2 == .load)
  let staged := loads.foldl (fun acc (h, _) =>
    (k.op h).outputs.foldl (fun acc o => if acc.contains o.buffer then acc else acc ++ [o.buffer])
      acc) []
  for dep in loopDependencies k l do
    if dep.kind == .dataFlow && stageAt dep.src == .compute && stageAt dep.dst == .load then
      throw (violation .computeFeedsLoad ((entries[dep.dst]?).map (·.1)) (some dep.buffer))
  for b in staged do
    let writesB := fun (h : OpId) => (k.op h).outputs.any (·.buffer == b)
    let firstLoad := (entries.findIdx? fun (h, s) => s == .load && writesB h).getD 0
    for ((h, s), i) in entries.zipIdx do
      if s == .compute then
        if writesB h then throw (violation .stagedBufferWrittenByCompute (some h) (some b))
        if i < firstLoad && (k.op h).reads.any (·.buffer == b) then
          throw (violation .readBeforeWrite (some h) (some b))
    let outside := k.liveOps.find? fun h =>
      !(entries.any (·.1 == h)) && (k.op h).operands.any (·.buffer == b)
    if let some h := outside then throw (violation .stagedBufferLiveOut (some h) (some b))
  pure staged

/-- A ring of `depth` instances for a staged buffer: the buffer itself, then fresh buffers
`name_stageJ` that inherit its layout and swizzle. -/
def allocateRing (logical : BufferId) (depth : Nat) : KernelM KernelError Ring := do
  let buffer := (← get).buffer logical
  let rest ← (List.range' 1 (depth - 1)).mapM fun j => do
    let inst := { buffer.renamed s!"{buffer.name}_stage{j}" with instanceOf := some (logical, j) }
    let h ← KernelM.edit (·.addBuffer inst)
    if let some layout := buffer.layout then KernelM.update (·.attachLayout h layout)
    if let some s := buffer.swizzle then KernelM.updateChecked (·.attachSwizzle h s)
    pure h
  pure ⟨logical, logical :: rest⟩

/-- Adds a barrier in the compute stage of a phase, after the given ops. -/
def addBarrier (kind : BarrierKind) (phase : Phase) (after : List OpId) : KernelM KernelError OpId := do
  let name := match kind with
    | .sync => "sync"
    | .asyncWait _ => "wait"
  let h ← KernelM.edit (·.addOp (TileOp.barrier name kind))
  KernelM.update (·.setSched h ⟨computeStage, phase, .relative 0, h⟩)
  after.forM fun a => KernelM.update (·.addDependency h a)
  pure h

/-- Clones the given body ops for one source iteration; answers the `(original, clone)` pairs in
order. Operands on staged buffers rotate. A clone depends on its original's dependencies outside
the loop, on the clones made earlier in this slot of its dependencies inside the loop, and on
`after`. -/
def cloneSlot (body : List OpId) (staged : List BufferId) (entries : List (OpId × Stage))
    (phase : Phase) (iteration : IterRef) (after : Option OpId) :
    KernelM KernelError (List (OpId × OpId)) :=
  entries.foldlM (fun (made : List (OpId × OpId)) (original, stage) => do
    let op := ((← get).op original).detached
    let mark := fun (o : Operand) => if staged.contains o.buffer then { o with rotating := true } else o
    let deps := ((← get).op original).deps
    let h ← KernelM.edit (·.addOp { op with inputs := op.inputs.map mark, outputs := op.outputs.map mark })
    let stageNo := match stage with
      | .load => loadStage
      | .compute => computeStage
    KernelM.update (·.setSched h ⟨stageNo, phase, iteration, original⟩)
    deps.forM fun dep =>
      if !body.contains dep then KernelM.update (·.addDependency h dep)
      else match made.lookup dep with
        | some c => KernelM.update (·.addDependency h c)
        | none => pure ()
    if let some b := after then KernelM.update (·.addDependency h b)
    pure (made ++ [(original, h)])) []

/-- The last clone of `original` among the pairs. -/
def lastClone (pairs : List (OpId × OpId)) (original : OpId) : Option OpId :=
  (pairs.filter (·.1 == original)).getLast?.map (·.2)

/-- Rewrites loop `l` into its pipelined form at `depth`. -/
def pipelineLoop (l : LoopId) (depth : Nat) : KernelM LowerError Unit := do
  let k ← get
  let lp ← liftM (Checked.entry k.loops l.idx)
  if depth = 0 then throw (.kernel (.invalidLoop lp.name "pipeline depth must be at least 1"))
  let body := lp.body
  let entries := body.map fun h => (h, classifyStage k (k.op h))
  let staged ← if 1 < depth then
      match checkPipelinable k l depth entries with
      | .ok s => pure s
      | .error e => throw e
    else pure []
  KernelM.lift do
    let rings ← staged.mapM fun b => allocateRing b depth
    let slot := cloneSlot body staged
    let (expansion, pairs) ← if depth = 1 then do
        let made ← slot entries .steady (.relative 0) none
        pure ((⟨depth, lp.extent, [], made.map (·.2), [], rings⟩ : Expansion), made)
      else do
        let ahead := depth - 1
        let loads := entries.filter (·.2 == .load)
        let computes := entries.filter (·.2 == .compute)
        let trips := lp.extent - ahead
        let prologue ← (List.range ahead).mapM fun t => slot loads .prologue (.absolute t) none
        let issued ← slot loads .steady (.relative ahead) none
        let wait ← addBarrier (.asyncWait ahead) .steady (issued.map (·.2))
        let computed ← slot computes .steady (.relative 0) (some wait)
        let sync ← addBarrier .sync .steady (computed.map (·.2))
        let epilogue ← (List.range' trips (lp.extent - trips)).mapM fun t => do
          let w ← addBarrier (.asyncWait (lp.extent - 1 - t)) .epilogue []
          let made ← slot computes .epilogue (.absolute t) (some w)
          pure (w, made)
        let expansion : Expansion :=
          { depth, steadyTrips := trips, prologue := (prologue.map (·.map (·.2))).flatten,
            steady := issued.map (·.2) ++ [wait] ++ computed.map (·.2) ++ [sync],
            epilogue := epilogue.flatMap fun (w, made) => w :: made.map (·.2), rings }
        pure (expansion, prologue.flatten ++ issued ++ computed ++ (epilogue.map (·.2)).flatten)
    KernelM.update (·.setExpansion l expansion)
    let originals := Kernel.sortedIds (pairs.map (·.1))
    originals.forM fun original => match lastClone pairs original with
      | some c => modify (·.redirectDependents original c)
      | none => pure ()

/-- Pipelines every loop not yet pipelined that has a depth: the one the options give for its
name, else its declared one; answers the loops rewritten. The first failure stops. -/
def pipelineLoops (o : CompileOptions) : KernelM LowerError (List LoopId) := do
  let k ← get
  let nests := k.loopIds.filterMap fun l =>
    let lp := k.loop l
    if lp.expansion.isSome then none
    else ((o.pipelineDepth.lookup lp.name).or lp.depth).map fun d => (l, d)
  nests.mapM fun (l, d) => do
    pipelineLoop l d
    pure l

end TileKernel
