import TileKernel.Session.Basic
import TileKernel.Analysis.Trace

/-!
# Session steps

A `Command` is one step of a session: a construction step calls the kernel operation of the same
name, a stage step runs a lowering stage, a pass or a backend, and a query reads the kernel
without changing it. `Session.run` performs a step and answers a `Reply`, which refers to the
kernel's handles; the kernel the step leaves gives them their names.

References are resolved before anything changes. Construction steps and stages take handle
indices as they are, since the kernel operations check them; queries, loop pipelining and
dependent redirection, which would otherwise read past the arenas, refuse an index that names
nothing.
-/

set_option autoImplicit false

namespace TileKernel

/-- One command of a session. -/
inductive Command where
  | addBuffer (name : String) (shape : Shape) (dtype : Scalar) (scope : Scope)
      (hint : Option LayoutSpec) (noCopy noSwizzle : Bool)
  /-- Adds an op, and with `push` appends it to the body as well. -/
  | addOp (spec : OpSpec) (push : Bool)
  | push (op : OpRef)
  | pushLoop (name : String) (extent : Nat) (depth : Option Nat)
  | pushToLoop (loop : LoopRef) (op : OpRef)
  | addDependency (op on : OpRef)
  | insertBefore (anchor : OpRef) (spec : OpSpec)
  | insertAfter (anchor : OpRef) (spec : OpSpec)
  | replaceOp (old : OpRef) (spec : OpSpec)
  | removeOp (op : OpRef)
  | redirectDependents (src dst : OpRef)
  | attachLayout (buffer : BufferRef) (layout : LayoutSpec)
  | attachSwizzle (buffer : BufferRef) (kind : SwizzleKind) (bits base shift : Nat)
  | setSched (op : OpRef) (stage : Nat) (phase : Phase) (iteration : IterRef) (origin : OpRef)
  | validate
  | checkResolved
  | assignLayouts
  | optimizeSwizzles
  /-- Swizzles the shared buffers from index `known` on. -/
  | optimizeNewSwizzles (known : Nat)
  | pipelineLoops
  | pipelineLoop (loop : LoopRef) (depth : Nat)
  /-- Runs one pass, once. -/
  | pass (name : String)
  /-- Runs the named passes, or the standard ones, each for its rounds. -/
  | passManager (names : Option (List String))
  | lower
  | backend (target : String) (lineInfo : Bool)
  | dump
  | liveOps
  | topologicalOrder
  | opInfo (op : OpRef)
  | allOps
  | bufferInfo (buffer : BufferRef)
  | allBuffers
  | loopInfo (loop : LoopRef)
  | dependents (op : OpRef)
  | dependsOn (op target : OpRef)
  | checkOperands (spec : OpSpec)
  | defUse
  | loopDependencies (loop : LoopRef)
  | traceLoop (loop : LoopRef)
  | classifyStage (op : OpRef)
  | accessPattern (op : OpRef) (buffer : BufferRef)
  | accessPatterns (buffer : BufferRef)
  | legalVector (op : OpRef)
  | scopeCandidates (buffer : BufferRef)
deriving Repr

/-- An access pattern with its conflict degree on the session target, without a swizzle and
under the buffer's swizzle if it has one. -/
structure PatternReport where
  pattern : AccessPattern
  degree : Nat
  degreeSwizzled : Option Nat

/-- The answer to a step. -/
inductive Reply where
  | ok
  | buffer (h : BufferId)
  | op (h : OpId)
  | loop (l : LoopId)
  /-- The materializing copies inserted. -/
  | copies (hs : List OpId)
  | swizzled (entries : List (BufferId × Swizzle))
  | loops (ls : List LoopId)
  | changed (b : Bool)
  | passes (changed : Bool) (names : List String)
  | emitted (b : Backend) (out : BackendOutput)
  | text (s : String)
  | ops (hs : List OpId)
  | order (hs : List OpId)
  | opInfo (h : OpId)
  | allOps
  | bufferInfo (h : BufferId)
  | allBuffers
  | loopInfo (l : LoopId)
  | result (b : Bool)
  | defUse (d : DefUse)
  | dependencies (ds : List LoopDependency)
  | trace (effects : List Effect)
  | stage (s : Stage)
  | pattern (p : Option PatternReport)
  | patterns (ps : List PatternReport)
  | vector (v : Option Nat)
  | layouts (ls : List Layout)

/-- The pattern's degrees on a target for the buffer it accesses. -/
def PatternReport.of (t : Target) (b : Buffer) (p : AccessPattern) : Checked PatternReport := do
  let elem := b.dtype.bytes
  let degree ← conflictDegree t p elem none
  let degreeSwizzled ← match b.swizzle with
    | some s => some <$> conflictDegree t p elem (some s)
    | none => pure none
  return { pattern := p, degree, degreeSwizzled }

/-- Where a live op sits, in words: `body`, or `loop L`, `prologue L`, `steady L` or
`epilogue L` for loop `L`. -/
def Kernel.placementText (k : Kernel) (h : OpId) : Option String :=
  (k.placement h).map fun
    | .body => "body"
    | .loop l => s!"loop {(k.loop l).name}"
    | .prologue l => s!"prologue {(k.loop l).name}"
    | .steady l => s!"steady {(k.loop l).name}"
    | .epilogue l => s!"epilogue {(k.loop l).name}"

namespace Session

open SessionM in
/-- Performs a step. -/
def step : Command → SessionM Reply
  | .addBuffer name shape dtype scope hint noCopy noSwizzle => do
    let t ← getTarget
    let hint ← match hint with
      | some spec => some <$> attempt (spec.build t)
      | none => pure none
    let h ← edit (·.addBuffer { name, shape, dtype, scope, hint, noCopy, noSwizzle })
    pure (.buffer h)
  | .addOp spec push => do
    let op ← request ((← getKernel).resolveOpSpec spec)
    let h ← edit (·.addOp op)
    if push then update (·.push h)
    pure (.op h)
  | .push r => do
    let h ← request ((← getKernel).resolveOp r)
    update (·.push h)
    pure .ok
  | .pushLoop name extent depth => do
    let l ← edit (·.pushLoop { name, extent, depth })
    pure (.loop l)
  | .pushToLoop lr r => do
    let l ← request ((← getKernel).resolveLoop lr)
    let h ← request ((← getKernel).resolveOp r)
    update (·.pushToLoop l h)
    pure .ok
  | .addDependency r on => do
    let h ← request ((← getKernel).resolveOp r)
    let d ← request ((← getKernel).resolveOp on)
    update (·.addDependency h d)
    pure .ok
  | .insertBefore anchor spec => do
    let a ← request ((← getKernel).resolveOp anchor)
    let op ← request ((← getKernel).resolveOpSpec spec)
    pure (.op (← edit (·.insertBefore a op)))
  | .insertAfter anchor spec => do
    let a ← request ((← getKernel).resolveOp anchor)
    let op ← request ((← getKernel).resolveOpSpec spec)
    pure (.op (← edit (·.insertAfter a op)))
  | .replaceOp old spec => do
    let h ← request ((← getKernel).resolveOp old)
    let op ← request ((← getKernel).resolveOpSpec spec)
    pure (.op (← edit (·.replaceOp h op)))
  | .removeOp r => do
    let h ← request ((← getKernel).resolveOp r)
    update (·.removeOp h)
    pure .ok
  | .redirectDependents src dst => do
    let a ← request ((← getKernel).resolveOpChecked src)
    let b ← request ((← getKernel).resolveOpChecked dst)
    update fun k => .ok (k.redirectDependents a b)
    pure .ok
  | .attachLayout br spec => do
    let b ← request ((← getKernel).resolveBuffer br)
    let l ← attempt (spec.build (← getTarget))
    update (·.attachLayout b l)
    pure .ok
  | .attachSwizzle br kind bits base shift => do
    let b ← request ((← getKernel).resolveBuffer br)
    let s ← check (← liftM (Swizzle.build kind bits base shift))
    updateChecked (·.attachSwizzle b s)
    pure .ok
  | .setSched r stage phase iteration origin => do
    let h ← request ((← getKernel).resolveOp r)
    let o ← request ((← getKernel).resolveOpChecked origin)
    update (·.setSched h { stage, phase, iteration, origin := o })
    pure .ok
  | .validate => do
    let _ ← check (← getKernel).validate
    pure .ok
  | .checkResolved => do
    let _ ← check (← getKernel).checkResolved
    pure .ok
  | .assignLayouts => do
    let o := (← get).options
    pure (.copies (← stage .lower (assignLayouts o)))
  | .optimizeSwizzles => do
    let o := (← get).options
    pure (.swizzled (← stage .lower (optimizeSwizzles o)))
  | .optimizeNewSwizzles known => do
    let o := (← get).options
    pure (.swizzled (← stage .lower (optimizeNewSwizzles o known)))
  | .pipelineLoops => do
    let o := (← get).options
    pure (.loops (← stage .lower (pipelineLoops o)))
  | .pipelineLoop lr depth => do
    let l ← request ((← getKernel).resolveLoopChecked lr)
    stage .lower (pipelineLoop l depth)
    pure .ok
  | .pass name => do
    let p ← request ((Pass.ofName? (← getTarget) name).elim (.error (.unknownPass name)) .ok)
    pure (.changed (← stage .kernel p.run))
  | .passManager names => do
    let t ← getTarget
    let passes ← match names with
      | none => pure (Pass.standard t)
      | some ns => ns.mapM fun n => request ((Pass.ofName? t n).elim (.error (.unknownPass n)) .ok)
    let changed ← stage .kernel (runPasses passes)
    pure (.passes changed (passes.map Pass.name))
  | .lower => do
    let o := (← get).options
    stage .lower (lower o)
    pure .ok
  | .backend name lineInfo => do
    let b ← request ((Backend.ofTarget? name).elim (.error (.unknownBackend name)) .ok)
    match ← liftM (b.compile lineInfo (← getKernel)).run with
    | .ok out => pure (.emitted b out)
    | .error e => throw (.backend e)
  | .dump => do pure (.text (← liftM (← getKernel).dump))
  | .liveOps => do pure (.ops (← getKernel).liveOps)
  | .topologicalOrder => do pure (.order (← check (← getKernel).topologicalOrder))
  | .opInfo r => do pure (.opInfo (← request ((← getKernel).resolveOpChecked r)))
  | .allOps => pure .allOps
  | .bufferInfo r => do pure (.bufferInfo (← request ((← getKernel).resolveBufferChecked r)))
  | .allBuffers => pure .allBuffers
  | .loopInfo r => do pure (.loopInfo (← request ((← getKernel).resolveLoopChecked r)))
  | .dependents r => do
    let k ← getKernel
    pure (.ops (k.dependents (← request (k.resolveOpChecked r))))
  | .dependsOn r goal => do
    let k ← getKernel
    let h ← request (k.resolveOpChecked r)
    let t ← request (k.resolveOpChecked goal)
    pure (.result (k.dependsOn h t))
  | .checkOperands spec => do
    let k ← getKernel
    let op ← request (k.resolveOpSpec spec)
    let _ ← check (k.checkOperands op)
    pure .ok
  | .defUse => do pure (.defUse (DefUse.build (← getKernel)))
  | .loopDependencies r => do
    let k ← getKernel
    pure (.dependencies (loopDependencies k (← request (k.resolveLoopChecked r))))
  | .traceLoop r => do
    let k ← getKernel
    pure (.trace (← liftM (traceLoop k (← request (k.resolveLoopChecked r)))))
  | .classifyStage r => do
    let k ← getKernel
    pure (.stage (classifyStage k (k.op (← request (k.resolveOpChecked r)))))
  | .accessPattern r br => do
    let k ← getKernel
    let h ← request (k.resolveOpChecked r)
    let b ← request (k.resolveBufferChecked br)
    let t ← getTarget
    let found ← liftM (accessPattern k t h b).run
    pure (.pattern (← liftM (found.mapM (PatternReport.of t (k.buffer b)))))
  | .accessPatterns br => do
    let k ← getKernel
    let b ← request (k.resolveBufferChecked br)
    let t ← getTarget
    let found ← liftM (accessPatterns k t (DefUse.build k) b)
    pure (.patterns (← liftM (found.mapM (PatternReport.of t (k.buffer b)))))
  | .legalVector r => do
    let k ← getKernel
    let h ← request (k.resolveOpChecked r)
    pure (.vector (← liftM (legalVector (← getTarget) k (k.op h))))
  | .scopeCandidates br => do
    let k ← getKernel
    let b ← request (k.resolveBufferChecked br)
    pure (.layouts (← liftM (scopeCandidates (k.buffer b) (← getTarget))))

/-- Performs a step: its outcome and the session it leaves, unless it faults. -/
def run (s : Session) (st : Command) : Checked (Except StepError Reply × Session) :=
  (ExceptT.run (step st)).run s

end Session
end TileKernel
