import TileKernel.Assignment.Assign
import TileKernel.Swizzle.Search
import TileKernel.Lowering.Pipeline
import TileKernel.Pass.Manager

/-!
# Lowering a kernel

`lower` runs the fixed sequence of stages over a kernel in place: it validates the kernel,
assigns a layout to every buffer (inserting materializing copies where two ops disagree),
swizzles the shared buffers when the options allow it, pipelines the loops that ask for it, runs
the standard passes, swizzles the shared buffers the passes created, and checks that the result
is valid and fully resolved. The first failing stage stops it, and what the stages changed
before stays.
-/

set_option autoImplicit false

namespace TileKernel

/-- The stages before the rewrite passes: validation, layout assignment, the first swizzle stage
when the options allow it, and pipelining. -/
def layoutAndPipeline (o : CompileOptions) : KernelM LowerError Unit := do
  KernelM.lift (KernelM.check Kernel.validate)
  let _ ← assignLayouts o
  if o.swizzle then
    let _ ← optimizeSwizzles o
  let _ ← pipelineLoops o

/-- Lowers a kernel in place under the options. The buffers declared after `layoutAndPipeline`
are those the passes add; the second swizzle stage treats only them. -/
def lower (o : CompileOptions) : KernelM LowerError Unit := do
  layoutAndPipeline o
  let known := (← get).buffers.size
  let _ ← KernelM.lift (runPasses (Pass.standard o.target))
  if o.swizzle then
    let _ ← optimizeNewSwizzles o known
  KernelM.lift (KernelM.check Kernel.validate)
  KernelM.lift (KernelM.check Kernel.checkResolved)

end TileKernel
