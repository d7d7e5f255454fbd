import TileKernel.Lowering.Basic

/-!
# Reference kernels

Each builder stands in for a front end: it returns an unlowered kernel with shapes, scopes, loop
annotations and dependencies set, validated and ready for lowering. Ops are appended to the body
(or to a loop's body) in order, each followed by its dependencies; the first failure is the
builder's answer. Sizes derived from the parameters are 32-bit products and fault when they
overflow.
-/

set_option autoImplicit false

namespace TileKernel
namespace Catalog

/-- Declares a buffer. -/
def declare (name : String) (shape : Shape) (dtype : Scalar) (scope : Scope) :
    KernelM KernelError BufferId :=
  KernelM.edit (·.addBuffer { name, shape, dtype, scope })

/-- Adds an op with its dependencies. -/
def depend (h : OpId) (after : List OpId) : KernelM KernelError Unit :=
  after.forM fun d => KernelM.update (·.addDependency h d)

/-- Appends an op to the body, after the given ops. -/
def append (op : TileOp) (after : List OpId) : KernelM KernelError OpId := do
  let h ← KernelM.edit (·.addOp op)
  KernelM.update (·.push h)
  depend h after
  pure h

/-- Appends an op to a loop's body, after the given ops. -/
def appendTo (l : LoopId) (op : TileOp) (after : List OpId) : KernelM KernelError OpId := do
  let h ← KernelM.edit (·.addOp op)
  KernelM.update (·.pushToLoop l h)
  depend h after
  pure h

/-- Runs a builder on an empty kernel of the name and validates the result. -/
def build (name : String) (steps : KernelM KernelError Unit) : ExceptT KernelError Checked Kernel := do
  match ← KernelM.run (do steps; KernelM.check Kernel.validate) { name } with
  | (.ok (), k) => pure k
  | (.error e, _) => throw e

/-- An accumulating matrix product. -/
def product (name : String) (a b c : Operand) : TileOp :=
  { name, kind := .gemm true, inputs := [a, b], outputs := [c] }

/-- The zero literal. -/
def zero : Literal := .float (Binary64.zero false)

/-- The operands and the K loop of the 64 × 64 products: `acc` cleared, then per 32-deep slice
`a` and `b` staged through shared memory and multiplied into `acc`. Answers the accumulator and
the product op. -/
def gemmMainLoop (kTiles depth : Nat) : KernelM KernelError (BufferId × OpId) := do
  let k ← liftM (m := Checked) (Word.u32.mul 32 kTiles)
  let a ← declare "a" [64, k] .f16 .global
  let b ← declare "b" [k, 64] .f16 .global
  let sA ← declare "s_a" [64, 32] .f16 .shared
  let sB ← declare "s_b" [32, 64] .f16 .shared
  let acc ← declare "acc" [64, 64] .f32 .fragment
  let clear ← append (.fill "clear" zero (.whole acc)) []
  let l ← KernelM.edit (·.pushLoop { name := "k_loop", extent := kTiles, depth := some depth })
  let loadA ← appendTo l (.copy "load_a" (.stepped a 1 32) (.whole sA)) []
  let loadB ← appendTo l (.copy "load_b" (.stepped b 0 32) (.whole sB)) []
  let mma ← appendTo l (product "mma" (.whole sA) (.whole sB) (.whole acc)) [clear, loadA, loadB]
  pure (acc, mma)

/-- `c = a * b` for a 64 × 64 output over `kTiles` slices, the loop at `depth`. -/
def gemm (kTiles depth : Nat) : ExceptT KernelError Checked Kernel :=
  build "gemm" do
    let (acc, mma) ← gemmMainLoop kTiles depth
    let c ← declare "c" [64, 64] .f32 .global
    let _ ← append (.copy "store" (.whole acc) (.whole c)) [mma]

/-- A 64 × (64 · `nTiles`) product with A resident in shared memory and one B column tile
staged per iteration: the loop has exactly one staging buffer. -/
def streamedGemm (nTiles depth : Nat) : ExceptT KernelError Checked Kernel :=
  build "streamed_gemm" do
    let n ← liftM (m := Checked) (Word.u32.mul 64 nTiles)
    let a ← declare "a" [64, 32] .f16 .global
    let b ← declare "b" [32, n] .f16 .global
    let c ← declare "c" [64, n] .f32 .global
    let sA ← declare "s_a" [64, 32] .f16 .shared
    let sB ← declare "s_b" [32, 64] .f16 .shared
    let acc ← declare "acc" [64, n] .f32 .fragment
    let clear ← append (.fill "clear" zero (.whole acc)) []
    let loadA ← append (.copy "load_a" (.whole a) (.whole sA)) []
    let l ← KernelM.edit (·.pushLoop { name := "n_loop", extent := nTiles, depth := some depth })
    let loadB ← appendTo l (.copy "load_b" (.stepped b 1 64) (.whole sB)) []
    let mma ← appendTo l (product "mma" (.whole sA) (.whole sB) (.stepped acc 1 64))
      [clear, loadA, loadB]
    let _ ← append (.copy "store" (.whole acc) (.whole c)) [mma]

/-- One 16 × 8 matrix step whose A operand is copied from global memory straight into
registers, in a layout the A operand tile does not divide; `forbidCopies` forbids the
materializing copy that would resolve it. -/
def fragmentConflictGemm (forbidCopies : Bool) : ExceptT KernelError Checked Kernel :=
  build "fragment_gemm" do
    let a ← declare "a" [16, 32] .f16 .global
    let b ← declare "b" [32, 8] .f16 .global
    let c ← declare "c" [16, 8] .f32 .global
    let aFrag ← KernelM.edit (·.addBuffer
      { name := "a_frag", shape := [16, 32], dtype := .f16, scope := .fragment, noCopy := forbidCopies })
    let sB ← declare "s_b" [32, 8] .f16 .shared
    let acc ← declare "acc" [16, 8] .f32 .fragment
    let loadA ← append (.copy "load_a" (.whole a) (.whole aFrag)) []
    let loadB ← append (.copy "load_b" (.whole b) (.whole sB)) []
    let step : TileOp :=
      { name := "mma", kind := .gemm false, inputs := [.whole aFrag, .whole sB], outputs := [.whole acc] }
    let mma ← append step [loadA, loadB]
    let _ ← append (.copy "store" (.whole acc) (.whole c)) [mma]

/-- Row sums of a 16 × (32 · `tiles`) f16 matrix, accumulated in f32 over a loop at `depth`. -/
def rowReduce (tiles depth : Nat) : ExceptT KernelError Checked Kernel :=
  build "row_reduce" do
    let x ← declare "x" [16, ← liftM (m := Checked) (Word.u32.mul 32 tiles)] .f16 .global
    let out ← declare "out" [16] .f32 .global
    let sX ← declare "s_x" [16, 32] .f16 .shared
    let part ← declare "part" [16] .f32 .local
    let acc ← declare "acc" [16] .f32 .local
    let clear ← append (.fill "clear" zero (.whole acc)) []
    let l ← KernelM.edit (·.pushLoop { name := "col_loop", extent := tiles, depth := some depth })
    let load ← appendTo l (.copy "load" (.stepped x 1 32) (.whole sX)) []
    let rowSums : TileOp :=
      { name := "partial", kind := .reduce .sum 1, inputs := [.whole sX], outputs := [.whole part] }
    let sums ← appendTo l rowSums [load]
    let accumulate : TileOp :=
      { name := "accumulate", kind := .elementwise .add, inputs := [.whole part, .whole acc],
        outputs := [.whole acc] }
    let add ← appendTo l accumulate [clear, sums]
    let _ ← append (.copy "store" (.whole acc) (.whole out)) [add]

/-- One K slice of a split-K product: the partial product is added into `c` atomically. -/
def splitKGemm (kTiles : Nat) : ExceptT KernelError Checked Kernel :=
  build "split_k_gemm" do
    let (acc, mma) ← gemmMainLoop kTiles 1
    let c ← declare "c" [64, 64] .f32 .global
    let update : TileOp :=
      { name := "reduce", kind := .atomic .add none, inputs := [.whole acc], outputs := [.whole c] }
    let _ ← append update [mma]

/-- The kernels available by name, with a one-line description. -/
def entries : List (String × String) :=
  [("gemm", "64x64 GEMM, both operands staged through shared memory"),
   ("streamed-gemm", "64x256 GEMM with resident A and B streamed per column tile"),
   ("fragment-gemm", "GEMM with A copied straight into registers"),
   ("row-reduce", "row sums of a 16-row f16 matrix into f32"),
   ("split-k-gemm", "GEMM slice accumulated into global memory atomically")]

/-- A kernel by name with its default parameters; `none` for an unknown name. -/
def byName? : String → Option (ExceptT KernelError Checked Kernel)
  | "gemm" => some (gemm 4 2)
  | "streamed-gemm" => some (streamedGemm 4 2)
  | "fragment-gemm" => some (fragmentConflictGemm false)
  | "row-reduce" => some (rowReduce 8 2)
  | "split-k-gemm" => some (splitKGemm 4)
  | _ => none

end Catalog
end TileKernel
