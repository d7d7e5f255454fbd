import TileKernel.Codegen.Select

/-!
# CUDA text

The CUDA emitter selects instructions for matrix-unit GPUs and prints one translation unit built
against the `tilec/cuda.cuh` support header. Global buffers become kernel parameters, `const`
when no instruction writes them; shared buffers are static shared arrays, register tiles
`tilec::Fragment` values and other buffers per-lane arrays. A ring of rotating instances is one
array of instance pointers, indexed by the iteration modulo its length. An operand's address
goes through its swizzle and then its loop window; an instruction lists outputs before inputs,
then a fill's literal.
-/

set_option autoImplicit false

namespace TileKernel
namespace Cuda

/-- The rules of matrix-unit GPUs, specialised forms before generic ones. -/
def table (target : String) : Table :=
  { target, rules := [
    ⟨.copy, [.global, .shared], "tilec::cp_async"⟩,
    ⟨.copy, [.shared, .mma .a], "tilec::ldmatrix"⟩,
    ⟨.copy, [.shared, .mma .b], "tilec::ldmatrix_trans"⟩,
    ⟨.copy, [.dense, .fragment], "tilec::load_fragment"⟩,
    ⟨.copy, [.strip, .mma .a], "tilec::shuffle_fragment"⟩,
    ⟨.copy, [.strip, .mma .b], "tilec::shuffle_fragment"⟩,
    ⟨.copy, [.mma .acc, .dense], "tilec::store_accumulator"⟩,
    ⟨.copy, [.fragment, .dense], "tilec::store_fragment"⟩,
    ⟨.copy, [.fragment, .fragment], "tilec::move_fragment"⟩,
    ⟨.copy, [.dense, .dense], "tilec::copy"⟩,
    ⟨.fill, [.fragment], "tilec::fill_fragment"⟩,
    ⟨.fill, [.dense], "tilec::fill"⟩,
    ⟨.reduce, [.dense, Slot.local], "tilec::reduce"⟩,
    ⟨.reduce, [.dense, .shared], "tilec::reduce"⟩,
    ⟨.reduce, [.fragment, .dense], "tilec::warp_reduce"⟩,
    ⟨.elementwise, [.dense, .dense, .dense], "tilec::elementwise"⟩,
    ⟨.elementwise, [.fragment, .fragment, .fragment], "tilec::elementwise_fragment"⟩,
    ⟨.cast, [.dense, .dense], "tilec::convert"⟩,
    ⟨.cast, [.fragment, .fragment], "tilec::convert_fragment"⟩,
    ⟨.gemm, [.mma .a, .mma .b, .mma .acc], "tilec::mma_sync"⟩,
    ⟨.gemm, [.feed .a, .feed .b, .mma .acc], "tilec::mma_smem"⟩,
    ⟨.atomic, [.any, .global], "tilec::red_global"⟩,
    ⟨.atomic, [.any, .shared], "tilec::atomic_shared"⟩,
    ⟨.barrier, [], "tilec::barrier"⟩] }

/-- Static shared memory a block may declare without opting in to the larger carve-out. -/
def staticSharedLimit : Nat := 49152

/-- The spelling of an element type. -/
def typeName (s : Scalar) : String :=
  let bits := s.width * 8
  match s.kind with
  | .bool => "bool"
  | .float => if bits = 16 then "half" else if bits = 64 then "double" else "float"
  | .bfloat => "__nv_bfloat16"
  | .sint => s!"int{bits}_t"
  | .uint => s!"uint{bits}_t"

/-- Bytes of shared memory the kernel declares, summed in a 64-bit word. -/
def sharedBytes (k : LoweredKernel) : Checked Nat :=
  (k.buffers.filter (·.scope == .shared)).foldlM
    (fun n b => do Word.u64.add n (← Word.u64.mul b.elements b.dtype.bytes)) 0

/-- A literal argument: floats with an `f` suffix, NaN and the infinities by their macros. -/
def literal : Literal → String
  | .float v =>
    match v.view with
    | .nan => "NAN"
    | .inf neg => if neg then "-INFINITY" else "INFINITY"
    | .finite .. => Literal.floatText v ++ "f"
  | l => l.text

/-- The iteration an operand is addressed at: a fixed number, the counter `i`, `(i + k)`, or
`0` outside loops. -/
def counter : Option IterRef → String
  | some (.absolute t) => toString t
  | some (.relative 0) => "i"
  | some (.relative k) => s!"(i + {k})"
  | none => "0"

/-- The declaration of a non-global buffer. -/
def declaration (b : LoweredBuffer) : Option String :=
  let ty := typeName b.dtype
  match b.scope, b.regsPerLane with
  | .global, _ => none
  | _, some regs => some s!"tilec::Fragment<{ty}, {regs}> {b.name};"
  | .shared, none => some s!"__shared__ __align__(16) {ty} {b.name}[{b.elements}];"
  | _, none => some s!"{ty} {b.name}[{b.elements}];"

/-- The ring declarations, one per rotating buffer, in order of first use. -/
def rings (k : LoweredKernel) : List String :=
  let operands := k.ops.flatMap fun op => op.inputs ++ op.outputs
  let step := fun (acc : List String × List String) (o : LoweredOperand) =>
    if o.ring.isEmpty || acc.1.contains o.buffer then acc else
    let seen := acc.1 ++ [o.buffer]
    match k.buffer? o.buffer with
    | none => (seen, acc.2)
    | some b =>
      let elem := typeName b.dtype
      let ty := match b.regsPerLane with
        | some regs => s!"tilec::Fragment<{elem}, {regs}>"
        | none => elem
      let amp := if o.layoutClass.isFragment then "&" else ""
      let instances := ", ".intercalate (o.ring.map (amp ++ ·))
      (seen, acc.2 ++ [s!"{ty}* const {o.buffer}_ring[{o.ring.length}] = \x7b{instances}\x7d;"])
  (operands.foldl step ([], [])).2

/-- The name of a swizzle kind in the support header. -/
def swizzleKindName : SwizzleKind → String
  | .xor => "Xor"
  | .rotate => "Rotate"
  | .rotateInverse => "RotateInverse"

/-- An operand's address expression. -/
def operand (o : LoweredOperand) (it : Option IterRef) : String :=
  let ctr := counter it
  let base := if o.ring.isEmpty then o.buffer else
    let deref := if o.layoutClass.isFragment then "*" else ""
    s!"{deref}{o.buffer}_ring[{ctr} % {o.ring.length}]"
  let swizzled := match o.swizzle with
    | some sw =>
      let kind := swizzleKindName sw.kind
      s!"tilec::swizzled<tilec::{kind}, {sw.bits}, {sw.base}, {sw.shift}>({base})"
    | none => base
  match o.step with
  | some st => s!"tilec::window<{st.axis}, {st.extent}>({swizzled}, {ctr})"
  | none => swizzled

/-- A compile-time parameter as a template argument. -/
def templateArg : Param → String
  | .num n => toString n
  | .flag b => if b then "true" else "false"
  | .word w => "tilec::op::" ++ w

/-- One instruction as a statement, without indentation; with `lineInfo`, a comment names the
op and its iteration. -/
def instruction (lineInfo : Bool) (op : LoweredOp) : String :=
  let params := op.params
  let head := if params.isEmpty then op.mnemonic
    else op.mnemonic ++ "<" ++ ", ".intercalate (params.map templateArg) ++ ">"
  let fillArg := match op.kind with
    | .fill v => [literal v]
    | _ => []
  let args := (op.outputs ++ op.inputs).map (operand · op.iteration) ++ fillArg
  let note := if !lineInfo then "" else
    match op.iteration with
    | some it => s!"  // {op.name} @ {it.text}"
    | none => s!"  // {op.name}"
  head ++ "(" ++ ", ".intercalate args ++ ");" ++ note

/-- The kernel's signature: one pointer parameter per global buffer. -/
def signature (k : LoweredKernel) : String :=
  let written := k.ops.flatMap fun op => op.outputs.map (·.buffer)
  let params := (k.buffers.filter (·.scope == .global)).map fun b =>
    let constness := if written.contains b.name then "" else "const "
    let ty := typeName b.dtype
    s!"{constness}{ty}* __restrict__ {b.name}"
  s!"extern \"C\" __global__ void {k.name}(" ++ ", ".intercalate params ++ ")"

/-- The translation unit of a lowered kernel. -/
def emit (lineInfo : Bool) (k : LoweredKernel) : String :=
  let decls := k.buffers.filterMap declaration
  let body := k.body.flatMap fun
    | .op op => ["  " ++ instruction lineInfo op]
    | .loop name trips ops =>
      s!"  for (int i = 0; i < {trips}; ++i) \x7b  // {name}" ::
        ops.map (fun op => "    " ++ instruction lineInfo op) ++ ["  \x7d"]
  let lines :=
    [s!"// Generated by tilec for {k.target}.", "#include <tilec/cuda.cuh>", "",
      signature k ++ " \x7b"] ++
    decls.map ("  " ++ ·) ++ (rings k).map ("  " ++ ·) ++ (if decls.isEmpty then [] else [""]) ++
    body ++ ["\x7d"]
  String.join (lines.map (· ++ "\n"))

/-- Whether any register tile is declared, which needs whole warps. -/
def usesFragments (k : LoweredKernel) : Bool := k.buffers.any (·.layoutClass.isFragment)

end Cuda
end TileKernel
