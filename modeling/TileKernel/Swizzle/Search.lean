import TileKernel.Analysis.Access
import TileKernel.Lowering.Basic

/-!
# Choosing swizzles for shared buffers

Every shared buffer with a conflicting accessor gets the first member of the configured family
that makes all of its accessors conflict-free at once. `SwizzleFamily.candidates` lists the
family's members for a buffer in a fixed order (kind, then field width, then base, then shift),
so the choice is deterministic: only members that are permutations of the whole buffer, whose
base keeps the widest accessor vector contiguous, and whose fields stay inside the buffer's
address bits.
-/

set_option autoImplicit false

namespace TileKernel

/-- The exponent of the least power of two at or above `n` (zero for `n ≤ 1`). -/
def ceilLog2 (n : Nat) : Nat := if n ≤ 1 then 0 else Nat.log2 (n - 1) + 1

/-- `ceilLog2`, for a power of two that must fit a 32-bit word: above `2 ^ 31` rounding up
overflows the word and faults. -/
def ceilLog2Checked (n : Nat) : Checked Nat :=
  if Nat.pow 2 31 < n then throw .addOverflow else pure (ceilLog2 n)

namespace SwizzleFamily

/-- The family's swizzles for a buffer of `extent` elements, in search order. `minBase` keeps
the widest accessor vector contiguous; `rowElems` is the number of elements in one bank row and
bounds the default field width. Every field lies within the `log2 extent` address bits, and the
shift is at least the width, so widths above that bit count give nothing. -/
def listed (f : SwizzleFamily) (extent minBase rowElems : Nat) : List Swizzle :=
  if extent = 0 then [] else
  let extentBits := Nat.log2 extent
  let rowBits := Nat.log2 (max rowElems 1)
  let maxBits := f.maxBits.getD (rowBits - minBase)
  f.kinds.flatMap fun kind =>
    (List.range' 1 (min maxBits extentBits)).flatMap fun bits =>
      (List.range' minBase (extentBits - minBase)).flatMap fun base =>
        (List.range' bits (extentBits + 1 - (base + 2 * bits))).filterMap fun shift =>
          match Swizzle.make kind bits base shift with
          | .ok s => if s.isBijectiveOn extent then some s else none
          | .error _ => none

/-- The candidates: the `listed` swizzles, found by trying every width up to the family's widest
and every base below the address bits, with the field's end `base + shift + bits` summed in a
32-bit word from the first shift on. The widths past the address bits add nothing to the list,
but their sums are still taken; the largest, at the widest field and the highest base, overflows
exactly when one of them does, and then the search faults. -/
def candidates (f : SwizzleFamily) (extent minBase rowElems : Nat) : Checked (List Swizzle) := do
  let extentBits := Nat.log2 extent
  let maxBits := f.maxBits.getD (Nat.log2 (max rowElems 1) - minBase)
  if extent ≠ 0 ∧ f.kinds ≠ [] ∧ 0 < maxBits ∧ minBase < extentBits then
    let reach ← Word.u32.add (extentBits - 1) maxBits
    let _ ← Word.u32.add reach maxBits
  return f.listed extent minBase rowElems

end SwizzleFamily

/-- The worst conflict degree over the patterns (one when there are none). -/
def worstDegree (t : Target) (patterns : List AccessPattern) (elemBytes : Nat)
    (swizzle : Option Swizzle) : Checked Nat :=
  patterns.foldlM (fun w p => do return max w (← conflictDegree t p elemBytes swizzle)) 1

/-- Whether the swizzle makes every pattern conflict-free, which is whether the worst degree under
it is 1: every access of every pattern is taken first, in the order the worst degree takes them,
so a fault is the one that degree meets; the wavefronts are then looked at until one conflicts. -/
def conflictFreeUnder (t : Target) (patterns : List AccessPattern) (elemBytes : Nat)
    (s : Swizzle) : Checked Bool := do
  let m := BankModel.ofTarget t
  patterns.forM fun p => m.checkAccesses p elemBytes (some s)
  return patterns.all fun p => m.conflictFree p elemBytes (some s)

/-- The distinct op names of the patterns, in pattern order. -/
def accessorNames (k : Kernel) (patterns : List AccessPattern) : List String :=
  patterns.foldl (fun names p =>
    let name := (k.op p.op).name
    if names.contains name then names else names ++ [name]) []

/-- Swizzles one shared buffer if an accessor conflicts: `none` when nothing conflicts, the
swizzle attached otherwise. -/
def swizzleBuffer (o : CompileOptions) (d : DefUse) (h : BufferId) :
    KernelM LowerError (Option Swizzle) := do
  let k ← get
  let t := o.target
  let buffer := k.buffer h
  if buffer.layout.isNone then throw (.kernel (.unresolved buffer.name))
  let patterns ← liftM (accessPatterns k t d h)
  if patterns.isEmpty then return none
  let elem := buffer.dtype.bytes
  let worst ← liftM (worstDegree t patterns elem none)
  if worst ≤ 1 then return none
  let minBase ← liftM (m := Checked)
    (patterns.foldlM (fun m p => do return max m (← ceilLog2Checked (max p.vector 1))) 0)
  let rowElems := max ((← liftM t.bankRowBytes) / max elem 1) 1
  let candidates ← liftM (o.swizzleFamily.candidates (← liftM buffer.elements) minBase rowElems)
  let found ← liftM (m := Checked) (candidates.findM? (conflictFreeUnder t patterns elem))
  match found with
  | none => throw (.swizzleInfeasible buffer.name (accessorNames k patterns) worst)
  | some s =>
    KernelM.lift (KernelM.updateChecked (·.attachSwizzle h s))
    return some s

/-- Swizzles the shared buffers that `wanted` admits and that carry no swizzle, are not ring
instances and are not marked `noSwizzle`, in handle order; answers the swizzles attached. A
buffer without a layout is unresolved. -/
def swizzleWhere (o : CompileOptions) (wanted : BufferId → Bool) :
    KernelM LowerError (List (BufferId × Swizzle)) := do
  let k ← get
  let d := DefUse.build k
  let shared := k.bufferIds.filter fun h =>
    let b := k.buffer h
    b.scope == .shared && !b.noSwizzle && b.swizzle.isNone && b.instanceOf.isNone && wanted h
  let chosen ← shared.mapM fun h => do
    pure ((← swizzleBuffer o d h).map fun s => (h, s))
  pure chosen.reduceOption

/-- Swizzles every shared buffer that needs it. -/
def optimizeSwizzles (o : CompileOptions) : KernelM LowerError (List (BufferId × Swizzle)) :=
  swizzleWhere o fun _ => true

/-- Swizzles the shared buffers from index `known` on, those added after the swizzle stage. -/
def optimizeNewSwizzles (o : CompileOptions) (known : Nat) :
    KernelM LowerError (List (BufferId × Swizzle)) :=
  swizzleWhere o fun h => known ≤ h.idx

end TileKernel
