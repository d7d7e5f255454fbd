import TileKernel.Swizzle
import TileKernel.Target
import TileKernel.Kernel.Op

/-!
# Banked shared memory

Shared memory is split into `banks` banks of `width`-byte words, word `w` living in bank
`w % banks`. The lanes of one instruction are served in wavefronts of `banks * width` bytes;
within a wavefront a bank serves one distinct word per cycle, lanes reading the same word being
served together. `BankModel.conflictDegree` is the largest number of distinct words one bank must
serve in one wavefront, over every instruction of an access pattern: 1 means conflict-free. A
single bank models unbanked memory and never conflicts. Offsets and byte addresses are 64-bit
words: a pattern reaching past them faults.
-/

set_option autoImplicit false

namespace TileKernel

/-- One lane's access: `elems` consecutive elements from element `offset` of the buffer's dense
layout, before any swizzle. -/
structure LaneAccess where
  lane : Nat
  offset : Nat
  elems : Nat
deriving DecidableEq, Repr

/-- The accesses one op issues against one buffer: `vector` elements per lane access, and one
list of lane accesses per instruction. -/
structure AccessPattern where
  op : OpId
  vector : Nat
  phases : List (List LaneAccess)
deriving DecidableEq, Repr

/-- A banked memory, both counts at least 1. -/
structure BankModel where
  banks : Nat
  width : Nat
deriving DecidableEq, Repr

namespace BankModel

/-- The model with `banks` banks of `width` bytes, each raised to at least 1. -/
def make (banks width : Nat) : BankModel := ⟨max banks 1, max width 1⟩

/-- The target's bank model. -/
def ofTarget (t : Target) : BankModel := make t.bankCount t.bankWidth

/-- Cuts a list into consecutive chunks of `n` (the last may be shorter). -/
def chunks {α : Type} (n : Nat) (xs : List α) : List (List α) :=
  if h : n = 0 then [xs] else
  match xs with
  | [] => []
  | x :: rest =>
    have : (x :: rest).length - n < (x :: rest).length := by simp; omega
    ((x :: rest).take n) :: chunks n ((x :: rest).drop n)
termination_by xs.length

/-- The word holding element `e` of a lane access, after the swizzle; offsets and byte
addresses are 64-bit words. -/
def wordOf (m : BankModel) (eb : Nat) (swizzle : Option Swizzle) (lane : LaneAccess) (e : Nat) :
    Checked Nat := do
  let offset ← Word.u64.add lane.offset e
  let physical := match swizzle with
    | some s => s.applyBits offset
    | none => offset
  return (← Word.u64.mul physical eb) / m.width

/-- The words one wavefront asks for, repeats included, taken in access order. -/
def waveWords (m : BankModel) (eb : Nat) (swizzle : Option Swizzle) (wave : List LaneAccess) :
    Checked (List Nat) :=
  wave.foldlM (fun acc lane =>
    foldRangeM lane.elems (fun acc e => do
      return (← m.wordOf eb swizzle lane e) :: acc) acc) []

/-- Scans `(bank, word)` pairs sorted by bank then word: the current bank and word, the
distinct words of the current bank so far, and the most of any bank. -/
def busiestStep (acc : Option (Nat × Nat) × Nat × Nat) (bw : Nat × Nat) :
    Option (Nat × Nat) × Nat × Nat :=
  let (prev, run, best) := acc
  match prev with
  | some (b, w) =>
    if b = bw.1 then
      if w = bw.2 then acc else (some bw, run + 1, max best (run + 1))
    else (some bw, 1, max best 1)
  | none => (some bw, 1, max best 1)

/-- The largest number of distinct words that one bank serves among `words` (at least 1): the
words are sorted by bank and word, so the distinct words of a bank form one run. -/
def busiestBank (m : BankModel) (words : List Nat) : Nat :=
  let keyed := (words.map fun w => (w % m.banks, w)).mergeSort
    fun a b => a.1 < b.1 || (a.1 == b.1 && a.2 ≤ b.2)
  (keyed.foldl busiestStep (none, 0, 1)).2.2

/-- The wavefronts of a pattern: each instruction's lane accesses cut into groups that one
wavefront of `banks * width` bytes serves. -/
def waves (m : BankModel) (p : AccessPattern) (eb : Nat) : List (List LaneAccess) :=
  let accessBytes := max p.vector 1 * eb
  let perWave := max (m.banks * m.width / accessBytes) 1
  p.phases.flatMap (chunks perWave)

/-- The worst number of distinct words one bank serves in one wavefront. -/
def conflictDegree (m : BankModel) (p : AccessPattern) (elemBytes : Nat)
    (swizzle : Option Swizzle) : Checked Nat := do
  if m.banks ≤ 1 then return 1
  let eb := max elemBytes 1
  (m.waves p eb).foldlM (fun worst wave => do
    return max worst (m.busiestBank (← m.waveWords eb swizzle wave))) 1

/-- Takes every word of the pattern as `conflictDegree` does, in the same order, so it faults
exactly where the degree does; a single bank takes none. -/
def checkAccesses (m : BankModel) (p : AccessPattern) (elemBytes : Nat)
    (swizzle : Option Swizzle) : Checked Unit := do
  if m.banks ≤ 1 then return
  let eb := max elemBytes 1
  p.phases.forM fun phase => phase.forM fun lane =>
    foldRangeM lane.elems (fun _ e => do
      let _ ← m.wordOf eb swizzle lane e) ()

/-- Whether no wavefront of the pattern asks two distinct words of one bank, stopping at the
first that does. Meant for a pattern whose accesses `checkAccesses` has taken: then it says
whether the conflict degree is 1. -/
def conflictFree (m : BankModel) (p : AccessPattern) (elemBytes : Nat)
    (swizzle : Option Swizzle) : Bool :=
  m.banks ≤ 1 ||
  let eb := max elemBytes 1
  (m.waves p eb).all fun wave =>
    match m.waveWords eb swizzle wave with
    | .ok words => m.busiestBank words ≤ 1
    | .error _ => false

end BankModel

/-- The conflict degree of a pattern under the target's bank model. -/
def conflictDegree (t : Target) (p : AccessPattern) (elemBytes : Nat) (swizzle : Option Swizzle) :
    Checked Nat :=
  (BankModel.ofTarget t).conflictDegree p elemBytes swizzle

end TileKernel
