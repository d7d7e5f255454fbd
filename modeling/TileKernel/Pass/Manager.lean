import TileKernel.Pass.StoreGranularity
import TileKernel.Pass.TypeDecoupling
import TileKernel.Pass.Simplify

/-!
# Rewrite passes and their order

A `Pass` is one rewrite over a kernel whose layouts and schedule are resolved. `runPasses` runs a
list of passes in order, each once, except simplification, which is repeated until a round
changes nothing, for ten rounds at most; it answers whether any round of any pass changed the
kernel, and stops at the first failure. The standard order is store granularity, type
decoupling, simplification.
-/

set_option autoImplicit false

namespace TileKernel

/-- A rewrite pass. -/
inductive Pass where
  /-- Picks legal per-lane chunks for copies and atomics on the target. -/
  | storeGranularity (t : Target)
  /-- Makes implicit element type conversions explicit casts. -/
  | typeDecoupling
  /-- Normalizes fills, folds constants and removes dead ops. -/
  | simplify

namespace Pass

/-- The pass's name. -/
def name : Pass → String
  | .storeGranularity _ => "store-granularity"
  | .typeDecoupling => "type-decoupling"
  | .simplify => "simplify"

/-- The pass of a name, with the target store granularity uses. -/
def ofName? (t : Target) : String → Option Pass
  | "store-granularity" => some (.storeGranularity t)
  | "type-decoupling" => some .typeDecoupling
  | "simplify" => some .simplify
  | _ => none

/-- How many rounds the pass may take: ten for simplification, one otherwise. -/
def rounds : Pass → Nat
  | .simplify => 10
  | _ => 1

/-- Runs the pass once; answers whether it changed anything. -/
def run : Pass → KernelM KernelError Bool
  | .storeGranularity t => TileKernel.storeGranularity t
  | .typeDecoupling => TileKernel.typeDecoupling
  | .simplify => TileKernel.simplify

/-- Runs the pass for up to `n` rounds, stopping after a round that changes nothing; answers
whether the first round changed anything. -/
def repeatRounds (p : Pass) : Nat → KernelM KernelError Bool
  | 0 => pure false
  | n + 1 => do
    if ← p.run then
      let _ ← p.repeatRounds n
      pure true
    else pure false

/-- Store granularity on the target, type decoupling, simplification. -/
def standard (t : Target) : List Pass := [.storeGranularity t, .typeDecoupling, .simplify]

end Pass

/-- Runs the passes in order, each for its rounds; answers whether any pass changed the
kernel. -/
def runPasses (passes : List Pass) : KernelM KernelError Bool :=
  passes.foldlM (fun changed p => do
    let c ← p.repeatRounds p.rounds
    pure (changed || c)) false

end TileKernel
