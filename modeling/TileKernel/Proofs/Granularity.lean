import TileKernel.Proofs.Simplification
import TileKernel.Proofs.Layout.Fragment

/-!
# Store granularity settles on the widest legal chunk

Store granularity gives every copy and atomic update the per-lane chunk it moves. The legal chunk
of an op (`legalVector`) is the widest power of two that every bound allows: the access budget
of the target over the widest element, each dense operand's swizzle chunk and the extent of its
tile along its innermost axis, each fragment operand's lane run, and one element for an operand
with no layout (`ChunkAllowed`). Operands whose contiguous axes differ allow one element only.

* `widestChunk_spec`: doubling from one stops at the greatest power of two within the cap that
  divides every extent; it faults rather than answer past `2 ^ 31`.
* `powerOfTwoSearches_exact`: the same doubling, against one extent, gives the natural vector of an
  access and the vector of a register strip. Each search answers (`DoublingAnswers`), and faults
  exactly when the greatest power of two it looks for is `2 ^ 31`, on the 32-bit double of it
  (`naturalVector_faults_at_top`).
* `legalVector_legal`: the legal chunk is that greatest power of two (`LegalChunk`), provided every
  fragment operand has a lane run. A raw fragment with a lane run of zero leaves no power of two
  within its bound, and the chunk is then one element.
* `storeGranularity_settles`: after a run that succeeds every live copy and atomic update records a
  power of two dividing its legal chunk, and a second run changes nothing.
-/

set_option autoImplicit false

namespace TileKernel

/-! ### Doubling to the widest chunk -/

section Chunks

variable {cap : Nat} {extents : List Nat}

/-- A chunk of `p` elements within the cap that divides every extent. -/
def ChunkFits (cap : Nat) (extents : List Nat) (p : Nat) : Prop := p ≤ cap ∧ ∀ e ∈ extents, p ∣ e

theorem chunkTest_iff {p : Nat} :
    (p ≤ cap ∧ extents.all (· % p == 0) = true) ↔ ChunkFits cap extents p := by
  simp [ChunkFits, Nat.dvd_iff_mod_eq_zero]

/-- Doubling from `2 ^ j` stops at a power `2 ^ i` below `2 ^ 31` that divides every extent, is
within the cap unless nothing was doubled, and whose double does not fit. Each double is taken
before it is tested, and the 32-bit product faults on the double of `2 ^ 31`, so the fuel never
runs out first. -/
theorem widestChunk_go_eq_ok : ∀ (fuel j : Nat) {w : Nat}, j ≤ 31 → 32 ≤ j + fuel →
    (∀ e ∈ extents, 2 ^ j ∣ e) → widestChunk.go cap extents fuel (2 ^ j) = .ok w →
    ∃ i, w = 2 ^ i ∧ i ≤ 30 ∧ (∀ e ∈ extents, 2 ^ i ∣ e) ∧ (i = j ∨ 2 ^ i ≤ cap) ∧
      ¬ ChunkFits cap extents (2 ^ (i + 1))
  | 0, j, w, hj, hfuel, _, _ => absurd hfuel (by omega)
  | fuel + 1, j, w, hj, hfuel, hdiv, h => by
    rw [widestChunk.go] at h
    rcases hmul : Word.u32.mul (2 ^ j) 2 with fault | twice
    · rw [hmul] at h
      cases h
    obtain ⟨rfl, hlt⟩ := Word.mul_eq_ok_iff.1 hmul
    have hdouble : 2 ^ j * 2 = 2 ^ (j + 1) := (Nat.pow_succ 2 j).symm
    have hbound : j + 1 ≤ 31 := by
      have : 2 ^ (j + 1) < 2 ^ 32 := by simpa [Word.bound, hdouble] using hlt
      exact Nat.lt_succ_iff.1 ((Nat.pow_lt_pow_iff_right (by omega)).1 this)
    rw [hmul, hdouble] at h
    change (if 2 ^ (j + 1) ≤ cap ∧ extents.all (· % 2 ^ (j + 1) == 0) = true then
      widestChunk.go cap extents fuel (2 ^ (j + 1)) else pure (2 ^ j)) = Except.ok w at h
    by_cases hfits : ChunkFits cap extents (2 ^ (j + 1))
    · rw [if_pos (chunkTest_iff.2 hfits)] at h
      obtain ⟨i, rfl, hi, hdivi, hcap, hstop⟩ :=
        widestChunk_go_eq_ok fuel (j + 1) hbound (by omega) hfits.2 h
      refine ⟨i, rfl, hi, hdivi, .inr ?_, hstop⟩
      rcases hcap with rfl | hcap
      · exact hfits.1
      · exact hcap
    · rw [if_neg (mt chunkTest_iff.1 hfits)] at h
      obtain rfl := Except.ok.inj h
      exact ⟨j, rfl, by omega, hdiv, .inl rfl, hfits⟩

/-- The widest chunk is a power of two below `2 ^ 31` that divides every extent, is within the cap
unless it is one element, and whose double does not fit. -/
theorem widestChunk_spec {w : Nat} (h : widestChunk cap extents = .ok w) :
    ∃ i, w = 2 ^ i ∧ i ≤ 30 ∧ (∀ e ∈ extents, w ∣ e) ∧ (w = 1 ∨ w ≤ cap) ∧
      ¬ ChunkFits cap extents (2 * w) := by
  obtain ⟨i, rfl, hi, hdiv, hcap, hstop⟩ :=
    @widestChunk_go_eq_ok cap extents 33 0 _ (by omega) (by omega) (fun e _ => by simp)
      (by simpa [widestChunk] using h)
  refine ⟨i, rfl, hi, hdiv, ?_, by rwa [Nat.mul_comm, ← Nat.pow_succ]⟩
  rcases hcap with rfl | hcap
  · exact .inl rfl
  · exact .inr hcap

/-- A chunk that fits keeps fitting when it is cut to a divisor. -/
theorem ChunkFits.of_dvd {p q : Nat} (h : ChunkFits cap extents p) (hp : 0 < p) (hq : q ∣ p) :
    ChunkFits cap extents q :=
  ⟨Nat.le_trans (Nat.le_of_dvd hp hq) h.1, fun e he => Nat.dvd_trans hq (h.2 e he)⟩

/-- When `2 ^ 31` fits, doubling from a power at most `2 ^ 31` climbs to it and faults on its
double. -/
theorem widestChunk_go_faults (hfits : ChunkFits cap extents (2 ^ 31)) :
    ∀ (fuel j : Nat), j ≤ 31 → 32 ≤ j + fuel →
      widestChunk.go cap extents fuel (2 ^ j) = .error .mulOverflow
  | 0, _, _, hfuel => absurd hfuel (by omega)
  | fuel + 1, j, hj, hfuel => by
    rw [widestChunk.go]
    rcases Nat.lt_or_ge j 31 with hlt | hge
    · -- Below `2 ^ 31` the double is computed and fits, since it divides `2 ^ 31`.
      have hdouble : 2 ^ j * 2 = 2 ^ (j + 1) := (Nat.pow_succ 2 j).symm
      have hsmall : 2 ^ j * 2 < Word.u32.bound := calc
        2 ^ j * 2 = 2 ^ (j + 1) := hdouble
        _ ≤ 2 ^ 31 := Nat.pow_le_pow_right (by omega) hlt
        _ < Word.u32.bound := by decide
      have hnext : ChunkFits cap extents (2 ^ (j + 1)) :=
        hfits.of_dvd (Nat.two_pow_pos 31) (Nat.pow_dvd_pow 2 hlt)
      rw [Word.mul_eq_ok hsmall, hdouble]
      change (if 2 ^ (j + 1) ≤ cap ∧ extents.all (· % 2 ^ (j + 1) == 0) = true then
        widestChunk.go cap extents fuel (2 ^ (j + 1)) else pure (2 ^ j)) = _
      rw [if_pos (chunkTest_iff.2 hnext)]
      exact widestChunk_go_faults hfits fuel (j + 1) hlt (by omega)
    · obtain rfl : j = 31 := by omega
      rw [Word.mul_eq_error (by decide)]
      rfl

/-- When `2 ^ 31` does not fit, doubling from one, or from a power that fits, answers. -/
theorem widestChunk_go_answers (hfits : ¬ ChunkFits cap extents (2 ^ 31)) :
    ∀ (fuel j : Nat), j ≤ 31 → 32 ≤ j + fuel → (j = 0 ∨ ChunkFits cap extents (2 ^ j)) →
      ∃ w, widestChunk.go cap extents fuel (2 ^ j) = .ok w
  | 0, _, _, hfuel, _ => absurd hfuel (by omega)
  | fuel + 1, j, hj, hfuel, hstart => by
    -- The power reached fits, so it is not yet `2 ^ 31`, and its double is computed.
    have hlt : j < 31 := by
      rcases hstart with rfl | hj'
      · omega
      · exact Nat.lt_of_le_of_ne hj fun h => hfits (h ▸ hj')
    have hdouble : 2 ^ j * 2 = 2 ^ (j + 1) := (Nat.pow_succ 2 j).symm
    have hsmall : 2 ^ j * 2 < Word.u32.bound := calc
      2 ^ j * 2 = 2 ^ (j + 1) := hdouble
      _ ≤ 2 ^ 31 := Nat.pow_le_pow_right (by omega) hlt
      _ < Word.u32.bound := by decide
    rw [widestChunk.go, Word.mul_eq_ok hsmall, hdouble]
    change ∃ w, (if 2 ^ (j + 1) ≤ cap ∧ extents.all (· % 2 ^ (j + 1) == 0) = true then
      widestChunk.go cap extents fuel (2 ^ (j + 1)) else pure (2 ^ j)) = Except.ok w
    by_cases hnext : ChunkFits cap extents (2 ^ (j + 1))
    · rw [if_pos (chunkTest_iff.2 hnext)]
      exact widestChunk_go_answers hfits fuel (j + 1) hlt (by omega) (.inr hnext)
    · rw [if_neg (mt chunkTest_iff.1 hnext)]
      exact ⟨2 ^ j, rfl⟩

/-- What doubling from one may answer for a cap and the extents a chunk must divide: the fault on
the double of `2 ^ 31` when `2 ^ 31` is within the cap and divides every extent, and otherwise the
greatest power of two within `max 1 cap` that divides every extent. -/
def DoublingAnswers (r : Checked Nat) (cap : Nat) (extents : List Nat) : Prop :=
  (ChunkFits (max 1 cap) extents (2 ^ 31) ∧ r = .error .mulOverflow) ∨
    (¬ ChunkFits (max 1 cap) extents (2 ^ 31) ∧
      ∃ w, r = .ok w ∧ IsGreatest {p | p.isPowerOfTwo ∧ ChunkFits (max 1 cap) extents p} w)

/-- A power of two above one fits under `max 1 cap` exactly when it fits under `cap`. -/
theorem chunkFits_max_one_iff {p : Nat} (hp : 1 < p) :
    ChunkFits (max 1 cap) extents p ↔ ChunkFits cap extents p := by
  have hle : p ≤ max 1 cap ↔ p ≤ cap := by omega
  simp only [ChunkFits, hle]

/-- Doubling to the widest chunk answers as `DoublingAnswers` says. -/
theorem widestChunk_answers (cap : Nat) (extents : List Nat) :
    DoublingAnswers (widestChunk cap extents) cap extents := by
  have h31 : ChunkFits (max 1 cap) extents (2 ^ 31) ↔ ChunkFits cap extents (2 ^ 31) :=
    chunkFits_max_one_iff (by decide)
  by_cases hfits : ChunkFits cap extents (2 ^ 31)
  · exact .inl ⟨h31.2 hfits, widestChunk_go_faults hfits 33 0 (by omega) (by omega)⟩
  obtain ⟨w, hw⟩ := widestChunk_go_answers hfits 33 0 (by omega) (by omega) (.inl rfl)
  obtain ⟨i, rfl, -, hdiv, hcap, hstop⟩ := widestChunk_spec hw
  refine .inr ⟨mt h31.1 hfits, 2 ^ i, hw, ⟨⟨i, rfl⟩, ?_, hdiv⟩, ?_⟩
  · rcases hcap with h1 | hle
    · rw [h1]
      exact Nat.le_max_left 1 cap
    · exact Nat.le_trans hle (Nat.le_max_right 1 cap)
  · -- A wider power of two that fits would make the double of the answer fit.
    rintro p ⟨⟨n, rfl⟩, hp⟩
    by_contra hgt
    have hn : i + 1 ≤ n :=
      Nat.succ_le_of_lt ((Nat.pow_lt_pow_iff_right (by omega)).1 (Nat.lt_of_not_le hgt))
    have hdvd : 2 * 2 ^ i ∣ 2 ^ n := by
      rw [← Nat.pow_succ']
      exact Nat.pow_dvd_pow 2 hn
    have hbig : 1 < 2 * 2 ^ i := by
      have := Nat.one_le_two_pow (n := i)
      omega
    exact hstop ((chunkFits_max_one_iff hbig).1 (hp.of_dvd (Nat.two_pow_pos n) hdvd))

/-- Doubling against one extent is doubling against the list of it. -/
theorem widestDividing_eq (cap n : Nat) : Fragment.widestDividing cap n = widestChunk cap [n] := by
  suffices ∀ fuel v, Fragment.widestDividing.go cap n fuel v = widestChunk.go cap [n] fuel v from
    this 33 1
  intro fuel
  induction fuel with
  | zero => exact fun _ => rfl
  | succ fuel ih =>
    intro v
    simp only [Fragment.widestDividing.go, widestChunk.go, ih, List.all_cons, List.all_nil,
      Bool.and_true, beq_iff_eq]

/-- **The power-of-two searches are exact up to one fault.** The natural vector of an extent, the
vector of a register strip (`Fragment.widestDividing`, against one extent) and the legal chunk
(`widestChunk`, against any extents) each answer the greatest power of two within `max 1 cap` that
divides every extent they consider, except when that power is `2 ^ 31`: then the 32-bit double
they test next faults. -/
theorem powerOfTwoSearches_exact (extent elemBytes vectorBytes cap : Nat) (extents : List Nat) :
    DoublingAnswers (naturalVector extent elemBytes vectorBytes)
      (max (vectorBytes / max elemBytes 1) 1) [extent] ∧
    DoublingAnswers (Fragment.widestDividing cap extent) cap [extent] ∧
    DoublingAnswers (widestChunk cap extents) cap extents := by
  refine ⟨?_, ?_, widestChunk_answers cap extents⟩
  · rw [naturalVector, widestDividing_eq]
    exact widestChunk_answers _ _
  · rw [widestDividing_eq]
    exact widestChunk_answers _ _

/-- An extent of `2 ^ 31` with one-byte elements and a vector of `2 ^ 32 - 1` bytes: the natural
vector is `2 ^ 31`, and the search faults on its double instead of answering it. -/
theorem naturalVector_faults_at_top :
    IsGreatest {p | p.isPowerOfTwo ∧ ChunkFits 4294967295 [2147483648] p} (2 ^ 31) ∧
      naturalVector 2147483648 1 4294967295 = .error .mulOverflow := by
  refine ⟨⟨⟨⟨31, rfl⟩, by decide, by simp⟩, ?_⟩, by decide⟩
  rintro p ⟨-, -, hdvd⟩
  exact Nat.le_of_dvd (by decide) (hdvd _ List.mem_cons_self)

end Chunks

/-! ### The bounds on a chunk -/

/-- The bytes one access of an op may move: a vector for a copy, an atomic word for an atomic
update. Other kinds move no chunk. -/
def Target.chunkBudget (t : Target) : OpKind → Option Nat
  | .copy .. => some t.vectorBytes
  | .atomic .. => some t.atomicBytes
  | _ => none

namespace Kernel

variable (t : Target) (k : Kernel)

/-- The widest element among an op's operands, at least one byte. -/
def widestElement (op : TileOp) : Nat :=
  (op.operands.map fun o => (k.buffer o.buffer).dtype.bytes).foldl max 1

/-- The axis along which an operand's elements lie next to each other: a dense layout's innermost
dimension, a fragment's contiguous axis; none without a layout. -/
def contiguousAxis? (o : Operand) : Option Nat :=
  match (k.buffer o.buffer).layout with
  | some (.dense d) => some d.innermost
  | some (.fragment f) => some f.contiguousAxis
  | none => none

/-- Two operands of the op have their elements next to each other along different axes. -/
def AxesDiffer (op : TileOp) : Prop :=
  ∃ o ∈ op.operands, ∃ o' ∈ op.operands, ∃ a a', k.contiguousAxis? o = some a ∧
    k.contiguousAxis? o' = some a' ∧ a ≠ a'

/-- Every bound on a chunk of `p` elements of an op: the access budget over the widest element (at
least one element), one element for an operand without a layout, the swizzle chunk of a dense
operand and the extent of its tile along its innermost axis, and the lane run of a fragment
operand. -/
structure ChunkAllowed (op : TileOp) (p : Nat) : Prop where
  budget : ∀ b, t.chunkBudget op.kind = some b → p ≤ max 1 (b / k.widestElement op)
  unlaid : ∀ o ∈ op.operands, (k.buffer o.buffer).layout = none → p ≤ 1
  swizzle : ∀ o ∈ op.operands, ∀ d s, (k.buffer o.buffer).layout = some (.dense d) →
    (k.buffer o.buffer).swizzle = some s → p ≤ s.chunkElems
  extent : ∀ o ∈ op.operands, ∀ d, (k.buffer o.buffer).layout = some (.dense d) →
    p ∣ (o.tileShape (k.buffer o.buffer).shape)[d.innermost]?.getD 1
  laneRun : ∀ o ∈ op.operands, ∀ f, (k.buffer o.buffer).layout = some (.fragment f) →
    p ≤ f.laneRun

/-- Every fragment operand of the op gives each lane a run of at least one element. -/
def RunsPositive (op : TileOp) : Prop :=
  ∀ o ∈ op.operands, ∀ f, (k.buffer o.buffer).layout = some (.fragment f) → 0 < f.laneRun

/-- The legal chunk of an op: a power of two; one element when two operands' contiguous axes
differ or an operand has no layout; otherwise, when every fragment operand has a lane run, the
greatest power of two that every bound allows. -/
structure LegalChunk (op : TileOp) (v : Nat) : Prop where
  pow : v.isPowerOfTwo
  axes : k.AxesDiffer op → v = 1
  unlaid : (∃ o ∈ op.operands, (k.buffer o.buffer).layout = none) → v = 1
  greatest : ¬ k.AxesDiffer op → k.RunsPositive op →
    IsGreatest {p | p.isPowerOfTwo ∧ k.ChunkAllowed t op p} v

variable {t k}

/-- Bounds only grow easier for a power of two dividing an allowed one. -/
theorem ChunkAllowed.of_dvd {op : TileOp} {p q : Nat} (h : k.ChunkAllowed t op p) (hp : 0 < p)
    (hq : q ∣ p) : k.ChunkAllowed t op q :=
  have hle : q ≤ p := Nat.le_of_dvd hp hq
  ⟨fun b hb => Nat.le_trans hle (h.budget b hb), fun o ho hl => Nat.le_trans hle (h.unlaid o ho hl),
    fun o ho d s hd hs => Nat.le_trans hle (h.swizzle o ho d s hd hs),
    fun o ho d hd => Nat.dvd_trans hq (h.extent o ho d hd),
    fun o ho f hf => Nat.le_trans hle (h.laneRun o ho f hf)⟩

/-- One element is allowed when every fragment operand has a lane run. -/
theorem chunkAllowed_one {op : TileOp} (hr : k.RunsPositive op) : k.ChunkAllowed t op 1 :=
  ⟨fun _ _ => Nat.le_max_left _ _, fun _ _ _ => Nat.le_refl 1,
    fun _ _ _ _ _ _ => Nat.one_le_two_pow, fun _ _ _ _ => Nat.one_dvd _,
    fun o ho f hf => hr o ho f hf⟩

/-! ### What one operand allows -/

theorem sideLimit_axis (o : Operand) : (sideLimit k o).axis = k.contiguousAxis? o := by
  rcases hl : (k.buffer o.buffer).layout with _ | d | f <;> simp [sideLimit, contiguousAxis?, hl]

/-- Below the 32-bit cap of an unswizzled dense operand, a chunk is within an operand's limit
exactly when it meets the operand's bound. -/
theorem le_sideLimit_cap_iff {o : Operand} {p : Nat} (hp : p ≤ unboundedRun) :
    p ≤ (sideLimit k o).cap ↔ ((k.buffer o.buffer).layout = none → p ≤ 1) ∧
      (∀ d s, (k.buffer o.buffer).layout = some (.dense d) → (k.buffer o.buffer).swizzle = some s →
        p ≤ s.chunkElems) ∧
      ∀ f, (k.buffer o.buffer).layout = some (.fragment f) → p ≤ f.laneRun := by
  rcases hl : (k.buffer o.buffer).layout with _ | d | f
  · simp [sideLimit, hl]
  · rcases hs : (k.buffer o.buffer).swizzle with _ | s <;> simp [sideLimit, hl, hs, hp]
  · simp [sideLimit, hl]

theorem mem_extents_iff {op : TileOp} {e : Nat} :
    e ∈ (op.operands.map (sideLimit k)).filterMap (·.extent) ↔ ∃ o ∈ op.operands, ∃ d,
      (k.buffer o.buffer).layout = some (.dense d) ∧
      e = (o.tileShape (k.buffer o.buffer).shape)[d.innermost]?.getD 1 := by
  simp only [List.filterMap_map, List.mem_filterMap, Function.comp]
  refine exists_congr fun o => and_congr_right fun _ => ?_
  rcases hl : (k.buffer o.buffer).layout with _ | d | f <;> simp [sideLimit, hl, eq_comm]

/-- Some member of a list differs from its head exactly when two members differ. -/
theorem any_ne_headD_iff (xs : List Nat) :
    xs.any (· != xs.headD 0) = true ↔ ∃ a ∈ xs, ∃ b ∈ xs, a ≠ b := by
  cases xs with
  | nil => simp
  | cons x xs =>
    simp only [List.any_eq_true, List.headD_cons, bne_iff_ne, ne_eq]
    constructor
    · rintro ⟨a, ha, hne⟩
      exact ⟨a, ha, x, List.mem_cons_self, hne⟩
    · rintro ⟨a, ha, b, hb, hab⟩
      by_cases hax : a = x
      · exact ⟨b, hb, fun hbx => hab (hax.trans hbx.symm)⟩
      · exact ⟨a, ha, hax⟩

theorem axesDiffer_iff {op : TileOp} :
    k.AxesDiffer op ↔ ((op.operands.map (sideLimit k)).filterMap (·.axis)).any
      (· != ((op.operands.map (sideLimit k)).filterMap (·.axis)).headD 0) = true := by
  rw [any_ne_headD_iff]
  simp only [List.filterMap_map, List.mem_filterMap, Function.comp, sideLimit_axis, AxesDiffer]
  constructor
  · rintro ⟨o, ho, o', ho', a, a', ha, ha', hne⟩
    exact ⟨a, ⟨o, ho, ha⟩, a', ⟨o', ho', ha'⟩, hne⟩
  · rintro ⟨a, ⟨o, ho, ha⟩, a', ⟨o', ho', ha'⟩, hne⟩
    exact ⟨o, ho, o', ho', a, a', ha, ha', hne⟩

theorem le_foldl_min_iff {α : Type} {g : α → Nat} {p : Nat} :
    ∀ {xs : List α} {c : Nat}, p ≤ xs.foldl (fun c s => min c (g s)) c ↔ p ≤ c ∧ ∀ s ∈ xs, p ≤ g s
  | [], c => by simp
  | x :: xs, c => by
    rw [List.foldl_cons, le_foldl_min_iff, Nat.le_min]
    simp only [List.mem_cons, forall_eq_or_imp]
    exact and_assoc

/-- A running maximum is at least where it starts. -/
theorem le_foldl_max : ∀ (xs : List Nat) (c : Nat), c ≤ xs.foldl max c
  | [], _ => Nat.le_refl _
  | x :: xs, c => Nat.le_trans (Nat.le_max_left c x) (le_foldl_max xs (max c x))

theorem max_widestElement (op : TileOp) :
    max ((op.operands.map fun o => (k.buffer o.buffer).dtype.bytes).foldl max 1) 1 = k.widestElement op :=
  Nat.max_eq_left (le_foldl_max _ 1)

/-- Within the 32-bit cap, the operands' limits as store granularity folds them allow exactly the
chunks every bound allows. -/
theorem chunkFits_iff_allowed {op : TileOp} {b p : Nat} (hb : t.chunkBudget op.kind = some b)
    (hp : p ≤ unboundedRun) :
    ChunkFits ((op.operands.map (sideLimit k)).foldl (fun c s => min c s.cap)
        (max (b / max ((op.operands.map fun o => (k.buffer o.buffer).dtype.bytes).foldl max 1) 1) 1))
      ((op.operands.map (sideLimit k)).filterMap (·.extent)) p ↔ k.ChunkAllowed t op p := by
  rw [ChunkFits, le_foldl_min_iff, List.forall_mem_map, max_widestElement, Nat.max_comm]
  simp only [le_sideLimit_cap_iff hp]
  constructor
  · rintro ⟨⟨hbud, hsides⟩, hext⟩
    refine ⟨fun b' hb' => ?_, fun o ho => (hsides o ho).1, fun o ho => (hsides o ho).2.1,
      fun o ho d hd => hext _ (mem_extents_iff.2 ⟨o, ho, d, hd, rfl⟩), fun o ho => (hsides o ho).2.2⟩
    rw [hb] at hb'
    obtain rfl := Option.some.inj hb'
    exact hbud
  · intro h
    refine ⟨⟨h.budget b hb, fun o ho => ⟨h.unlaid o ho, h.swizzle o ho, h.laneRun o ho⟩⟩, fun e he => ?_⟩
    obtain ⟨o, ho, d, hd, rfl⟩ := mem_extents_iff.1 he
    exact h.extent o ho d hd

/-- **The legal chunk.** When store granularity computes the chunk of an op, the chunk is a power
of two; it is one element when two operands' contiguous axes differ or an operand has no layout;
otherwise, when every fragment operand has a lane run, it is the greatest power of two that the
budget, the swizzle chunks, the tile extents and the lane runs allow. -/
theorem legalVector_legal {op : TileOp} {v : Nat} (h : legalVector t k op = .ok (some v)) :
    k.LegalChunk t op v := by
  unfold legalVector at h
  simp only [bind, Except.bind, pure, Except.pure] at h
  split at h
  · rename_i b hbudget
    have hb : t.chunkBudget op.kind = some b := by
      rw [← hbudget]
      generalize op.kind = kind
      cases kind <;> rfl
    split at h
    · rename_i hany
      obtain rfl : v = 1 := by simpa using h.symm
      exact ⟨⟨0, rfl⟩, fun _ => rfl, fun _ => rfl, fun hne => absurd (axesDiffer_iff.2 hany) hne⟩
    · rename_i hany
      split at h
      · cases h
      rename_i w hw
      obtain rfl : w = v := by simpa using h
      obtain ⟨i, rfl, hi, hdiv, hcap, hstop⟩ := widestChunk_spec hw
      have hsmall : 2 * 2 ^ i ≤ unboundedRun := by
        have : 2 ^ i ≤ 2 ^ 30 := Nat.pow_le_pow_right (by omega) hi
        unfold unboundedRun
        omega
      refine ⟨⟨i, rfl⟩, fun hne => absurd (axesDiffer_iff.1 hne) hany, fun ⟨o, ho, hl⟩ => ?_,
        fun _ hr => ⟨⟨⟨i, rfl⟩, ?_⟩, fun p ⟨hp, hallowed⟩ => ?_⟩⟩
      · -- An operand without a layout caps the chunk at one element.
        rcases hcap with h1 | hle
        · exact h1
        have hone : 2 ^ i ≤ 1 := ((le_sideLimit_cap_iff (by omega)).1
          ((le_foldl_min_iff.1 hle).2 _ (List.mem_map_of_mem ho))).1 hl
        exact Nat.le_antisymm hone Nat.one_le_two_pow
      · rcases hcap with h1 | hle
        · rw [h1]
          exact chunkAllowed_one hr
        · exact (chunkFits_iff_allowed hb (by omega)).1 ⟨hle, hdiv⟩
      · -- A wider power of two would make the double of the chunk allowed as well.
        by_contra hgt
        obtain ⟨n, rfl⟩ := hp
        have hn : i + 1 ≤ n :=
          Nat.succ_le_of_lt ((Nat.pow_lt_pow_iff_right (by omega)).1 (Nat.lt_of_not_le hgt))
        have hdvd : 2 * 2 ^ i ∣ 2 ^ n := by
          rw [← Nat.pow_succ']
          exact Nat.pow_dvd_pow 2 hn
        exact hstop ((chunkFits_iff_allowed hb hsmall).2 (hallowed.of_dvd Nat.one_le_two_pow hdvd))
  · cases h

/-! ### What the legal chunk reads -/

/-- The legal chunk reads of an op its kind and operands only. -/
theorem legalVector_congr_op {op op' : TileOp} (hk : op'.kind = op.kind) (ho : op'.operands = op.operands) :
    legalVector t k op' = legalVector t k op := by
  simp only [legalVector, hk, ho]

/-- The legal chunk reads the kernel's buffers only. -/
theorem legalVector_congr_kernel {k' : Kernel} (hb : k'.buffers = k.buffers) (op : TileOp) :
    legalVector t k' op = legalVector t k op := by
  have hbuf : k'.buffer = k.buffer := by
    funext b
    simp [Kernel.buffer, Kernel.buffer?, hb]
  have hside : sideLimit k' = sideLimit k := by
    funext o
    simp only [sideLimit, hbuf]
  simp only [legalVector, hbuf, hside]

theorem legalVector_detached {k' : Kernel} (hb : k'.buffers = k.buffers) {op op' : TileOp}
    (hd : op'.detached = op.detached) : legalVector t k' op' = legalVector t k op := by
  rw [legalVector_congr_kernel hb]
  have hin : op'.inputs = op.inputs := (congrArg TileOp.inputs hd :)
  have hout : op'.outputs = op.outputs := (congrArg TileOp.outputs hd :)
  exact legalVector_congr_op (congrArg TileOp.kind hd :) (by simp only [TileOp.operands, hin, hout])

/-- Recording a chunk keeps the kind's budget. -/
theorem chunkBudget_withVector (kind : OpKind) (v : Nat) :
    t.chunkBudget (kind.withVector v) = t.chunkBudget kind := by
  cases kind <;> rfl

/-- Recording a chunk changes no legal chunk. -/
theorem legalVector_withVector (op : TileOp) (v : Nat) :
    legalVector t k { op with kind := op.kind.withVector v } = legalVector t k op := by
  unfold legalVector
  cases op.kind <;> rfl

/-! ### Runs of store granularity -/

/-- An op that store granularity leaves alone: its legal chunk computes, and either the op moves
no chunk or it records a power of two dividing the legal one. -/
def ChunkSettled (t : Target) (k : Kernel) (op : TileOp) : Prop :=
  legalVector t k op = .ok none ∨ ∃ L, legalVector t k op = .ok (some L) ∧ chunkFits op.kind.vector? L = true

theorem chunkFits_some_iff {v L : Nat} : chunkFits (some v) L = true ↔ v.isPowerOfTwo ∧ v ∣ L := by
  simp only [chunkFits, Bool.and_eq_true, bne_iff_ne, ne_eq, beq_iff_eq, Nat.dvd_iff_mod_eq_zero]
  constructor
  · rintro ⟨⟨hv, hand⟩, hmod⟩
    exact ⟨(Nat.and_sub_one_eq_zero_iff_isPowerOfTwo hv).1 hand, hmod⟩
  · rintro ⟨hpow, hmod⟩
    have hv : v ≠ 0 := by
      obtain ⟨n, rfl⟩ := hpow
      exact Nat.pos_iff_ne_zero.1 (Nat.two_pow_pos n)
    exact ⟨⟨hv, (Nat.and_sub_one_eq_zero_iff_isPowerOfTwo hv).2 hpow⟩, hmod⟩

theorem chunkBudget_of_legalVector {op : TileOp} {L : Nat} (h : legalVector t k op = .ok (some L)) :
    ∃ b, t.chunkBudget op.kind = some b := by
  unfold legalVector at h
  simp only [bind, Except.bind, pure, Except.pure] at h
  split at h
  · rename_i b hbudget
    refine ⟨b, ?_⟩
    rw [← hbudget]
    generalize op.kind = kind
    cases kind <;> rfl
  · cases h

theorem vector?_withVector {kind : OpKind} {b : Nat} (hb : t.chunkBudget kind = some b) (v : Nat) :
    (kind.withVector v).vector? = some v := by
  cases kind <;> first | rfl | cases hb

theorem chunkSettled_congr {k' : Kernel} (hb : k'.buffers = k.buffers) {op op' : TileOp}
    (hd : op'.detached = op.detached) : k'.ChunkSettled t op' ↔ k.ChunkSettled t op := by
  have hkind : op'.kind = op.kind := (congrArg TileOp.kind hd :)
  simp only [ChunkSettled, legalVector_detached hb hd, hkind]

/-- An op replaced by one recording its legal chunk is settled. -/
theorem chunkSettled_withVector {op : TileOp} {L : Nat} (h : legalVector t k op = .ok (some L)) :
    k.ChunkSettled t { op.detached with kind := op.kind.withVector L } := by
  obtain ⟨b, hb⟩ := chunkBudget_of_legalVector h
  have hlegal : legalVector t k { op.detached with kind := op.kind.withVector L } = .ok (some L) :=
    ((legalVector_congr_op rfl rfl).trans (legalVector_withVector op L)).trans h
  refine .inr ⟨L, hlegal, ?_⟩
  rw [vector?_withVector hb]
  exact chunkFits_some_iff.2 ⟨(legalVector_legal h).pow, Nat.dvd_refl L⟩

/-- The loop of store granularity: for a step that keeps the kernel at a settled op or replaces the
op by one recording its legal chunk, every live op is settled at the end. -/
theorem granularity_loop {f : Bool → OpId → KernelM KernelError Bool}
    (hf : ∀ c kx x c' kx', (f c x).run kx = .ok (.ok c', kx') →
      (kx' = kx ∧ kx.ChunkSettled t (kx.op x)) ∨
      ∃ L y, legalVector t kx (kx.op x) = .ok (some L) ∧
        kx.replaceOp x { (kx.op x).detached with kind := (kx.op x).kind.withVector L } = .ok (y, kx')) :
    ∀ (rest N : List OpId) {c c' : Bool} {kx k' : Kernel}, kx.Formed → kx.liveOps = N ++ rest →
      (∀ y ∈ N, kx.ChunkSettled t (kx.op y)) → (rest.foldlM f c).run kx = .ok (.ok c', k') →
      k'.Formed ∧ k'.buffers = kx.buffers ∧ ∀ y ∈ k'.liveOps, k'.ChunkSettled t (k'.op y)
  | [], N, c, c', kx, k', hF, hl, hN, h => by
    obtain ⟨-, rfl⟩ := Prod.mk.inj (Except.ok.inj h)
    exact ⟨hF, rfl, fun y hy => hN y (by simpa [hl] using hy)⟩
  | x :: rest, N, c, c', kx, k', hF, hl, hN, h => by
    rw [List.foldlM_cons] at h
    obtain ⟨c₁, k₁, h₁, hrest⟩ := KernelM.run_bind_eq_ok.1 h
    rcases hf c kx x c₁ k₁ h₁ with ⟨rfl, hx⟩ | ⟨L, y, hL, hr⟩
    · refine granularity_loop hf rest (N ++ [x]) hF (by simp [hl]) (fun y hy => ?_) hrest
      rcases List.mem_append.1 hy with hy | hy
      · exact hN y hy
      · rw [List.mem_singleton.1 hy]
        exact hx
    · obtain ⟨hl₁, hN₁, hy⟩ := replaceOp_at hF hl hr
      have hb₁ := replaceOp_buffers hr
      have hsettled : ∀ z ∈ N ++ [y], k₁.ChunkSettled t (k₁.op z) := by
        intro z hz
        rcases List.mem_append.1 hz with hz | hz
        · rw [chunkSettled_congr hb₁ ((List.map_inj_left.1 hN₁) z hz)]
          exact hN z hz
        · rw [List.mem_singleton.1 hz, chunkSettled_congr hb₁ hy]
          exact chunkSettled_withVector hL
      obtain ⟨hF', hb', hall⟩ :=
        granularity_loop hf rest (N ++ [y]) (hF.replaceOp hr) (by simp [hl₁]) hsettled hrest
      exact ⟨hF', hb'.trans hb₁, hall⟩

end Kernel

theorem Kernel.chunkBudget_of_legalVector_none {t : Target} {k : Kernel} {op : TileOp}
    (h : legalVector t k op = .ok none) : t.chunkBudget op.kind = none := by
  unfold legalVector at h
  simp only [bind, Except.bind, pure, Except.pure] at h
  split at h
  · split at h
    · cases h
    · split at h <;> cases h
  · rename_i hnone
    revert hnone
    generalize op.kind = kind
    cases kind <;> simp [Target.chunkBudget]

/-- A fold whose every step keeps the accumulator and the kernel keeps both. -/
theorem KernelM.run_foldlM_const {ε α β : Type} {f : β → α → KernelM ε β} {b : β} {k : Kernel} :
    ∀ (l : List α), (∀ x ∈ l, (f b x).run k = .ok (.ok b, k)) → (l.foldlM f b).run k = .ok (.ok b, k)
  | [], _ => rfl
  | x :: l, h => by
    rw [List.foldlM_cons]
    exact KernelM.run_bind_eq_ok.2 ⟨b, k, h x List.mem_cons_self,
      run_foldlM_const l fun y hy => h y (List.mem_cons_of_mem _ hy)⟩

/-- On a kernel whose live ops are all settled, store granularity reports no change and keeps
the kernel. -/
theorem storeGranularity_of_settled {t : Target} {k : Kernel}
    (hall : ∀ y ∈ k.liveOps, k.ChunkSettled t (k.op y)) :
    (storeGranularity t).run k = .ok (.ok false, k) := by
  unfold storeGranularity
  rw [KernelM.run_get_bind]
  refine KernelM.run_foldlM_const _ fun x hx => ?_
  dsimp only
  rw [KernelM.run_get_bind, KernelM.run_bind, KernelM.run_liftM]
  rcases hall x hx with hnone | ⟨L, hL, hfits⟩
  · rw [hnone]
    rfl
  · rw [hL]
    dsimp only
    rw [if_pos hfits]
    rfl

/-- **Store granularity settles.** After a run of store granularity that succeeds on a formed
kernel, every live copy and atomic update records a power of two dividing its legal chunk, which
`LegalChunk` describes; a second run reports no change and leaves the kernel as it is. -/
theorem storeGranularity_settles {t : Target} {k k' : Kernel} {c : Bool} (hF : k.Formed)
    (h : (storeGranularity t).run k = .ok (.ok c, k')) :
    (∀ y ∈ k'.liveOps, ∀ b, t.chunkBudget (k'.op y).kind = some b →
      ∃ v L, (k'.op y).kind.vector? = some v ∧ legalVector t k' (k'.op y) = .ok (some L) ∧
        v.isPowerOfTwo ∧ v ∣ L ∧ k'.LegalChunk t (k'.op y) L) ∧
    (storeGranularity t).run k' = .ok (.ok false, k') := by
  unfold storeGranularity at h
  rw [KernelM.run_get_bind] at h
  refine (fun hall => ⟨fun y hy b hb => ?_, storeGranularity_of_settled hall⟩)
    (Kernel.granularity_loop (t := t) (fun c kx x c' kx' hs => ?_) k.liveOps [] hF rfl (by simp) h).2.2
  · -- One step keeps the kernel at a settled op, or replaces the op by one recording its chunk.
    dsimp only at hs
    rw [KernelM.run_get_bind] at hs
    obtain ⟨legal, k₁, h₁, hs⟩ := KernelM.run_bind_eq_ok.1 hs
    obtain ⟨hlegal, rfl⟩ := KernelM.run_liftM_eq_ok.1 h₁
    split at hs
    · obtain ⟨-, rfl⟩ := Prod.mk.inj (Except.ok.inj hs)
      exact .inl ⟨rfl, .inl hlegal⟩
    · rename_i L
      split at hs
      · rename_i hfits
        obtain ⟨-, rfl⟩ := Prod.mk.inj (Except.ok.inj hs)
        exact .inl ⟨rfl, .inr ⟨L, hlegal, hfits⟩⟩
      · obtain ⟨y, k₂, h₂, hs⟩ := KernelM.run_bind_eq_ok.1 hs
        obtain ⟨-, rfl⟩ := Prod.mk.inj (Except.ok.inj hs)
        exact .inr ⟨L, y, hlegal, KernelM.run_edit.1 h₂⟩
  · rcases hall y hy with hnone | ⟨L, hL, hfits⟩
    · rw [Kernel.chunkBudget_of_legalVector_none hnone] at hb
      cases hb
    · rcases hv : (k'.op y).kind.vector? with _ | v
      · rw [hv] at hfits
        cases hfits
      · rw [hv] at hfits
        obtain ⟨hpow, hdvd⟩ := Kernel.chunkFits_some_iff.1 hfits
        exact ⟨v, L, rfl, hL, hpow, hdvd, Kernel.legalVector_legal hL⟩

/-- A copy of a 64 × 32 window of a global f16 buffer into a shared buffer, both row-major. -/
def windowLoad : Kernel where
  name := "c"
  buffers := #[
    { name := "g", shape := [64, 128], dtype := .f16, scope := .global,
      layout := some (.dense (DenseLayout.rowMajor [64, 128])) },
    { name := "s", shape := [64, 32], dtype := .f16, scope := .shared,
      layout := some (.dense (DenseLayout.rowMajor [64, 32])) }]
  ops := #[TileOp.copy "load" (.stepped ⟨0⟩ 1 32) (.whole ⟨1⟩)]
  body := [.op ⟨0⟩]

theorem windowLoad_built : windowLoad.Built :=
  ⟨"c", .head (Kernel.Call.addBuffer (b := { name := "g", shape := [64, 128], dtype := .f16, scope := .global })
      (by with_unfolding_all rfl)) <|
    .head (Kernel.Call.addBuffer (b := { name := "s", shape := [64, 32], dtype := .f16, scope := .shared })
      (by with_unfolding_all rfl)) <|
    .head (Kernel.Call.attachLayout (b := ⟨0⟩) (l := .dense (DenseLayout.rowMajor [64, 128]))
      (by with_unfolding_all rfl)) <|
    .head (Kernel.Call.attachLayout (b := ⟨1⟩) (l := .dense (DenseLayout.rowMajor [64, 32]))
      (by with_unfolding_all rfl)) <|
    .head (Kernel.Call.addOp (o := TileOp.copy "load" (.stepped ⟨0⟩ 1 32) (.whole ⟨1⟩))
      (by with_unfolding_all rfl)) <|
    .single (Kernel.Call.push (h := ⟨0⟩) (by with_unfolding_all rfl))⟩

/-- Store granularity on the sm80 target settles the window copy: it records a power of two
dividing the legal chunk, and a second run changes nothing. -/
theorem windowLoad_settles : windowLoad.Formed ∧
    ∃ k', (storeGranularity Target.sm80).run windowLoad = .ok (.ok true, k') ∧
      (∀ y ∈ k'.liveOps, ∀ b, Target.sm80.chunkBudget (k'.op y).kind = some b →
        ∃ v L, (k'.op y).kind.vector? = some v ∧ legalVector Target.sm80 k' (k'.op y) = .ok (some L) ∧
          v.isPowerOfTwo ∧ v ∣ L ∧ k'.LegalChunk Target.sm80 (k'.op y) L) ∧
      (storeGranularity Target.sm80).run k' = .ok (.ok false, k') := by
  obtain ⟨k', hrun⟩ : ∃ k', (storeGranularity Target.sm80).run windowLoad = .ok (.ok true, k') :=
    ⟨_, by with_unfolding_all rfl⟩
  exact ⟨windowLoad_built.formed, k', hrun, storeGranularity_settles windowLoad_built.formed hrun⟩

/-- The copy moves 8 halves, 16 bytes, per lane. -/
example : ∃ k', (storeGranularity Target.sm80).run windowLoad = .ok (.ok true, k') ∧
    k'.liveOps.map (fun y => (k'.op y).kind.vector?) = [some 8] :=
  ⟨_, by with_unfolding_all rfl, by with_unfolding_all rfl⟩

/-- A copy from global memory into a raw strip fragment whose strips are empty: a 16 × 16 f32
tile in runs of zero elements over 32 lanes. -/
def zeroRunLoad : Kernel where
  name := "c"
  buffers := #[
    { name := "g", shape := [16, 16], dtype := .f32, scope := .global,
      layout := some (.dense (DenseLayout.rowMajor [16, 16])) },
    { name := "f", shape := [16, 16], dtype := .f32, scope := .fragment,
      layout := some (.fragment ⟨.strip 0, (16, 16), (16, 16), 32⟩) }]
  ops := #[TileOp.copy "load" (.whole ⟨0⟩) (.whole ⟨1⟩)]
  body := [.op ⟨0⟩]

theorem zeroRunLoad_built : zeroRunLoad.Built :=
  ⟨"c", .head (Kernel.Call.addBuffer (b := { name := "g", shape := [16, 16], dtype := .f32, scope := .global })
      (by with_unfolding_all rfl)) <|
    .head (Kernel.Call.addBuffer (b := { name := "f", shape := [16, 16], dtype := .f32, scope := .fragment })
      (by with_unfolding_all rfl)) <|
    .head (Kernel.Call.attachLayout (b := ⟨0⟩) (l := .dense (DenseLayout.rowMajor [16, 16]))
      (by with_unfolding_all rfl)) <|
    .head (Kernel.Call.attachLayout (b := ⟨1⟩) (l := .fragment ⟨.strip 0, (16, 16), (16, 16), 32⟩)
      (by with_unfolding_all rfl)) <|
    .head (Kernel.Call.addOp (o := TileOp.copy "load" (.whole ⟨0⟩) (.whole ⟨1⟩))
      (by with_unfolding_all rfl)) <|
    .single (Kernel.Call.push (h := ⟨0⟩) (by with_unfolding_all rfl))⟩

/-- The empty strips of `zeroRunLoad` leave no power of two within the fragment's lane run, so the
copy has no legal chunk; store granularity still records one element for it. -/
theorem zeroRunLoad_unbounded_chunk : zeroRunLoad.Formed ∧
    ∃ k', (storeGranularity Target.sm80).run zeroRunLoad = .ok (.ok true, k') ∧
      ∃ y, k'.liveOps = [y] ∧ (k'.op y).kind.vector? = some 1 ∧
        legalVector Target.sm80 k' (k'.op y) = .ok (some 1) ∧
        ∀ p, p.isPowerOfTwo → ¬ k'.ChunkAllowed Target.sm80 (k'.op y) p := by
  refine ⟨zeroRunLoad_built.formed, _, by with_unfolding_all rfl, ⟨1⟩, by with_unfolding_all rfl,
    by with_unfolding_all rfl, by with_unfolding_all rfl, fun p hp hA => ?_⟩
  -- the fragment operand bounds the chunk by its lane run, which is zero
  have hrun : p ≤ Fragment.laneRun ⟨.strip 0, (16, 16), (16, 16), 32⟩ :=
    hA.laneRun (.whole ⟨1⟩) (by with_unfolding_all decide) _ (by with_unfolding_all rfl)
  change p ≤ 0 at hrun
  exact absurd (Nat.pos_of_isPowerOfTwo hp) (by omega)

end TileKernel
