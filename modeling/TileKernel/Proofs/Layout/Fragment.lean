import TileKernel.Proofs.Layout.Dense
import TileKernel.Proofs.Solve
import TileKernel.Layout.Basic
import Mathlib.Tactic.Ring

/-!
# Register fragments are bijections

A fragment that passes `validate` is `Fragment.Tiled`: its tiles are non-empty and cover the
shape, and each tile is spread over the lanes by its kind, a strip as `lanes` runs of `vector`
elements and a matrix-unit tile as 8×8 atoms over 32 lanes. When its element count also fits in
a 32-bit word, `map` and `unmap` compute without a fault and are inverse bijections between the
elements of the shape and the slots `(lane, reg)` below `lanes × regsPerLane`
(`Fragment.map_unmap_bijective`).

The proof reads the two functions as mixed-radix codes. `slot` and `element` state what they
compute (`map_eq`, `unmap_eq`): an element is a tile of the row-major tile grid and a position
inside it, a slot is a tile number and a slot inside the tile, and the tile number is the
register's quotient by the registers per tile. Inside a tile a strip numbers the elements
row-major and cuts the numbers into runs (`radix_regroup`); an atom tile numbers its atoms
column-major and gives each lane two adjacent elements of an atom row (`atomSlot_spec`). Each
level is a pair of quotient and remainder, so `radix_compose` and `radix_split` carry every
step.

The bound is needed: `regsPerLane` multiplies the shape's extents in a 32-bit word that
`validate` never checks, and faults on a shape of `2 ^ 32` elements or more.
`Layout.locate_eq_some_iff` gathers both kinds of layout: where the layout is addressable,
`indexOf` inverts `locate`.
-/

set_option autoImplicit false

namespace TileKernel

/-! ### Checked arithmetic -/

theorem Word.mul_eq_ok_iff {w : Word} {a b n : Nat} :
    w.mul a b = .ok n ↔ n = a * b ∧ a * b < w.bound := by
  unfold Word.mul Word.fit
  split <;> simp_all [eq_comm]

/-- A product that does not fit faults. -/
theorem Word.mul_eq_error {w : Word} {a b : Nat} (h : w.bound ≤ a * b) :
    w.mul a b = .error .mulOverflow := by
  simp [Word.mul, Word.fit, Nat.not_lt.2 h]

/-- A sum that fits is computed. -/
theorem Word.add_eq_ok {w : Word} {a b : Nat} (h : a + b < w.bound) : w.add a b = .ok (a + b) := by
  simp [Word.add, Word.fit, h]

theorem Checked.div_eq_ok {a b : Nat} (h : 0 < b) : Checked.div a b = .ok (a / b) := by
  simp [Checked.div, Nat.pos_iff_ne_zero.1 h]

theorem Checked.rem_eq_ok {a b : Nat} (h : 0 < b) : Checked.rem a b = .ok (a % b) := by
  simp [Checked.rem, Nat.pos_iff_ne_zero.1 h]

/-! ### What validation establishes -/

/-- How a kind spreads a `tile` over `lanes`: a strip as `lanes` runs of `vector` elements, a
matrix-unit tile as 8×8 atoms over 32 lanes. -/
def FragmentKind.Spreads : FragmentKind → Nat × Nat → Nat → Prop
  | .strip vector, tile, lanes => 0 < vector ∧ tile.1 * tile.2 = lanes * vector
  | .mma _, tile, lanes => 8 ∣ tile.1 ∧ 8 ∣ tile.2 ∧ lanes = 32

namespace Fragment

/-- A fragment whose tiles are non-empty, cover its non-empty shape, and are spread over its lanes
by its kind. -/
structure Tiled (f : Fragment) : Prop where
  rows_pos : 0 < f.tile.1
  cols_pos : 0 < f.tile.2
  shape_rows_pos : 0 < f.shape.1
  shape_cols_pos : 0 < f.shape.2
  rows_dvd : f.tile.1 ∣ f.shape.1
  cols_dvd : f.tile.2 ∣ f.shape.2
  spreads : f.kind.Spreads f.tile f.lanes

/-- **What `validate` checks.** A fragment that passes is tiled, over the target's lanes. -/
theorem validate_tiled {f : Fragment} {t : Target} (h : (f.validate t).run = .ok (.ok ())) :
    f.Tiled ∧ f.lanes = t.lanes := by
  obtain ⟨kind, ⟨s0, s1⟩, ⟨r, c⟩, L⟩ := f
  unfold Fragment.validate at h
  simp only [ExceptT.run] at h
  -- Each check that fails throws; the kind's checks come last.
  split at h
  · cases h
  split at h
  · cases h
  split at h
  · cases h
  rename_i hpos hl hdvd
  simp only [not_or, Decidable.not_not] at hpos hl hdvd
  have tiled : 0 < r ∧ 0 < c ∧ 0 < s0 ∧ 0 < s1 ∧ r ∣ s0 ∧ c ∣ s1 := by
    refine ⟨?_, ?_, ?_, ?_, Nat.dvd_of_mod_eq_zero hdvd.1, Nat.dvd_of_mod_eq_zero hdvd.2⟩ <;> omega
  obtain ⟨hr, hc, hs0, hs1, hrd, hcd⟩ := tiled
  refine ⟨⟨hr, hc, hs0, hs1, hrd, hcd, ?_⟩, hl⟩
  cases kind with
  | mma operand =>
    simp only at h
    split at h
    · cases h
    split at h
    · cases h
    split at h
    · cases h
    rename_i h8
    simp only [not_or, Decidable.not_not] at h8
    exact ⟨Nat.dvd_of_mod_eq_zero h8.1, Nat.dvd_of_mod_eq_zero h8.2.1, h8.2.2⟩
  | strip vector =>
    simp only at h
    split at h
    · cases h
    rename_i hv
    -- Both element counts are computed, and they agree.
    obtain ⟨rc, hrc, h⟩ := run_bind_eq_ok.1 h
    obtain ⟨lv, hlv, h⟩ := run_bind_eq_ok.1 h
    rw [run_liftM_eq_ok, Word.mul_eq_ok_iff] at hrc hlv
    split at h
    · cases h
    rename_i heq
    simp only [not_or, Decidable.not_not] at hv heq
    refine ⟨Nat.pos_of_ne_zero hv.1, ?_⟩
    rw [← hrc.1, ← hlv.1, heq]

/-! ### Registers per tile -/

/-- Registers each lane holds per tile. -/
def perTile (f : Fragment) : Nat := f.tile.1 * f.tile.2 / max f.lanes 1

section Tiled

variable {f : Fragment} (h : f.Tiled)
include h

/-- A strip's lanes hold one run each per tile. -/
theorem Tiled.perTile_strip {v : Nat} (hk : f.kind = .strip v) :
    f.perTile = v ∧ f.tile.1 * f.tile.2 = f.lanes * v ∧ 0 < f.lanes := by
  have hs := h.spreads
  rw [hk] at hs
  obtain ⟨hv, heq⟩ := hs
  have hl : 0 < f.lanes := Nat.pos_of_ne_zero fun e => by
    have := h.rows_pos
    have := h.cols_pos
    simp [e] at heq
    omega
  refine ⟨?_, heq, hl⟩
  rw [perTile, heq, Nat.max_eq_left hl, Nat.mul_div_cancel_left _ hl]

/-- A matrix-unit tile of `8 a × 8 b` elements gives each of its 32 lanes `2 a b` registers. -/
theorem Tiled.perTile_atoms {operand : MmaOperand} (hk : f.kind = .mma operand) :
    ∃ a b, f.tile.1 = 8 * a ∧ f.tile.2 = 8 * b ∧ f.lanes = 32 ∧ f.perTile = 2 * (a * b) := by
  have hs := h.spreads
  rw [hk] at hs
  obtain ⟨⟨a, ha⟩, ⟨b, hb⟩, hl⟩ := hs
  -- Two 8-multiples make a multiple of 64: two registers per lane for each pair of atoms.
  have h64 : f.tile.1 * f.tile.2 = 32 * (2 * (a * b)) := by rw [ha, hb]; ring
  refine ⟨a, b, ha, hb, hl, ?_⟩
  rw [perTile, hl, h64, Nat.max_eq_left (by decide), Nat.mul_div_cancel_left _ (by decide)]

/-- The lanes share each tile evenly. -/
theorem Tiled.lanes_mul_perTile : f.lanes * f.perTile = f.tile.1 * f.tile.2 := by
  cases hk : f.kind with
  | strip v =>
    obtain ⟨hpv, heq, -⟩ := h.perTile_strip hk
    rw [hpv, heq]
  | mma operand =>
    obtain ⟨a, b, ha, hb, hl, hpt⟩ := h.perTile_atoms hk
    rw [hl, hpt, ha, hb]
    ring

/-- A tile has elements, so it has lanes and each lane has registers in it. -/
theorem Tiled.lanes_mul_perTile_pos : 0 < f.lanes * f.perTile :=
  h.lanes_mul_perTile ▸ Nat.mul_pos h.rows_pos h.cols_pos

theorem Tiled.lanes_pos : 0 < f.lanes := Nat.pos_of_mul_pos_right h.lanes_mul_perTile_pos

theorem Tiled.perTile_pos : 0 < f.perTile := Nat.pos_of_mul_pos_left h.lanes_mul_perTile_pos

/-- The tile grid has `shape / tile` rows and columns. -/
theorem Tiled.grid : (f.shape.1 / f.tile.1) * f.tile.1 = f.shape.1 ∧
    (f.shape.2 / f.tile.2) * f.tile.2 = f.shape.2 :=
  ⟨Nat.div_mul_cancel h.rows_dvd, Nat.div_mul_cancel h.cols_dvd⟩

/-- The elements of the shape are the lanes times the registers of all the tiles. -/
theorem Tiled.elements_eq : f.shape.1 * f.shape.2 =
    f.lanes * ((f.shape.1 / f.tile.1) * (f.shape.2 / f.tile.2) * f.perTile) := by
  obtain ⟨hr, hc⟩ := h.grid
  calc f.shape.1 * f.shape.2
      = (f.shape.1 / f.tile.1) * (f.shape.2 / f.tile.2) * (f.tile.1 * f.tile.2) := by
        conv_lhs => rw [← hr, ← hc]
        ring
    _ = f.lanes * ((f.shape.1 / f.tile.1) * (f.shape.2 / f.tile.2) * f.perTile) := by
        rw [← h.lanes_mul_perTile]
        ring

/-- Registers per lane: the registers of all the tiles. -/
theorem Tiled.regs_eq : f.shape.1 * f.shape.2 / max f.lanes 1 =
    (f.shape.1 / f.tile.1) * (f.shape.2 / f.tile.2) * f.perTile := by
  rw [h.elements_eq, Nat.max_eq_left h.lanes_pos, Nat.mul_div_cancel_left _ h.lanes_pos]

/-- A tile has no more elements than the shape. -/
theorem Tiled.tile_le : f.tile.1 * f.tile.2 ≤ f.shape.1 * f.shape.2 :=
  Nat.mul_le_mul (Nat.le_of_dvd h.shape_rows_pos h.rows_dvd)
    (Nat.le_of_dvd h.shape_cols_pos h.cols_dvd)

/-- The registers of all the tiles are no more than the elements of the shape. -/
theorem Tiled.registers_le :
    (f.shape.1 / f.tile.1) * (f.shape.2 / f.tile.2) * f.perTile ≤ f.shape.1 * f.shape.2 := by
  rw [h.elements_eq]
  exact Nat.le_mul_of_pos_left _ h.lanes_pos

end Tiled

/-! ### Inside one tile -/

/-- The slot of element `(rr, cc)` of an atom tile with `rows` rows: atoms numbered
column-major, and in each atom lane `4 i + j` holding elements `2 j` and `2 j + 1` of row `i`. -/
def atomSlot (rr cc rows : Nat) : Nat × Nat :=
  (rr % 8 * 4 + cc % 8 / 2, (cc / 8 * (rows / 8) + rr / 8) * 2 + cc % 8 % 2)

/-- The element of an atom tile with `rows` rows that slot `(lane, reg)` holds. -/
def atomElement (lane reg rows : Nat) : Nat × Nat :=
  (reg / 2 % max (rows / 8) 1 * 8 + lane / 4,
    reg / 2 / max (rows / 8) 1 * 8 + lane % 4 * 2 + reg % 2)

/-- In a tile of `8 a × 8 b` elements, every element has a slot of 32 lanes and `2 a b`
registers, which holds it. -/
theorem atomSlot_spec {rr cc a b : Nat} (hrr : rr < 8 * a) (hcc : cc < 8 * b) :
    (atomSlot rr cc (8 * a)).1 < 32 ∧ (atomSlot rr cc (8 * a)).2 < 2 * (a * b) ∧
      atomElement (atomSlot rr cc (8 * a)).1 (atomSlot rr cc (8 * a)).2 (8 * a) = (rr, cc) := by
  have ha : 8 * a / 8 = a := by omega
  have hmax : max a 1 = a := Nat.max_eq_left (by omega)
  -- The atom is column `cc / 8` and row `rr / 8` of the `a × b` grid of atoms, numbered
  -- column-major.
  obtain ⟨hatom, hdiv, hmod⟩ := radix_compose (m := b) (n := a) (q := cc / 8) (r := rr / 8)
    (by omega) (by omega)
  simp only [atomSlot, atomElement, ha, hmax]
  have hreg : ((cc / 8 * a + rr / 8) * 2 + cc % 8 % 2) / 2 = cc / 8 * a + rr / 8 := by omega
  refine ⟨by omega, by rw [Nat.mul_comm a b]; omega, ?_⟩
  rw [hreg, hdiv, hmod]
  ext <;> simp only <;> omega

/-- In a tile of `8 a × 8 b` elements, every slot of 32 lanes and `2 a b` registers holds an
element of the tile, whose slot it is. -/
theorem atomElement_spec {lane reg a b : Nat} (hl : lane < 32) (hg : reg < 2 * (a * b)) :
    (atomElement lane reg (8 * a)).1 < 8 * a ∧ (atomElement lane reg (8 * a)).2 < 8 * b ∧
      atomSlot (atomElement lane reg (8 * a)).1 (atomElement lane reg (8 * a)).2 (8 * a) =
        (lane, reg) := by
  have ha : 8 * a / 8 = a := by omega
  have hmax : max a 1 = a := Nat.max_eq_left (Nat.pos_of_ne_zero fun e => by simp [e] at hg)
  -- Register `reg` is in atom `reg / 2`, at column `reg / 2 / a` and row `reg / 2 % a`.
  obtain ⟨hcol, hrow, hatom⟩ := radix_split (m := b) (n := a) (x := reg / 2)
    (by rw [Nat.mul_comm b a]; omega)
  simp only [atomSlot, atomElement, ha, hmax]
  refine ⟨by omega, by omega, ?_⟩
  have hr8 : (reg / 2 % a * 8 + lane / 4) / 8 = reg / 2 % a := by omega
  have hc8 : (reg / 2 / a * 8 + lane % 4 * 2 + reg % 2) / 8 = reg / 2 / a := by omega
  rw [hr8, hc8]
  ext <;> simp only <;> omega

/-- Regrouping a number below `m * n = m' * n'`: written as a quotient below `m` and a remainder
below `n`, its quotient by `n'` is below `m'`, and the two parts by `n'` make it back. A strip
regroups an element's number in its tile, row and column, as a run and a place in the run. -/
theorem radix_regroup {m n m' n' q r : Nat} (heq : m * n = m' * n') (hq : q < m) (hr : r < n) :
    (q * n + r) / n' < m' ∧ (q * n + r) % n' < n' ∧
      ((q * n + r) / n' * n' + (q * n + r) % n') / n = q ∧
      ((q * n + r) / n' * n' + (q * n + r) % n') % n = r := by
  obtain ⟨hlt, hdiv, hmod⟩ := radix_compose hq hr
  obtain ⟨hq', hr', hflat⟩ := radix_split (m := m') (n := n') (heq ▸ hlt)
  exact ⟨hq', hr', by rw [hflat, hdiv], by rw [hflat, hmod]⟩

/-- The slot of element `(rr, cc)` inside one tile. -/
def slotInTile (f : Fragment) (rr cc : Nat) : Nat × Nat :=
  match f.kind with
  | .strip vector => ((rr * f.tile.2 + cc) / vector, (rr * f.tile.2 + cc) % vector)
  | .mma .b => atomSlot cc rr f.tile.2
  | .mma _ => atomSlot rr cc f.tile.1

/-- The element inside one tile that a slot holds. -/
def elementInTile (f : Fragment) (lane reg : Nat) : Nat × Nat :=
  match f.kind with
  | .strip vector => ((lane * vector + reg) / f.tile.2, (lane * vector + reg) % f.tile.2)
  | .mma .b => (atomElement lane reg f.tile.2).swap
  | .mma _ => atomElement lane reg f.tile.1

section Tiled

variable {f : Fragment} (h : f.Tiled)
include h

/-- Every element of a tile has a slot inside the tile, which holds it. -/
theorem Tiled.slotInTile_spec {rr cc : Nat} (hrr : rr < f.tile.1) (hcc : cc < f.tile.2) :
    (f.slotInTile rr cc).1 < f.lanes ∧ (f.slotInTile rr cc).2 < f.perTile ∧
      f.elementInTile (f.slotInTile rr cc).1 (f.slotInTile rr cc).2 = (rr, cc) := by
  unfold slotInTile elementInTile
  cases hk : f.kind with
  | strip v =>
    obtain ⟨hpv, heq, -⟩ := h.perTile_strip hk
    obtain ⟨hrun, hplace, hrow, hcol⟩ := radix_regroup heq hrr hcc
    exact ⟨hrun, hpv ▸ hplace, Prod.ext hrow hcol⟩
  | mma operand =>
    obtain ⟨a, b, ha, hb, hl, hpt⟩ := h.perTile_atoms hk
    rw [hl, hpt]
    rw [ha] at hrr
    rw [hb] at hcc
    -- The B operand is laid out transposed: its atoms number the tile's columns as rows.
    cases operand with
    | b =>
      rw [hb]
      obtain ⟨hlane, hreg, hinv⟩ := atomSlot_spec (a := b) (b := a) hcc hrr
      refine ⟨hlane, by rwa [Nat.mul_comm a b], ?_⟩
      simp only [hinv, Prod.swap_prod_mk]
    | a =>
      rw [ha]
      exact atomSlot_spec hrr hcc
    | acc =>
      rw [ha]
      exact atomSlot_spec hrr hcc

/-- Every slot of a tile holds an element of the tile, whose slot it is. -/
theorem Tiled.elementInTile_spec {lane reg : Nat} (hl : lane < f.lanes) (hg : reg < f.perTile) :
    (f.elementInTile lane reg).1 < f.tile.1 ∧ (f.elementInTile lane reg).2 < f.tile.2 ∧
      f.slotInTile (f.elementInTile lane reg).1 (f.elementInTile lane reg).2 = (lane, reg) := by
  unfold slotInTile elementInTile
  cases hk : f.kind with
  | strip v =>
    obtain ⟨hpv, heq, -⟩ := h.perTile_strip hk
    obtain ⟨hrow, hcol, hrun, hplace⟩ := radix_regroup heq.symm hl (hpv ▸ hg)
    exact ⟨hrow, hcol, Prod.ext hrun hplace⟩
  | mma operand =>
    obtain ⟨a, b, ha, hb, hl32, hpt⟩ := h.perTile_atoms hk
    rw [hl32] at hl
    rw [hpt] at hg
    rw [ha, hb]
    cases operand with
    | b =>
      obtain ⟨hrow, hcol, hinv⟩ :=
        atomElement_spec (a := b) (b := a) hl (by rwa [Nat.mul_comm b a])
      exact ⟨hcol, hrow, hinv⟩
    | a => exact atomElement_spec hl hg
    | acc => exact atomElement_spec hl hg

end Tiled

/-! ### The tile grid -/

/-- The slot of element `(row, col)`: the lane of its slot in its tile, and that register after
the registers of the tiles before it in row-major order. -/
def slot (f : Fragment) (row col : Nat) : Nat × Nat :=
  let inTile := f.slotInTile (row % f.tile.1) (col % f.tile.2)
  (inTile.1, ((row / f.tile.1) * (f.shape.2 / f.tile.2) + col / f.tile.2) * f.perTile + inTile.2)

/-- The element that slot `(lane, reg)` holds: tile `reg / perTile` of the row-major grid, and the
element of that tile its lane and register `reg % perTile` hold. -/
def element (f : Fragment) (lane reg : Nat) : Nat × Nat :=
  let tileId := reg / f.perTile
  let inTile := f.elementInTile lane (reg % f.perTile)
  (tileId / (f.shape.2 / f.tile.2) * f.tile.1 + inTile.1,
    tileId % (f.shape.2 / f.tile.2) * f.tile.2 + inTile.2)

section Tiled

variable {f : Fragment} (h : f.Tiled)
include h

/-- Every element of the shape has a slot below the lanes and the registers of all the tiles,
which holds it. -/
theorem Tiled.slot_spec {row col : Nat} (hrow : row < f.shape.1) (hcol : col < f.shape.2) :
    (f.slot row col).1 < f.lanes ∧
      (f.slot row col).2 < (f.shape.1 / f.tile.1) * (f.shape.2 / f.tile.2) * f.perTile ∧
      f.element (f.slot row col).1 (f.slot row col).2 = (row, col) := by
  obtain ⟨hr, hc⟩ := h.grid
  -- The tile's place in the grid, and the element's place in the tile.
  obtain ⟨htr, hrr, hrow'⟩ := radix_split (m := f.shape.1 / f.tile.1) (n := f.tile.1) (hr ▸ hrow)
  obtain ⟨htc, hcc, hcol'⟩ := radix_split (m := f.shape.2 / f.tile.2) (n := f.tile.2) (hc ▸ hcol)
  obtain ⟨htile, htdiv, htmod⟩ := radix_compose htr htc
  obtain ⟨hlane, hreg, hinv⟩ := h.slotInTile_spec hrr hcc
  obtain ⟨hall, hrdiv, hrmod⟩ := radix_compose htile hreg
  refine ⟨hlane, hall, ?_⟩
  simp only [slot, element, hrdiv, hrmod, htdiv, htmod, hinv]
  exact Prod.ext hrow' hcol'

/-- Every slot below the lanes and the registers of all the tiles holds an element of the shape,
whose slot it is. -/
theorem Tiled.element_spec {lane reg : Nat} (hl : lane < f.lanes)
    (hg : reg < (f.shape.1 / f.tile.1) * (f.shape.2 / f.tile.2) * f.perTile) :
    (f.element lane reg).1 < f.shape.1 ∧ (f.element lane reg).2 < f.shape.2 ∧
      f.slot (f.element lane reg).1 (f.element lane reg).2 = (lane, reg) := by
  obtain ⟨hr, hc⟩ := h.grid
  -- The register's tile and its register in the tile; the tile's row and column in the grid.
  obtain ⟨htile, hreg, hreg'⟩ := radix_split hg
  obtain ⟨htr, htc, htile'⟩ := radix_split htile
  obtain ⟨hrr, hcc, hinv⟩ := h.elementInTile_spec hl hreg
  obtain ⟨hrow, hrdiv, hrmod⟩ := radix_compose htr hrr
  obtain ⟨hcol, hcdiv, hcmod⟩ := radix_compose htc hcc
  refine ⟨hr ▸ hrow, hc ▸ hcol, ?_⟩
  simp only [slot, element, hrdiv, hrmod, hcdiv, hcmod, hinv, htile', hreg']

/-! ### What `map` and `unmap` compute -/

variable (hfit : f.shape.1 * f.shape.2 < Word.u32.bound)
include hfit

theorem Tiled.regsPerTile_eq : f.regsPerTile = .ok f.perTile := by
  have := h.tile_le
  simp (disch := omega) only [regsPerTile, Word.mul_eq_ok, bind, Except.bind]
  rfl

omit h in
theorem regsPerLane_eq : f.regsPerLane = .ok (f.shape.1 * f.shape.2 / max f.lanes 1) := by
  simp only [regsPerLane, Word.mul_eq_ok hfit, bind, Except.bind]
  rfl

omit hfit in
theorem Tiled.tiles_eq : f.tiles = .ok (f.shape.1 / f.tile.1, f.shape.2 / f.tile.2) := by
  simp only [tiles, Checked.div_eq_ok h.rows_pos, Checked.div_eq_ok h.cols_pos, bind, Except.bind]
  rfl

end Tiled

/-- A 32-bit word holds a lane of an atom. -/
theorem Word.le_u32_bound : 32 ≤ Word.u32.bound := by decide

/-- `atomMap` computes the atom slot when its register fits. -/
theorem atomMap_eq {rr cc rows : Nat} (h : (atomSlot rr cc rows).2 < Word.u32.bound) :
    atomMap rr cc rows = .ok (atomSlot rr cc rows) := by
  have := Word.le_u32_bound
  simp only [atomSlot] at h ⊢
  simp (disch := omega) only [atomMap, Word.mul_eq_ok, Word.add_eq_ok, bind, Except.bind]
  rfl

/-- `atomUnmap` computes the atom element when its row and column fit. -/
theorem atomUnmap_eq {lane reg rows : Nat} (h₁ : (atomElement lane reg rows).1 < Word.u32.bound)
    (h₂ : (atomElement lane reg rows).2 < Word.u32.bound) :
    atomUnmap lane reg rows = .ok (atomElement lane reg rows) := by
  simp only [atomElement] at h₁ h₂ ⊢
  simp (disch := omega) only [atomUnmap, Word.mul_eq_ok, Word.add_eq_ok, bind, Except.bind]
  rfl

section Tiled

variable {f : Fragment} (h : f.Tiled) (hfit : f.shape.1 * f.shape.2 < Word.u32.bound)
include h hfit

/-- Inside a tile, `mapInTile` computes the slot: every count is below the tile's elements, which
fit. -/
theorem Tiled.mapInTile_eq {rr cc : Nat} (hrr : rr < f.tile.1) (hcc : cc < f.tile.2) :
    f.mapInTile rr cc = .ok (f.slotInTile rr cc) := by
  have hle := h.tile_le
  obtain ⟨-, hreg, -⟩ := h.slotInTile_spec hrr hcc
  have hpt : f.perTile ≤ f.tile.1 * f.tile.2 :=
    h.lanes_mul_perTile ▸ Nat.le_mul_of_pos_left _ h.lanes_pos
  have hflat := (radix_compose hrr hcc).1
  unfold mapInTile
  unfold slotInTile at hreg ⊢
  cases hk : f.kind with
  | strip v =>
    have hv : 0 < v := (h.perTile_strip hk).1 ▸ h.perTile_pos
    simp (disch := omega) only [Word.mul_eq_ok, Word.add_eq_ok, Checked.div_eq_ok hv,
      Checked.rem_eq_ok hv, bind, Except.bind]
    rfl
  | mma operand =>
    rw [hk] at hreg
    cases operand <;> exact atomMap_eq (by simp only at hreg; omega)

/-- Inside a tile, `unmapInTile` computes the element: every count is below the tile's rows or
columns, which fit. -/
theorem Tiled.unmapInTile_eq {lane reg : Nat} (hl : lane < f.lanes) (hg : reg < f.perTile) :
    f.unmapInTile lane reg = .ok (f.elementInTile lane reg) := by
  have hle := h.tile_le
  obtain ⟨hrow, hcol, -⟩ := h.elementInTile_spec hl hg
  have hr : f.tile.1 ≤ f.tile.1 * f.tile.2 := Nat.le_mul_of_pos_right _ h.cols_pos
  have hc : f.tile.2 ≤ f.tile.1 * f.tile.2 := Nat.le_mul_of_pos_left _ h.rows_pos
  unfold unmapInTile
  unfold elementInTile at hrow hcol ⊢
  cases hk : f.kind with
  | strip v =>
    obtain ⟨hpv, heq, -⟩ := h.perTile_strip hk
    have hflat := heq ▸ (radix_compose hl (hpv ▸ hg)).1
    simp (disch := omega) only [Word.mul_eq_ok, Word.add_eq_ok, Checked.div_eq_ok h.cols_pos,
      Checked.rem_eq_ok h.cols_pos, bind, Except.bind]
    rfl
  | mma operand =>
    rw [hk] at hrow hcol
    cases operand with
    | b =>
      simp only [Prod.fst_swap, Prod.snd_swap] at hrow hcol
      rw [atomUnmap_eq (by omega) (by omega)]
      rfl
    | a =>
      simp only at hrow hcol
      exact atomUnmap_eq (by omega) (by omega)
    | acc =>
      simp only at hrow hcol
      exact atomUnmap_eq (by omega) (by omega)

/-- **What `map` computes**: the slot of an element of the shape, and nothing outside it. -/
theorem Tiled.map_eq (row col : Nat) : f.map row col =
    .ok (if f.shape.1 ≤ row ∨ f.shape.2 ≤ col then none else some (f.slot row col)) := by
  by_cases hout : f.shape.1 ≤ row ∨ f.shape.2 ≤ col
  · simp only [map, hout, if_true]
    rfl
  have hrow : row < f.shape.1 := by omega
  have hcol : col < f.shape.2 := by omega
  obtain ⟨-, hall, -⟩ := h.slot_spec hrow hcol
  have hrr := Nat.mod_lt row h.rows_pos
  have hcc := Nat.mod_lt col h.cols_pos
  have hgrid := h.registers_le
  rcases hs : f.slotInTile (row % f.tile.1) (col % f.tile.2) with ⟨lane, g⟩
  simp only [slot, hs] at hall ⊢
  -- The tile's number is at most its registers' offset.
  have hP : (row / f.tile.1 * (f.shape.2 / f.tile.2) + col / f.tile.2) ≤
      (row / f.tile.1 * (f.shape.2 / f.tile.2) + col / f.tile.2) * f.perTile :=
    Nat.le_mul_of_pos_right _ h.perTile_pos
  simp only [map, hout, if_false, Checked.div_eq_ok h.rows_pos, h.tiles_eq,
    Checked.div_eq_ok h.cols_pos, Checked.rem_eq_ok h.rows_pos, Checked.rem_eq_ok h.cols_pos,
    h.mapInTile_eq hfit hrr hcc, hs, h.regsPerTile_eq hfit, bind, Except.bind]
  -- Name the grid column, which `omega` would read as a quotient of integers of unknown sign.
  generalize col / f.tile.2 = across at hall hP ⊢
  simp (disch := omega) only [Word.mul_eq_ok, Word.add_eq_ok]
  rfl

/-- **What `unmap` computes**: the element a slot of the lanes and the registers of all the tiles
holds, and nothing for any other slot. -/
theorem Tiled.unmap_eq (lane reg : Nat) : f.unmap lane reg =
    .ok (if f.lanes ≤ lane ∨ (f.shape.1 / f.tile.1) * (f.shape.2 / f.tile.2) * f.perTile ≤ reg
      then none else some (f.element lane reg)) := by
  have hP := h.perTile_pos
  have hgrid := h.registers_le
  have htiles : (f.shape.1 / f.tile.1) * (f.shape.2 / f.tile.2) ≤
      (f.shape.1 / f.tile.1) * (f.shape.2 / f.tile.2) * f.perTile := Nat.le_mul_of_pos_right _ hP
  -- A register is past the tiles exactly when its tile number is.
  have hpast : (f.shape.1 / f.tile.1) * (f.shape.2 / f.tile.2) ≤ reg / f.perTile ↔
      (f.shape.1 / f.tile.1) * (f.shape.2 / f.tile.2) * f.perTile ≤ reg := Nat.le_div_iff_mul_le hP
  by_cases hl : f.lanes ≤ lane
  · simp only [unmap, h.regsPerTile_eq hfit, hl, true_or, if_true, bind, Except.bind]
    rfl
  by_cases hreg : (f.shape.1 / f.tile.1) * (f.shape.2 / f.tile.2) * f.perTile ≤ reg
  · simp (disch := omega) only [unmap, h.regsPerTile_eq hfit, hl, Nat.pos_iff_ne_zero.1 hP,
      or_self, if_false, h.tiles_eq, Word.mul_eq_ok, hpast.2 hreg, hreg, or_true, if_true, bind,
      Except.bind]
    rfl
  have hlt : lane < f.lanes := by omega
  have hin : reg < (f.shape.1 / f.tile.1) * (f.shape.2 / f.tile.2) * f.perTile := by omega
  obtain ⟨hrow, hcol, -⟩ := h.element_spec hlt hin
  have hs0 : f.shape.1 ≤ f.shape.1 * f.shape.2 := Nat.le_mul_of_pos_right _ h.shape_cols_pos
  have hs1 : f.shape.2 ≤ f.shape.1 * f.shape.2 := Nat.le_mul_of_pos_left _ h.shape_rows_pos
  rcases he : f.elementInTile lane (reg % f.perTile) with ⟨rr, cc⟩
  simp only [element, he] at hrow hcol ⊢
  simp (disch := omega) only [unmap, h.regsPerTile_eq hfit, hl, Nat.pos_iff_ne_zero.1 hP, or_self,
    if_false, h.tiles_eq, Word.mul_eq_ok, hpast, hreg,
    h.unmapInTile_eq hfit hlt (Nat.mod_lt reg hP), he, Word.add_eq_ok, bind, Except.bind]
  rfl

/-- An element has the slot that holds it, and a slot holds the element whose slot it is. -/
theorem Tiled.map_eq_some_iff {row col lane reg : Nat} :
    f.map row col = .ok (some (lane, reg)) ↔ f.unmap lane reg = .ok (some (row, col)) := by
  rw [h.map_eq hfit, h.unmap_eq hfit]
  constructor
  · intro hm
    by_cases hout : f.shape.1 ≤ row ∨ f.shape.2 ≤ col
    · simp [hout] at hm
    rw [if_neg hout] at hm
    have hslot : f.slot row col = (lane, reg) := Option.some.inj (Except.ok.inj hm)
    have hrow : row < f.shape.1 := by omega
    have hcol : col < f.shape.2 := by omega
    obtain ⟨hl, hg, hinv⟩ := h.slot_spec hrow hcol
    rw [hslot] at hl hg hinv
    rw [if_neg (by omega), hinv]
  · intro hu
    by_cases hout :
        f.lanes ≤ lane ∨ (f.shape.1 / f.tile.1) * (f.shape.2 / f.tile.2) * f.perTile ≤ reg
    · simp [hout] at hu
    rw [if_neg hout] at hu
    have helem : f.element lane reg = (row, col) := Option.some.inj (Except.ok.inj hu)
    have hlane : lane < f.lanes := by omega
    have hreg : reg < (f.shape.1 / f.tile.1) * (f.shape.2 / f.tile.2) * f.perTile := by omega
    obtain ⟨hr, hc, hinv⟩ := h.element_spec hlane hreg
    rw [helem] at hr hc hinv
    rw [if_neg (by omega), hinv]

end Tiled

/-- **Register fragments are bijections.** A fragment that passes `validate` on a target, over a
shape whose element count fits in a 32-bit word: `regsPerLane` computes; `map` sends every
element of the shape to a slot below the lanes and `regsPerLane`, and nothing outside the shape;
`unmap` sends every slot below them to an element, and no other slot; and each inverts the
other. -/
theorem map_unmap_bijective {f : Fragment} {t : Target} (hv : (f.validate t).run = .ok (.ok ()))
    (hfit : f.shape.1 * f.shape.2 < Word.u32.bound) :
    f.regsPerLane = .ok (f.shape.1 * f.shape.2 / f.lanes) ∧
    (∀ row col, row < f.shape.1 → col < f.shape.2 → ∃ lane reg,
      f.map row col = .ok (some (lane, reg)) ∧ lane < f.lanes ∧
        reg < f.shape.1 * f.shape.2 / f.lanes) ∧
    (∀ row col, f.shape.1 ≤ row ∨ f.shape.2 ≤ col → f.map row col = .ok none) ∧
    (∀ lane reg, lane < f.lanes → reg < f.shape.1 * f.shape.2 / f.lanes →
      ∃ row col, f.unmap lane reg = .ok (some (row, col))) ∧
    (∀ lane reg, f.lanes ≤ lane ∨ f.shape.1 * f.shape.2 / f.lanes ≤ reg →
      f.unmap lane reg = .ok none) ∧
    (∀ row col lane reg,
      f.map row col = .ok (some (lane, reg)) ↔ f.unmap lane reg = .ok (some (row, col))) := by
  obtain ⟨h, -⟩ := validate_tiled hv
  -- The registers per lane are those of all the tiles.
  have hregs : f.shape.1 * f.shape.2 / f.lanes =
      (f.shape.1 / f.tile.1) * (f.shape.2 / f.tile.2) * f.perTile := by
    rw [← h.regs_eq, Nat.max_eq_left h.lanes_pos]
  refine ⟨by rw [regsPerLane_eq hfit, Nat.max_eq_left h.lanes_pos], fun row col hr hc => ?_,
    fun row col hout => ?_, fun lane reg hl hg => ?_, fun lane reg hout => ?_,
    fun _ _ _ _ => h.map_eq_some_iff hfit⟩
  · obtain ⟨hl, hg, -⟩ := h.slot_spec hr hc
    refine ⟨_, _, ?_, hl, hregs ▸ hg⟩
    rw [h.map_eq hfit, if_neg (by omega)]
  · rw [h.map_eq hfit, if_pos hout]
  · rw [hregs] at hg
    refine ⟨(f.element lane reg).1, (f.element lane reg).2, ?_⟩
    rw [h.unmap_eq hfit, if_neg (by omega)]
  · rw [hregs] at hout
    rw [h.unmap_eq hfit, if_pos hout]

end Fragment

/-! ### Layouts -/

/-- A layout all of whose locations compute: a dense layout that fits, or a fragment that passes
`validate` on the target over a shape whose element count fits in a 32-bit word. -/
def Layout.Addressable (t : Target) : Layout → Prop
  | .dense d => d.Fits
  | .fragment f => (f.validate t).run = .ok (.ok ()) ∧ f.shape.1 * f.shape.2 < Word.u32.bound

/-- **`indexOf` inverts `locate`** on an addressable layout: an index lives at a location exactly
when the location stores the index. -/
theorem Layout.locate_eq_some_iff {t : Target} {l : Layout} (hl : l.Addressable t)
    {index : List Nat} {loc : Location} :
    l.locate index = .ok (some loc) ↔ l.indexOf loc = .ok (some index) := by
  cases l with
  | dense d =>
    obtain ⟨o?, ho⟩ : ∃ o?, d.offset index = .ok o? := ⟨_, hl.offset_eq index⟩
    have hinv := hl.offset_indexOf.2.2.2.2.2.1
    simp only [locate, indexOf, ho, bind, Except.bind, pure, Except.pure]
    cases loc with
    | offset off =>
      rw [hinv, ho]
      cases o? <;> simp
    | register lane reg =>
      cases o? <;> simp
  | fragment f =>
    obtain ⟨hv, hfit⟩ := hl
    have hiff := (Fragment.map_unmap_bijective hv hfit).2.2.2.2.2
    cases loc with
    | offset off =>
      -- A fragment stores no index at an offset, and locates none there.
      rcases index with _ | ⟨row, _ | ⟨col, _ | ⟨x, rest⟩⟩⟩
      · simp [locate, indexOf, pure, Except.pure]
      · simp [locate, indexOf, pure, Except.pure]
      · rcases hm : f.map row col with e | _ | ⟨lane, reg⟩ <;>
          simp [locate, indexOf, hm, bind, Except.bind, pure, Except.pure]
      · simp [locate, indexOf, pure, Except.pure]
    | register lane reg =>
      constructor
      · -- Only a pair is located, at the slot `map` gives it.
        intro hloc
        rcases index with _ | ⟨row, _ | ⟨col, _ | ⟨x, rest⟩⟩⟩
        · simp [locate, pure, Except.pure] at hloc
        · simp [locate, pure, Except.pure] at hloc
        · rcases hm : f.map row col with e | _ | ⟨lane', reg'⟩ <;>
            simp [locate, hm, bind, Except.bind, pure, Except.pure] at hloc
          obtain ⟨rfl, rfl⟩ := hloc
          simp [indexOf, (hiff row col _ _).1 hm, bind, Except.bind, pure, Except.pure]
        · simp [locate, pure, Except.pure] at hloc
      · -- The slot stores the element `unmap` gives it.
        intro hidx
        rcases hu : f.unmap lane reg with e | _ | ⟨row, col⟩ <;>
          simp [indexOf, hu, bind, Except.bind, pure, Except.pure] at hidx
        subst hidx
        simp [locate, (hiff row col lane reg).2 hu, bind, Except.bind, pure, Except.pure]

end TileKernel
