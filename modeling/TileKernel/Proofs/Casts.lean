import Mathlib
import TileKernel.Scalar

/-!
# Casting a literal twice is casting it once

Simplification normalizes a fill by casting its literal to the destination's type and replaces
the fill when the cast changes the value. A cast answers for every type but a signed type of no
bytes, which has no top bit to extend (`Scalar.Castable`); what it answers is
`Literal.castValue` (`Literal.cast_eq_ok`). A fill it has normalized must pass the next round
unchanged, so casting must be idempotent: `Literal.castValue_castValue`.

For integers this is wrapping to a width twice (`Literal.wrapValue_wrapValue`). For four-byte
floats it is rounding through the 32-bit format twice (`Binary64.roundSingle_roundSingle`), which
takes the bit layout of words: a word built from a sign, an exponent field and a fraction field
reads them back (`Binary64.view_ofFields`), so a 32-bit value encoded as a word is read back as the
same significand and quantum, and rounds to itself. The one subtle case is a significand that
rounded up to `2 ^ 24`: it reads back as `2 ^ 23` at twice the quantum, the same word
(`Binary64.encode_carry`).

A cast value then has the same value as its own cast unless it is a NaN, which has the same value
as nothing (`Literal.sameValue_castValue_castValue`).

A cast to an integer type takes the literal's integer value (`Literal.intValue`: floats truncated
toward zero with saturation, booleans as 0 or 1). Below eight bytes it reduces that value modulo
`2 ^ (8 * width)` into the type's range (`Literal.wrapValue_wraps`, stated with `Scalar.Wraps`),
and from eight bytes on it keeps it, so every cast projects a literal onto its type
(`Literal.cast_projects`).
-/

set_option autoImplicit false

namespace TileKernel.Binary64

/-! ### Words from their fields -/

theorem toNat_toUInt64 {n : Nat} (h : n < 2 ^ 64) : n.toUInt64.toNat = n := by
  rw [Nat.toUInt64, UInt64.toNat_ofNat', Nat.mod_eq_of_lt h]

theorem or_shift_eq_add {a b i : Nat} (hb : b < 2 ^ i) : a * 2 ^ i ||| b = a * 2 ^ i + b := by
  rw [← Nat.shiftLeft_eq, Nat.shiftLeft_add_eq_or_of_lt hb]

/-- The word of a sign, an exponent and a fraction, as a number. -/
theorem bits_ofFields (neg : Bool) {e f : Nat} (he : e < 2 ^ 11) (hf : f < 2 ^ 52) :
    (ofFields neg e f).bits.toNat = f + 2 ^ 52 * ((if neg then 2 ^ 11 else 0) + e) := by
  have hfe : f.toUInt64.toNat = f := toNat_toUInt64 (by omega)
  have hee : (e.toUInt64 <<< 52).toNat = e * 2 ^ 52 := by
    rw [UInt64.toNat_shiftLeft, show (52 : UInt64).toNat % 64 = 52 from rfl, Nat.shiftLeft_eq,
      toNat_toUInt64 (by omega), Nat.mod_eq_of_lt (by omega)]
  cases neg with
  | false =>
    have hzero : ((0 : UInt64) ||| e.toUInt64 <<< 52 ||| f.toUInt64).toNat = e * 2 ^ 52 ||| f := by
      rw [UInt64.toNat_or, UInt64.toNat_or, hee, hfe, UInt64.toNat_zero, Nat.zero_or]
    simp only [ofFields, Bool.false_eq_true, if_false, hzero, Nat.zero_add, or_shift_eq_add hf]
    omega
  | true =>
    have hsign : ((1 : UInt64) <<< 63).toNat = 2 ^ 11 * 2 ^ 52 := by
      rw [UInt64.toNat_shiftLeft]
      rfl
    have hhigh : 2 ^ 11 * 2 ^ 52 ||| e * 2 ^ 52 = (2 ^ 11 + e) * 2 ^ 52 := by
      rw [← Nat.shiftLeft_eq, ← Nat.shiftLeft_eq, ← Nat.shiftLeft_or_distrib, Nat.shiftLeft_eq,
        ← Nat.one_mul (2 ^ 11), or_shift_eq_add he]
    have hone : ((1 : UInt64) <<< 63 ||| e.toUInt64 <<< 52 ||| f.toUInt64).toNat =
        (2 ^ 11 + e) * 2 ^ 52 ||| f := by
      rw [UInt64.toNat_or, UInt64.toNat_or, hsign, hee, hfe, hhigh]
    simp only [ofFields, if_true, hone, or_shift_eq_add hf]
    omega

/-- The exponent field, by division and remainder. -/
theorem expField_eq (x : Binary64) : x.expField = x.bits.toNat / 2 ^ 52 % 2 ^ 11 := by
  rw [expField, UInt64.toNat_and, UInt64.toNat_shiftRight, show (52 : UInt64).toNat % 64 = 52 from rfl,
    Nat.shiftRight_eq_div_pow, show (0x7FF : UInt64).toNat = 2 ^ 11 - 1 from rfl,
    Nat.and_two_pow_sub_one_eq_mod]

/-- The fraction field, by remainder. -/
theorem fracField_eq (x : Binary64) : x.fracField = x.bits.toNat % 2 ^ 52 := by
  rw [fracField, UInt64.toNat_and, show (0xFFFFFFFFFFFFF : UInt64).toNat = 2 ^ 52 - 1 from rfl,
    Nat.and_two_pow_sub_one_eq_mod]

/-- The sign bit, by division. -/
theorem neg_eq (x : Binary64) : x.neg = (x.bits.toNat / 2 ^ 63 == 1) := by
  rw [neg, Bool.eq_iff_iff, beq_iff_eq, beq_iff_eq, ← UInt64.toNat_inj, UInt64.toNat_shiftRight,
    show (63 : UInt64).toNat % 64 = 63 from rfl, Nat.shiftRight_eq_div_pow]
  rfl

section Fields

variable (neg : Bool) {e f : Nat} (he : e < 2 ^ 11) (hf : f < 2 ^ 52)
include he hf

theorem expField_ofFields : (ofFields neg e f).expField = e := by
  rw [expField_eq, bits_ofFields neg he hf, Nat.add_mul_div_left _ _ (Nat.two_pow_pos 52),
    Nat.div_eq_of_lt hf, Nat.zero_add]
  cases neg
  · simpa using Nat.mod_eq_of_lt he
  · simpa using Nat.mod_eq_of_lt he

theorem fracField_ofFields : (ofFields neg e f).fracField = f := by
  rw [fracField_eq, bits_ofFields neg he hf, Nat.add_mul_mod_self_left, Nat.mod_eq_of_lt hf]

theorem neg_ofFields : (ofFields neg e f).neg = neg := by
  rw [neg_eq, bits_ofFields neg he hf, show (2 : Nat) ^ 63 = 2 ^ 52 * 2 ^ 11 by rfl,
    ← Nat.div_div_eq_div_mul, Nat.add_mul_div_left _ _ (Nat.two_pow_pos 52), Nat.div_eq_of_lt hf,
    Nat.zero_add]
  cases neg
  · show ((0 + e) / 2 ^ 11 == 1) = false
    rw [Nat.zero_add, Nat.div_eq_of_lt he]
    rfl
  · show ((2 ^ 11 + e) / 2 ^ 11 == 1) = true
    rw [Nat.add_comm, Nat.add_div_right _ (Nat.two_pow_pos 11), Nat.div_eq_of_lt he]
    rfl

end Fields

/-- A word with an exponent field strictly between 0 and 2047 is a normal value. -/
theorem view_ofFields (neg : Bool) {e f : Nat} (he0 : 0 < e) (he : e < 2047) (hf : f < 2 ^ 52) :
    (ofFields neg e f).view = .finite neg (2 ^ 52 + f) ((e : Int) - 1075) := by
  have he' : e < 2 ^ 11 := by omega
  simp only [view, expField_ofFields neg he' hf, fracField_ofFields neg he' hf, neg_ofFields neg he' hf,
    if_neg (show e ≠ 2047 by omega), if_neg (show e ≠ 0 by omega), Nat.pow_eq]

theorem view_inf (neg : Bool) : (inf neg).view = .inf neg := by
  simp only [inf, view, expField_ofFields neg (show 2047 < 2 ^ 11 by omega) (Nat.two_pow_pos 52),
    fracField_ofFields neg (show 2047 < 2 ^ 11 by omega) (Nat.two_pow_pos 52),
    neg_ofFields neg (show 2047 < 2 ^ 11 by omega) (Nat.two_pow_pos 52), if_true]

theorem view_zero (neg : Bool) : (zero neg).view = .finite neg 0 (-1074) := by
  simp only [zero, view, expField_ofFields neg (Nat.two_pow_pos 11) (Nat.two_pow_pos 52),
    fracField_ofFields neg (Nat.two_pow_pos 11) (Nat.two_pow_pos 52),
    neg_ofFields neg (Nat.two_pow_pos 11) (Nat.two_pow_pos 52)]
  rfl

/-- A significand shifted so that its leading bit is bit 52 has 53 bits. -/
theorem significand_bounds {n : Nat} (hn : n ≠ 0) (hl : n.log2 ≤ 52) :
    2 ^ 52 ≤ n * 2 ^ (52 - n.log2) ∧ n * 2 ^ (52 - n.log2) < 2 ^ 53 := by
  constructor
  · calc 2 ^ 52 = 2 ^ n.log2 * 2 ^ (52 - n.log2) := by rw [← Nat.pow_add, Nat.add_sub_cancel' hl]
      _ ≤ n * 2 ^ (52 - n.log2) := Nat.mul_le_mul_right _ (Nat.log2_self_le hn)
  · calc n * 2 ^ (52 - n.log2) < 2 ^ (n.log2 + 1) * 2 ^ (52 - n.log2) :=
          Nat.mul_lt_mul_of_pos_right Nat.lt_log2_self (Nat.two_pow_pos _)
      _ = 2 ^ 53 := by rw [← Nat.pow_add]; congr 1; omega

/-- A positive value whose leading bit lies in the normal range is encoded with its significand
shifted to 53 bits. -/
theorem view_encode (neg : Bool) {n : Nat} {u : Int} (hn : n ≠ 0) (hl : n.log2 ≤ 52)
    (hlo : -1022 ≤ (n.log2 : Int) + u) (hhi : (n.log2 : Int) + u ≤ 1023) :
    (encode neg n u).view = .finite neg (n * 2 ^ (52 - n.log2)) (n.log2 + u - 52) := by
  obtain ⟨hsig, hsig'⟩ := significand_bounds hn hl
  have hfrac : 2 ^ 52 + (n * 2 ^ (52 - n.log2) - 2 ^ 52) = n * 2 ^ (52 - n.log2) := by omega
  have hexp : ((((n.log2 : Int) + u + 1023).toNat : Nat) : Int) - 1075 = n.log2 + u - 52 := by omega
  simp only [encode, if_neg hn, if_pos hlo, if_pos hl, Nat.pow_eq]
  rw [view_ofFields neg (by omega) (by omega) (by omega), hfrac, hexp]

/-! ### Rounding to the 32-bit format -/

/-- With an integer numerator the leading bit is read off its logarithm. -/
theorem floorLog2_one {m : Nat} (hm : m ≠ 0) (e : Int) : floorLog2 m 1 e = m.log2 + e := by
  have hlog : Nat.log2 1 = 0 := Nat.log2_two_pow (n := 0)
  have hge : geScaled m 1 (-(m.log2 : Int)) = true := by
    unfold geScaled
    split
    · exact decide_eq_true (Nat.one_le_iff_ne_zero.2 (Nat.mul_ne_zero hm (Nat.pos_iff_ne_zero.1 (Nat.two_pow_pos _))))
    · rw [show (-(-(m.log2 : Int))).toNat = m.log2 by omega, Nat.pow_eq, Nat.one_mul]
      exact decide_eq_true (Nat.log2_self_le hm)
  unfold floorLog2
  dsimp only
  rw [hlog, show e - ((m.log2 : Int) - ((0 : Nat) : Int) + e) = -(m.log2 : Int) by omega, if_pos hge]
  omega

theorem divRoundEven_of_dvd {a b : Nat} (hb : 0 < b) (h : b ∣ a) : divRoundEven a b = a / b := by
  simp [divRoundEven, Nat.mod_eq_zero_of_dvd h, Nat.ne_of_lt hb]

theorem div_le_divRoundEven (a b : Nat) : a / b ≤ divRoundEven a b := by
  simp only [divRoundEven]
  split <;> omega

theorem divRoundEven_le (a b : Nat) : divRoundEven a b ≤ a / b + 1 := by
  simp only [divRoundEven]
  split <;> omega

/-- A positive significand rounds to the 32-bit quantum `2 ^ u`, the larger of its leading bit's
position less 23 and `2 ^ -149`, and overflows from `2 ^ 128` on. -/
theorem single_round_eq_some {m : Nat} (hm : m ≠ 0) {q : Int} {n : Nat} {u : Int} :
    single.round m 1 q = some (n, u) ↔
      u = max ((m.log2 : Int) + q - 23) (-149) ∧
      n = divRoundEven (m * 2 ^ (q - u).toNat) (2 ^ (u - q).toNat) ∧
      u < 128 ∧ n < 2 ^ (128 - u).toNat := by
  simp only [Format.round, single, if_neg hm, floorLog2_one hm, Nat.pow_eq, Nat.one_mul]
  rw [show ((24 - 1 : Nat) : Int) = 23 from rfl]
  split
  · rename_i hover
    simp only [Bool.or_eq_true, decide_eq_true_eq] at hover
    constructor
    · intro h
      cases h
    · rintro ⟨rfl, rfl, hu, hn⟩
      omega
  · rename_i hfits
    simp only [Bool.or_eq_true, decide_eq_true_eq, not_or, Nat.not_le, Int.not_le] at hfits
    constructor
    · intro h
      simp only [Option.some.injEq, Prod.mk.injEq] at h
      obtain ⟨rfl, rfl⟩ := h
      exact ⟨rfl, rfl, hfits.1, hfits.2⟩
    · rintro ⟨rfl, rfl, -, -⟩
      rfl

/-- What one rounding to the 32-bit format gives: a quantum of at least `2 ^ -149` below the
overflow power, and a significand of at most 24 bits, of exactly 24 unless the quantum is the
smallest, or `2 ^ 24` when it rounded up to the next power. -/
theorem single_round_spec {m : Nat} (hm : m ≠ 0) {q : Int} {n : Nat} {u : Int}
    (h : single.round m 1 q = some (n, u)) :
    -149 ≤ u ∧ u < 128 ∧ n < 2 ^ (128 - u).toNat ∧ n ≤ 2 ^ 24 ∧ (u = -149 ∨ 2 ^ 23 ≤ n) := by
  obtain ⟨hu, hn, hlt, hnlt⟩ := (single_round_eq_some hm).1 h
  have hlo : 2 ^ m.log2 ≤ m := Nat.log2_self_le hm
  have hhi : m < 2 ^ (m.log2 + 1) := Nat.lt_log2_self
  have hb : 0 < 2 ^ (u - q).toNat := Nat.two_pow_pos _
  -- The significand before rounding lies below `2 ^ 24` quanta.
  have hbelow : m * 2 ^ (q - u).toNat < 2 ^ 24 * 2 ^ (u - q).toNat :=
    calc m * 2 ^ (q - u).toNat < 2 ^ (m.log2 + 1) * 2 ^ (q - u).toNat :=
          Nat.mul_lt_mul_of_pos_right hhi (Nat.two_pow_pos _)
      _ = 2 ^ (m.log2 + 1 + (q - u).toNat) := (Nat.pow_add _ _ _).symm
      _ ≤ 2 ^ (24 + (u - q).toNat) := Nat.pow_le_pow_right (by omega) (by omega)
      _ = 2 ^ 24 * 2 ^ (u - q).toNat := Nat.pow_add _ _ _
  have hquot : m * 2 ^ (q - u).toNat / 2 ^ (u - q).toNat < 2 ^ 24 := (Nat.div_lt_iff_lt_mul hb).2 hbelow
  refine ⟨by omega, hlt, hnlt, by have := divRoundEven_le (m * 2 ^ (q - u).toNat) (2 ^ (u - q).toNat); omega, ?_⟩
  by_cases hmin : u = -149
  · exact .inl hmin
  -- Above the smallest quantum the leading bit sits 23 places above the quantum.
  have hexp : 23 + (u - q).toNat = m.log2 + (q - u).toNat := by omega
  have habove : 2 ^ 23 * 2 ^ (u - q).toNat ≤ m * 2 ^ (q - u).toNat :=
    calc 2 ^ 23 * 2 ^ (u - q).toNat = 2 ^ m.log2 * 2 ^ (q - u).toNat := by rw [← Nat.pow_add, ← Nat.pow_add, hexp]
      _ ≤ m * 2 ^ (q - u).toNat := Nat.mul_le_mul_right _ hlo
  have := div_le_divRoundEven (m * 2 ^ (q - u).toNat) (2 ^ (u - q).toNat)
  exact .inr (hn ▸ Nat.le_trans ((Nat.le_div_iff_mul_le hb).2 habove) this)

/-- A 32-bit value below `2 ^ 24` quanta, read back from its 64-bit word, rounds to itself. -/
theorem single_round_exact {n : Nat} {u : Int} (hn : n ≠ 0) (h24 : n < 2 ^ 24)
    (hnorm : u = -149 ∨ 2 ^ 23 ≤ n) (hlo : -149 ≤ u) (hu : u < 128) (hnu : n < 2 ^ (128 - u).toNat) :
    single.round (n * 2 ^ (52 - n.log2)) 1 (n.log2 + u - 52) = some (n, u) := by
  have hl : n.log2 < 24 := (Nat.log2_lt hn).2 h24
  have hnorm' : u = -149 ∨ n.log2 = 23 := hnorm.imp_right fun h => by
    have := (Nat.le_log2 hn).2 h
    omega
  obtain ⟨hsig, hsig'⟩ := significand_bounds hn (by omega)
  have hm : n * 2 ^ (52 - n.log2) ≠ 0 := by omega
  have hlog : (n * 2 ^ (52 - n.log2)).log2 = 52 := (Nat.log2_eq_iff hm).2 ⟨hsig, hsig'⟩
  refine (single_round_eq_some hm).2 ⟨by omega, ?_, hu, hnu⟩
  rw [show ((n.log2 : Int) + u - 52 - u).toNat = 0 by omega,
    show (u - ((n.log2 : Int) + u - 52)).toNat = 52 - n.log2 by omega, Nat.pow_zero, Nat.mul_one,
    divRoundEven_of_dvd (Nat.two_pow_pos _) (Nat.dvd_mul_left _ _),
    Nat.mul_div_cancel _ (Nat.two_pow_pos _)]

/-- A significand that rounded up to `2 ^ 24` rounds again to `2 ^ 23` at twice the quantum. -/
theorem single_round_carry {u : Int} (hlo : -149 ≤ u) (hu : u < 104) :
    single.round (2 ^ 24 * 2 ^ (52 - 24)) 1 (24 + u - 52) = some (2 ^ 23, u + 1) := by
  have hm : 2 ^ 24 * 2 ^ (52 - 24) ≠ 0 := Nat.mul_ne_zero (Nat.pos_iff_ne_zero.1 (Nat.two_pow_pos _))
    (Nat.pos_iff_ne_zero.1 (Nat.two_pow_pos _))
  have hlog : (2 ^ 24 * 2 ^ (52 - 24)).log2 = 52 := by
    rw [← Nat.pow_add]
    exact Nat.log2_two_pow
  refine (single_round_eq_some hm).2 ⟨by omega, ?_, by omega, ?_⟩
  · rw [show ((24 : Int) + u - 52 - (u + 1)).toNat = 0 by omega,
      show (u + 1 - (24 + u - 52)).toNat = 29 by omega, Nat.pow_zero, Nat.mul_one,
      divRoundEven_of_dvd (Nat.two_pow_pos _) (by rw [← Nat.pow_add]; exact Nat.pow_dvd_pow 2 (by omega))]
    rfl
  · exact Nat.pow_lt_pow_right (by omega) (by omega)

/-- `2 ^ 23` at twice the quantum is the same word as `2 ^ 24`. -/
theorem encode_carry (neg : Bool) {u : Int} (hlo : -149 ≤ u) :
    encode neg (2 ^ 23) (u + 1) = encode neg (2 ^ 24) u := by
  have h23 : (2 ^ 23 : Nat).log2 = 23 := Nat.log2_two_pow
  have h24 : (2 ^ 24 : Nat).log2 = 24 := Nat.log2_two_pow
  simp only [encode, h23, h24, Nat.pow_eq, if_neg (Nat.pos_iff_ne_zero.1 (Nat.two_pow_pos _)),
    if_pos (show -1022 ≤ ((23 : Nat) : Int) + (u + 1) by omega),
    if_pos (show -1022 ≤ ((24 : Nat) : Int) + u by omega), if_pos (show 23 ≤ 52 by omega),
    if_pos (show 24 ≤ 52 by omega)]
  rw [show ((23 : Nat) : Int) + (u + 1) = ((24 : Nat) : Int) + u by omega]
  rfl

/-! ### Rounding through the 32-bit format twice -/

theorem roundSingle_of_view_nan {x : Binary64} (hv : x.view = .nan) : roundSingle x = x := by
  simp only [roundSingle, hv]

theorem roundSingle_of_view_inf {x : Binary64} {neg : Bool} (hv : x.view = .inf neg) :
    roundSingle x = x := by
  simp only [roundSingle, hv]

theorem roundSingle_of_view_zero {x : Binary64} {neg : Bool} {q : Int}
    (hv : x.view = .finite neg 0 q) : roundSingle x = x := by
  simp only [roundSingle, hv, if_true]

theorem roundSingle_of_round {x : Binary64} {neg : Bool} {m : Nat} {q : Int} {n : Nat} {u : Int}
    (hv : x.view = .finite neg m q) (hm : m ≠ 0) (hr : single.round m 1 q = some (n, u)) :
    roundSingle x = encode neg n u := by
  simp only [roundSingle, hv, if_neg hm, hr]

theorem roundSingle_of_overflow {x : Binary64} {neg : Bool} {m : Nat} {q : Int}
    (hv : x.view = .finite neg m q) (hm : m ≠ 0) (hr : single.round m 1 q = none) :
    roundSingle x = inf neg := by
  simp only [roundSingle, hv, if_neg hm, hr]

/-- A rounded 32-bit value rounds to itself: below `2 ^ 24` quanta its word reads back the same
significand and quantum, and at `2 ^ 24` it reads back as `2 ^ 23` at twice the quantum, which
is the same word. -/
theorem roundSingle_encode (neg : Bool) {n : Nat} {u : Int} (hn : n ≠ 0)
    (hspec : -149 ≤ u ∧ u < 128 ∧ n < 2 ^ (128 - u).toNat ∧ n ≤ 2 ^ 24 ∧ (u = -149 ∨ 2 ^ 23 ≤ n)) :
    roundSingle (encode neg n u) = encode neg n u := by
  obtain ⟨hlo, hu, hnu, h24, hnorm⟩ := hspec
  have hl : n.log2 ≤ 24 := Nat.lt_succ_iff.1 ((Nat.log2_lt hn).2 (by omega))
  have hsig : n * 2 ^ (52 - n.log2) ≠ 0 := (significand_bounds hn (by omega)).1 |> fun h => by omega
  have hv := view_encode (u := u) neg hn (by omega) (by omega) (by omega)
  rcases Nat.lt_or_ge n (2 ^ 24) with hlt | hge
  · exact roundSingle_of_round hv hsig (single_round_exact hn hlt hnorm hlo hu hnu)
  · obtain rfl : n = 2 ^ 24 := by omega
    have hu' : u < 104 := by
      have := (Nat.pow_lt_pow_iff_right (show 1 < 2 by omega)).1 hnu
      omega
    have hr := single_round_carry hlo hu'
    rw [show (24 : Int) = ((2 ^ 24 : Nat).log2 : Int) by rw [Nat.log2_two_pow]; rfl,
      show (52 - 24 : Nat) = 52 - (2 ^ 24 : Nat).log2 by rw [Nat.log2_two_pow]] at hr
    rw [roundSingle_of_round hv hsig hr, encode_carry neg hlo]

/-- **Rounding through the 32-bit format is idempotent.** -/
theorem roundSingle_roundSingle (x : Binary64) : roundSingle (roundSingle x) = roundSingle x := by
  rcases hv : x.view with _ | neg | ⟨neg, m, q⟩
  · rw [roundSingle_of_view_nan hv, roundSingle_of_view_nan hv]
  · rw [roundSingle_of_view_inf hv, roundSingle_of_view_inf hv]
  · by_cases hm : m = 0
    · subst hm
      rw [roundSingle_of_view_zero hv, roundSingle_of_view_zero hv]
    rcases hr : single.round m 1 q with _ | ⟨n, u⟩
    · rw [roundSingle_of_overflow hv hm hr, roundSingle_of_view_inf (view_inf neg)]
    · rw [roundSingle_of_round hv hm hr]
      by_cases hn : n = 0
      · subst hn
        rw [show encode neg 0 u = zero neg by simp [encode]]
        exact roundSingle_of_view_zero (view_zero neg)
      · exact roundSingle_encode neg hn (single_round_spec hm hr)

end TileKernel.Binary64

namespace TileKernel

/-- A type every literal can be cast to: a signed type has a top bit to extend, so it has at
least one byte. -/
def Scalar.Castable (s : Scalar) : Prop := s.kind = .sint → 0 < s.width

instance (s : Scalar) : Decidable s.Castable := inferInstanceAs (Decidable (_ → _))

namespace Literal

/-- The integer a literal stands for in an integer type: a float truncated toward zero and
saturated to the 64-bit range (a NaN giving 0), a boolean as 0 or 1. -/
def intValue (l : Literal) : Int :=
  match l with
  | .int v => v
  | .float v => v.truncSat
  | .bool v => if v then 1 else 0

/-- What wrapping to a type answers when it answers: below eight bytes the low `8 * width` bits,
sign-extended for a signed type. -/
def wrapValue (v : Int) (s : Scalar) : Int :=
  if 64 ≤ s.width * 8 then v else
  if s.kind = .sint ∧ ((Nat.pow 2 (s.width * 8 - 1) : Nat) : Int) ≤ v % (Nat.pow 2 (s.width * 8) : Nat)
  then v % (Nat.pow 2 (s.width * 8) : Nat) - (Nat.pow 2 (s.width * 8) : Nat)
  else v % (Nat.pow 2 (s.width * 8) : Nat)

/-- What a cast to a type answers when it answers. -/
def castValue (l : Literal) (s : Scalar) : Literal :=
  match s.kind with
  | .bool =>
    .bool (match l with
      | .float v => v.isNonzero
      | .int v => v != 0
      | .bool v => v)
  | .float | .bfloat => .float (if s.width = 4 then l.asFloat.roundSingle else l.asFloat)
  | .sint | .uint => .int (wrapValue l.intValue s)

/-- Wrapping to a type with a top bit answers. -/
theorem wrapInt_eq_ok {s : Scalar} (hs : s.Castable) (v : Int) : wrapInt v s = .ok (wrapValue v s) := by
  unfold wrapInt wrapValue
  by_cases hbig : 64 ≤ s.width * 8
  · simp only [if_pos hbig]
    rfl
  simp only [if_neg hbig]
  by_cases hk : s.kind = .sint
  · -- The top bit sits at `8 * width - 1`, which a signed type of a byte or more has.
    have hsub : Word.u32.sub (s.width * 8) 1 = .ok (s.width * 8 - 1) := by
      have := hs hk
      simp only [Word.sub, if_pos (show 1 ≤ s.width * 8 by omega)]
    simp only [hsub, hk, true_and, bind, Except.bind]
    split_ifs <;> rfl
  · simp only [hk, false_and, if_false]
    rfl

/-- A cast to a type every literal can be cast to answers. -/
theorem cast_eq_ok {s : Scalar} (hs : s.Castable) (l : Literal) : l.cast s = .ok (l.castValue s) := by
  unfold cast castValue
  cases s.kind <;> cases l <;> simp [wrapInt_eq_ok hs, intValue, bind, Except.bind, pure, Except.pure]

/-- Below eight bytes a wrapped value depends only on the value's low bits. -/
theorem wrapValue_of_lt {s : Scalar} (hw : ¬ 64 ≤ s.width * 8) (v : Int) :
    wrapValue v s =
      if s.kind = .sint ∧ ((Nat.pow 2 (s.width * 8 - 1) : Nat) : Int) ≤ v % (Nat.pow 2 (s.width * 8) : Nat)
      then v % (Nat.pow 2 (s.width * 8) : Nat) - (Nat.pow 2 (s.width * 8) : Nat)
      else v % (Nat.pow 2 (s.width * 8) : Nat) := by
  simp only [wrapValue, if_neg hw]

/-- Wrapping to a width twice is wrapping once: the wrapped value has the same low bits. -/
theorem wrapValue_wrapValue (v : Int) (s : Scalar) : wrapValue (wrapValue v s) s = wrapValue v s := by
  by_cases hbig : 64 ≤ s.width * 8
  · simp only [wrapValue, if_pos hbig]
  · have hlow : wrapValue v s % ((Nat.pow 2 (s.width * 8) : Nat) : Int) =
        v % ((Nat.pow 2 (s.width * 8) : Nat) : Int) := by
      rw [wrapValue_of_lt hbig]
      split
      · rw [Int.sub_emod_right, Int.emod_emod]
      · rw [Int.emod_emod]
    rw [wrapValue_of_lt hbig (wrapValue v s), hlow, ← wrapValue_of_lt hbig]

/-- **Casting a literal twice to one type is casting it once.** -/
theorem castValue_castValue (l : Literal) (s : Scalar) : (l.castValue s).castValue s = l.castValue s := by
  cases hk : s.kind with
  | bool => cases l <;> simp [castValue, hk]
  | float | bfloat =>
    by_cases hw : s.width = 4
    · simp [castValue, hk, hw, asFloat, Binary64.roundSingle_roundSingle]
    · simp [castValue, hk, hw, asFloat]
  | sint | uint => cases l <;> simp [castValue, hk, intValue, wrapValue_wrapValue]

/-- Whether a literal is a NaN float. -/
def isNaN : Literal → Bool
  | .float v => v.isNaN
  | _ => false

/-- A literal has the same value as itself unless it is a NaN. -/
theorem sameValue_self (l : Literal) : l.sameValue l = !l.isNaN := by
  cases l <;> simp [sameValue, isNaN, Binary64.eqv]

/-- A NaN has the same value as nothing. -/
theorem sameValue_of_isNaN {l : Literal} (h : l.isNaN = true) (m : Literal) : l.sameValue m = false := by
  cases l <;> cases m <;> simp_all [sameValue, isNaN, Binary64.eqv]

/-- A cast literal has the same value as its cast unless it is a NaN. -/
theorem sameValue_castValue_castValue (l : Literal) (s : Scalar) :
    ((l.castValue s).castValue s).sameValue (l.castValue s) = !(l.castValue s).isNaN := by
  rw [castValue_castValue, sameValue_self]

end Literal

/-! ### Casts to integer types -/

/-- The least value of an integer type of `8 * width` bits: `-2 ^ (8 * width - 1)` when signed,
`0` when unsigned. -/
def Scalar.least (s : Scalar) : Int := if s.kind = .sint then -2 ^ (s.width * 8 - 1) else 0

/-- `v` is `r` reduced modulo `2 ^ (8 * width)` into the range of the integer type `s`, the
`2 ^ (8 * width)` values from `s.least` on. -/
def Scalar.Wraps (s : Scalar) (r v : Int) : Prop :=
  v ≡ r [ZMOD 2 ^ (s.width * 8)] ∧ s.least ≤ v ∧ v < s.least + 2 ^ (s.width * 8)

instance (s : Scalar) (r v : Int) : Decidable (s.Wraps r v) :=
  inferInstanceAs (Decidable (_ ∧ _ ∧ _))

/-- Wrapping an integer to a type below eight bytes reduces it into the type's range; from eight
bytes on the value is kept, which is its reduction when it lies in the range already. -/
theorem Literal.wrapValue_wraps {s : Scalar} (hs : s.kind = .sint ∨ s.kind = .uint) (hw : 0 < s.width)
    {r : Int} (hwide : 64 ≤ s.width * 8 → s.least ≤ r ∧ r < s.least + 2 ^ (s.width * 8)) :
    s.Wraps r (Literal.wrapValue r s) := by
  by_cases hbig : 64 ≤ s.width * 8
  · simp only [Literal.wrapValue, if_pos hbig]
    exact ⟨Int.ModEq.refl r, hwide hbig⟩
  rw [Literal.wrapValue_of_lt hbig]
  have hcast : ∀ n : Nat, ((Nat.pow 2 n : Nat) : Int) = 2 ^ n := fun n => by
    rw [Nat.pow_eq]
    push_cast
    rfl
  simp only [hcast]
  -- the remainder lies in `[0, 2 ^ b)`; a signed type takes its upper half below zero
  have hpos : (0 : Int) < 2 ^ (s.width * 8) := by positivity
  have hraw0 : 0 ≤ r % 2 ^ (s.width * 8) := Int.emod_nonneg _ hpos.ne'
  have hraw1 : r % 2 ^ (s.width * 8) < 2 ^ (s.width * 8) := Int.emod_lt_of_pos _ hpos
  have hhalf : (2 : Int) ^ (s.width * 8) = 2 * 2 ^ (s.width * 8 - 1) := by
    rw [← pow_succ']
    congr 1
    omega
  have hmod : r % 2 ^ (s.width * 8) ≡ r [ZMOD 2 ^ (s.width * 8)] := Int.mod_modEq r _
  split
  · rename_i hup
    refine ⟨?_, ?_⟩
    · exact (Int.ModEq.sub_right _ hmod).trans (by simp [Int.ModEq])
    · simp only [Scalar.least, if_pos hup.1]
      omega
  · rename_i hlow
    refine ⟨hmod, ?_⟩
    rcases hs with hs | hs
    · simp only [Scalar.least, if_pos hs]
      simp only [hs, true_and, not_le] at hlow
      omega
    · simp only [Scalar.least, hs, reduceCtorEq, if_false]
      omega

/-- A cast to an integer type wraps the literal's integer value to the type's width. -/
theorem Literal.castValue_of_intKind {s : Scalar} (hs : s.kind = .sint ∨ s.kind = .uint) (l : Literal) :
    l.castValue s = .int (Literal.wrapValue l.intValue s) := by
  rcases hs with hs | hs <;> simp [Literal.castValue, hs]

/-- **A cast projects a literal onto its type.** A cast to a type of a byte or more answers, and
casting again gives the same literal. A cast to an integer type below eight bytes gives an integer
congruent to the literal's integer value modulo `2 ^ (8 * width)` and in the type's range; from
eight bytes on it gives that value itself. -/
theorem Literal.cast_projects (l : Literal) (s : Scalar) (hw : 0 < s.width) :
    ∃ x, l.cast s = .ok x ∧ x.cast s = .ok x ∧
      (s.kind = .sint ∨ s.kind = .uint →
        (s.width < 8 → ∃ v, x = .int v ∧ s.Wraps l.intValue v) ∧
        (8 ≤ s.width → x = .int l.intValue)) := by
  have hs : s.Castable := fun _ => hw
  have again : (l.castValue s).cast s = .ok (l.castValue s) := by
    rw [Literal.cast_eq_ok hs, Literal.castValue_castValue]
  refine ⟨l.castValue s, Literal.cast_eq_ok hs l, again, fun hk => ⟨fun hnarrow => ?_, fun hwide => ?_⟩⟩
  · exact ⟨_, Literal.castValue_of_intKind hk l,
      Literal.wrapValue_wraps hk hw fun hbig => absurd hbig (by omega)⟩
  · rw [Literal.castValue_of_intKind hk]
    simp only [Literal.wrapValue, if_pos (show 64 ≤ s.width * 8 by omega)]

/-- `200` cast to a signed byte is `-56`: congruent to 200 modulo 256, in `[-128, 128)`, and cast
again it stays. -/
theorem byteCast_projects : 0 < Scalar.i8.width ∧
    ∃ x, (Literal.int 200).cast Scalar.i8 = .ok x ∧ x.cast Scalar.i8 = .ok x ∧
      (Scalar.i8.kind = .sint ∨ Scalar.i8.kind = .uint →
        (Scalar.i8.width < 8 → ∃ v, x = .int v ∧ Scalar.i8.Wraps (Literal.int 200).intValue v) ∧
        (8 ≤ Scalar.i8.width → x = .int (Literal.int 200).intValue)) :=
  ⟨by decide, Literal.cast_projects (.int 200) Scalar.i8 (by decide)⟩

example : (Literal.int 200).cast Scalar.i8 = .ok (.int (-56)) := rfl

end TileKernel
