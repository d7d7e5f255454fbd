import TileKernel.Proofs.Casts
import TileKernel.Pass.Simplify

/-!
# Folding integer constants rounds once

Simplification folds an elementwise op whose two inputs are constants into a fill: it evaluates
the operator on the inputs' values as doubles and casts the result to the output's type. For an
integer output the cast truncates the double toward zero and wraps it to the type's width.

A double holds every integer of at most 53 bits exactly (`holdsInt_ofInt`), and each operator
computes its exact result and rounds it once, so on such inputs the fold gives the nearest double
to the exact integer result (`eval_ofInt_roundsTo`). Rounding depends on the value alone
(`Format.round_congr`), and the order of words is the order of their values
(`orderKey_lt_orderKey_iff`), which settles `max` and `min`.

* `foldedFill_int_exact`: when the inputs and the exact result have at most 53 bits, the folded
  literal is the exact result reduced modulo `2 ^ (8 * width)` into the output type's range.
  From eight bytes on the cast keeps the value, so an unsigned result must not be negative.
* `squareFold_loses_low_bits`: `2147483647 * 2147483647` needs 62 bits; the double nearest to it
  is even, and the 32-bit fold gives 0 where wrapping integer arithmetic gives 1.
-/

set_option autoImplicit false

namespace TileKernel.Binary64

/-! ### Rounding depends on the value alone -/

theorem log2_mul_two_pow {n : Nat} (hn : n ≠ 0) (k : Nat) : (n * 2 ^ k).log2 = n.log2 + k := by
  have hpos : n * 2 ^ k ≠ 0 := Nat.mul_ne_zero hn (Nat.pos_iff_ne_zero.1 (Nat.two_pow_pos k))
  refine (Nat.log2_eq_iff hpos).2 ⟨?_, ?_⟩
  · rw [Nat.pow_add]
    exact Nat.mul_le_mul_right _ (Nat.log2_self_le hn)
  · rw [show n.log2 + k + 1 = n.log2 + 1 + k by omega, Nat.pow_add]
    exact Nat.mul_lt_mul_of_pos_right Nat.lt_log2_self (Nat.two_pow_pos k)

/-- Cross-multiplied equalities of scaled integers rescale: only the difference of the two
exponents matters. -/
theorem rescale {A B : Int} {P₁ P₂ Q₁ Q₂ : Nat} (h : A * 2 ^ P₁ = B * 2 ^ P₂)
    (hq : (Q₁ : Int) - Q₂ = (P₁ : Int) - P₂) : A * 2 ^ Q₁ = B * 2 ^ Q₂ := by
  have hsum : Q₁ + P₂ = P₁ + Q₂ := by omega
  have hmul : A * 2 ^ Q₁ * 2 ^ P₂ = B * 2 ^ Q₂ * 2 ^ P₂ :=
    calc A * 2 ^ Q₁ * 2 ^ P₂ = A * 2 ^ P₁ * 2 ^ Q₂ := by
          rw [Int.mul_assoc, ← pow_add, hsum, pow_add, Int.mul_assoc]
      _ = B * 2 ^ P₂ * 2 ^ Q₂ := by rw [h]
      _ = B * 2 ^ Q₂ * 2 ^ P₂ := by rw [Int.mul_assoc, Int.mul_comm (2 ^ P₂), ← Int.mul_assoc]
  exact Int.eq_of_mul_eq_mul_right (by positivity) hmul

/-- `rescale` on naturals. -/
theorem rescale_nat {a b : Nat} {P₁ P₂ Q₁ Q₂ : Nat} (h : a * 2 ^ P₁ = b * 2 ^ P₂)
    (hq : (Q₁ : Int) - Q₂ = (P₁ : Int) - P₂) : a * 2 ^ Q₁ = b * 2 ^ Q₂ := by
  have h' : (a : Int) * 2 ^ P₁ = b * 2 ^ P₂ := by exact_mod_cast h
  exact_mod_cast rescale h' hq

/-- A scaling of a value other than zero is not zero. -/
theorem ne_zero_of_scaled {num num' k k' : Nat} (hn : num ≠ 0) (h : num * 2 ^ k = num' * 2 ^ k') :
    num' ≠ 0 := by
  rintro rfl
  rw [Nat.zero_mul] at h
  exact hn ((Nat.mul_eq_zero.1 h).resolve_right (Nat.pos_iff_ne_zero.1 (Nat.two_pow_pos _)))

/-- Two scalings of one value have their leading bit at the same place. -/
theorem log2_add_congr {num num' : Nat} {e e' : Int} (hn : num ≠ 0)
    (h : num * 2 ^ (e - e').toNat = num' * 2 ^ (e' - e).toNat) :
    (num.log2 : Int) + e = num'.log2 + e' := by
  have hlog := congrArg Nat.log2 h
  rw [log2_mul_two_pow hn, log2_mul_two_pow (ne_zero_of_scaled hn h)] at hlog
  omega

theorem divRoundEven_mul_right (a b : Nat) {c : Nat} (hc : 0 < c) :
    divRoundEven (a * c) (b * c) = divRoundEven a b := by
  have hlt : b * c < 2 * (a % b * c) ↔ b < 2 * (a % b) := by
    rw [← Nat.mul_assoc]
    exact Nat.mul_lt_mul_right hc
  have heq : (2 * (a % b * c) == b * c) = (2 * (a % b) == b) := by
    rw [← Nat.mul_assoc]
    exact Bool.eq_iff_iff.2 (by rw [beq_iff_eq, beq_iff_eq]; exact Nat.mul_left_inj (Nat.pos_iff_ne_zero.1 hc))
  simp only [divRoundEven, Nat.mul_div_mul_right _ _ hc, Nat.mul_mod_mul_right, decide_eq_decide.2 hlt, heq]

/-- Rounding a quotient depends on the quotient alone. -/
theorem divRoundEven_congr {a b a' b' : Nat} (hb : 0 < b) (hb' : 0 < b') (h : a * b' = a' * b) :
    divRoundEven a b = divRoundEven a' b' :=
  calc divRoundEven a b = divRoundEven (a * b') (b * b') := (divRoundEven_mul_right a b hb').symm
    _ = divRoundEven (a' * b) (b' * b) := by rw [h, Nat.mul_comm b b']
    _ = divRoundEven a' b' := divRoundEven_mul_right a' b' hb

/-- **Rounding depends on the value alone**: two scalings `num * 2 ^ e` and `num' * 2 ^ e'` of
one value round alike. -/
theorem Format.round_congr (f : Format) {num num' : Nat} {e e' : Int}
    (h : num * 2 ^ (e - e').toNat = num' * 2 ^ (e' - e).toNat) :
    f.round num 1 e = f.round num' 1 e' := by
  by_cases hn : num = 0
  · have hn' : num' = 0 := Decidable.byContradiction fun hn' => ne_zero_of_scaled hn' h.symm hn
    simp [Format.round, hn, hn']
  have hn' : num' ≠ 0 := ne_zero_of_scaled hn h
  -- at any quantum `2 ^ u` the two significands before rounding are the same quotient
  have hcross : ∀ u : Int, divRoundEven (num * 2 ^ (e - u).toNat) (1 * 2 ^ (u - e).toNat) =
      divRoundEven (num' * 2 ^ (e' - u).toNat) (1 * 2 ^ (u - e').toNat) := fun u => by
    refine divRoundEven_congr (by positivity) (by positivity) ?_
    rw [Nat.one_mul, Nat.one_mul, Nat.mul_assoc, Nat.mul_assoc, ← Nat.pow_add, ← Nat.pow_add]
    exact rescale_nat h (by omega)
  simp only [Format.round, if_neg hn, if_neg hn', floorLog2_one hn, floorLog2_one hn',
    log2_add_congr hn h, Nat.pow_eq, hcross]

theorem ofExact_congr (neg : Bool) {num num' : Nat} {e e' : Int}
    (h : num * 2 ^ (e - e').toNat = num' * 2 ^ (e' - e).toNat) :
    ofExact neg num 1 e = ofExact neg num' 1 e' := by
  simp only [ofExact, Format.round_congr double h]

theorem ofExact_zero (neg : Bool) (e : Int) : ofExact neg 0 1 e = zero neg := by
  simp [ofExact, Format.round, encode]

/-! ### Integers of at most 53 bits -/

/-- A normal double, a 53-bit significand at a quantum within the exponent range, rounds to
itself. -/
theorem double_round_normal {n : Nat} {u : Int} (h52 : 2 ^ 52 ≤ n) (h53 : n < 2 ^ 53)
    (hlo : -1074 ≤ u) (hhi : u ≤ 971) : double.round n 1 u = some (n, u) := by
  have hn : n ≠ 0 := by omega
  have hlog : n.log2 = 52 := (Nat.log2_eq_iff hn).2 ⟨h52, h53⟩
  have hu : max (((52 : Nat) : Int) + u - ((53 - 1 : Nat) : Int)) (-1074) = u := by omega
  -- the significand stays below the overflow power `2 ^ (1024 - u)`
  have hfits : n < 2 ^ (1024 - u).toNat :=
    Nat.lt_of_lt_of_le h53 (Nat.pow_le_pow_right (by omega) (by omega))
  simp only [Format.round, double, if_neg hn, floorLog2_one hn, hlog, Nat.pow_eq, hu,
    Int.sub_self, Int.toNat_zero, Nat.pow_zero, Nat.mul_one,
    divRoundEven_of_dvd Nat.one_pos (Nat.one_dvd n), Nat.div_one]
  rw [if_neg (by simp only [Bool.or_eq_true, decide_eq_true_eq, not_or]; omega)]

theorem view_ofExact_normal (neg : Bool) {n : Nat} {u : Int} (h52 : 2 ^ 52 ≤ n) (h53 : n < 2 ^ 53)
    (hlo : -1074 ≤ u) (hhi : u ≤ 971) : (ofExact neg n 1 u).view = .finite neg n u := by
  have hn : n ≠ 0 := by omega
  have hlog : n.log2 = 52 := (Nat.log2_eq_iff hn).2 ⟨h52, h53⟩
  rw [ofExact, double_round_normal h52 h53 hlo hhi]
  dsimp only
  rw [view_encode neg hn (by omega) (by omega) (by omega), hlog]
  simp

/-- An integer of at most 53 bits as a normal double: a 53-bit significand `n` at a quantum
`2 ^ u` with `-52 ≤ u ≤ 1`. -/
theorem exists_normal {N : Nat} (h0 : N ≠ 0) (h : N ≤ 2 ^ 53) :
    ∃ n u, 2 ^ 52 ≤ n ∧ n < 2 ^ 53 ∧ -52 ≤ u ∧ u ≤ 1 ∧
      N * 2 ^ (0 - u).toNat = n * 2 ^ (u - 0).toNat := by
  by_cases htop : N = 2 ^ 53
  · exact ⟨2 ^ 52, 1, Nat.le_refl _, by norm_num, by omega, Int.le_refl _, by subst htop; rfl⟩
  · have hl : N.log2 ≤ 52 := Nat.lt_succ_iff.1 ((Nat.log2_lt h0).2 (by omega))
    obtain ⟨h52, h53⟩ := significand_bounds h0 hl
    refine ⟨N * 2 ^ (52 - N.log2), (N.log2 : Int) - 52, h52, h53, by omega, by omega, ?_⟩
    rw [show (0 - ((N.log2 : Int) - 52)).toNat = 52 - N.log2 by omega,
      show ((N.log2 : Int) - 52 - 0).toNat = 0 by omega, Nat.pow_zero, Nat.mul_one]

/-! ### Words that hold an integer -/

theorem signedNum_mul_two_pow (neg : Bool) (m k : Nat) :
    signedNum neg (m * 2 ^ k) = signedNum neg m * 2 ^ k := by
  cases neg <;> simp [signedNum]

theorem signedNum_not (neg : Bool) (m : Nat) : signedNum (!neg) m = -signedNum neg m := by
  cases neg <;> simp [signedNum]

theorem signedNum_xor (neg neg' : Bool) (m n : Nat) :
    signedNum (neg != neg') (m * n) = signedNum neg m * signedNum neg' n := by
  cases neg <;> cases neg' <;> simp [signedNum]

theorem natAbs_signedNum (neg : Bool) (m : Nat) : (signedNum neg m).natAbs = m := by
  cases neg <;> simp [signedNum]

theorem signedNum_natAbs (z : Int) : signedNum (decide (z < 0)) z.natAbs = z := by
  simp only [signedNum, decide_eq_true_eq]
  split <;> omega

/-- A positive scaling of a signed number has its sign: the sign bit is the integer's. -/
theorem signedNum_natAbs_of_scaled {neg : Bool} {m k k' : Nat} {z : Int}
    (h : signedNum neg (m * 2 ^ k) = z * 2 ^ k') : signedNum neg z.natAbs = z := by
  have hpos : (0 : Int) < 2 ^ k' := by positivity
  have hm : (0 : Int) ≤ (m : Int) * 2 ^ k := by positivity
  cases neg
  · simp only [signedNum, Bool.false_eq_true, if_false] at h ⊢
    have : 0 ≤ z := by
      push_cast at h
      nlinarith
    omega
  · simp only [signedNum, if_true] at h ⊢
    have : z ≤ 0 := by
      push_cast at h
      nlinarith
    omega

theorem sign_eq_of_signedNum {neg : Bool} {z : Int} (h : signedNum neg z.natAbs = z) (hz : z ≠ 0) :
    neg = decide (z < 0) := by
  cases neg
  · simp only [signedNum, Bool.false_eq_true, if_false] at h
    exact (decide_eq_false (by omega)).symm
  · simp only [signedNum, if_true] at h
    exact (decide_eq_true (by omega)).symm

/-- The word is finite and its value is the integer `z`: `m * 2 ^ q = z`, cross-multiplied. -/
def HoldsInt (x : Binary64) (z : Int) : Prop :=
  ∃ neg m q, x.view = .finite neg m q ∧ signedNum neg (m * 2 ^ q.toNat) = z * 2 ^ (-q).toNat

theorem holdsInt_zero (neg : Bool) : (zero neg).HoldsInt 0 :=
  ⟨neg, 0, -1074, view_zero neg, by rw [Nat.zero_mul, Int.zero_mul]; cases neg <;> rfl⟩

/-- **A double holds every integer of at most 53 bits exactly.** -/
theorem holdsInt_ofInt {z : Int} (hz : z.natAbs ≤ 2 ^ 53) : (ofInt z).HoldsInt z := by
  by_cases h0 : z = 0
  · subst h0
    rw [ofInt, Int.natAbs_zero, ofExact_zero]
    exact holdsInt_zero _
  obtain ⟨n, u, h52, h53, hlo, hhi, hN⟩ := exists_normal (Int.natAbs_ne_zero.2 h0) hz
  refine ⟨decide (z < 0), n, u, ?_, ?_⟩
  · rw [ofInt, ofExact_congr _ hN]
    exact view_ofExact_normal _ h52 h53 (by omega) (by omega)
  · have hval : n * 2 ^ u.toNat = z.natAbs * 2 ^ (-u).toNat := by
      simpa only [Int.sub_zero, Int.zero_sub] using hN.symm
    rw [hval, signedNum_mul_two_pow, signedNum_natAbs]

/-- The word is the nearest double to the integer `z`, or a zero of either sign when `z` is zero. -/
def RoundsTo (x : Binary64) (z : Int) : Prop := x = ofInt z ∨ (z = 0 ∧ ∃ neg, x = zero neg)

theorem RoundsTo.holdsInt {x : Binary64} {z : Int} (h : x.RoundsTo z) (hz : z.natAbs ≤ 2 ^ 53) :
    x.HoldsInt z := by
  rcases h with rfl | ⟨rfl, neg, rfl⟩
  · exact holdsInt_ofInt hz
  · exact holdsInt_zero neg

/-- An exact value that is an integer rounds to the nearest double to that integer. -/
theorem ofExact_eq_ofInt {neg : Bool} {num : Nat} {e z : Int} (hn : num ≠ 0)
    (h : signedNum neg (num * 2 ^ e.toNat) = z * 2 ^ (-e).toNat) : ofExact neg num 1 e = ofInt z := by
  have habs : num * 2 ^ e.toNat = z.natAbs * 2 ^ (-e).toNat := by
    simpa [natAbs_signedNum, Int.natAbs_mul, Int.natAbs_pow] using congrArg Int.natAbs h
  have hz : z ≠ 0 := by
    rintro rfl
    exact ne_zero_of_scaled hn habs rfl
  rw [ofInt, sign_eq_of_signedNum (signedNum_natAbs_of_scaled h) hz]
  refine ofExact_congr _ ?_
  rwa [Int.sub_zero, Int.zero_sub]

theorem ofExact_roundsTo {neg : Bool} {num : Nat} {e z : Int}
    (h : signedNum neg (num * 2 ^ e.toNat) = z * 2 ^ (-e).toNat) : (ofExact neg num 1 e).RoundsTo z := by
  by_cases hn : num = 0
  · subst hn
    have hpos : (2 : Int) ^ (-e).toNat ≠ 0 := by positivity
    refine .inr ⟨?_, neg, ofExact_zero neg e⟩
    simp only [Nat.zero_mul, signedNum, Nat.cast_zero, Int.neg_zero, ite_self] at h
    exact (mul_eq_zero.1 h.symm).resolve_right hpos
  · exact .inl (ofExact_eq_ofInt hn h)

/-! ### Each operator rounds its exact result once -/

theorem negate_bits (x : Binary64) : x.negate.bits.toNat = x.bits.toNat ^^^ 2 ^ 63 := by
  rw [negate, UInt64.toNat_xor, UInt64.toNat_shiftLeft]
  rfl

theorem expField_negate (x : Binary64) : x.negate.expField = x.expField := by
  rw [expField_eq, expField_eq, negate_bits, Nat.xor_div_two_pow, Nat.xor_mod_two_pow]
  norm_num

theorem fracField_negate (x : Binary64) : x.negate.fracField = x.fracField := by
  rw [fracField_eq, fracField_eq, negate_bits, Nat.xor_mod_two_pow]
  norm_num

theorem neg_negate (x : Binary64) : x.negate.neg = !x.neg := by
  have hlt := x.bits.toNat_lt
  rw [neg_eq, neg_eq, negate_bits, Nat.xor_div_two_pow]
  rcases (show x.bits.toNat / 2 ^ 63 = 0 ∨ x.bits.toNat / 2 ^ 63 = 1 by omega) with h | h <;>
    rw [h] <;> rfl

theorem view_negate {x : Binary64} {neg : Bool} {m : Nat} {q : Int} (h : x.view = .finite neg m q) :
    x.negate.view = .finite (!neg) m q := by
  unfold view at h ⊢
  rw [expField_negate, fracField_negate, neg_negate]
  split_ifs at h ⊢ <;> cases h <;> rfl

theorem HoldsInt.negate {x : Binary64} {z : Int} (h : x.HoldsInt z) : x.negate.HoldsInt (-z) := by
  obtain ⟨neg, m, q, hv, he⟩ := h
  exact ⟨!neg, m, q, view_negate hv, by rw [signedNum_not, he, Int.neg_mul]⟩

/-- A sum of two integers rounds once: over the finer quantum of the two, the sum is exact. -/
theorem add_roundsTo {x y : Binary64} {a b : Int} (hx : x.HoldsInt a) (hy : y.HoldsInt b) :
    (x.add y).RoundsTo (a + b) := by
  obtain ⟨na, m, p, hvx, hxa⟩ := hx
  obtain ⟨nb, n, q, hvy, hyb⟩ := hy
  rw [signedNum_mul_two_pow] at hxa hyb
  -- over the quantum `2 ^ min p q` each addend is its integer, rescaled
  have hxr : signedNum na (m * 2 ^ (p - min p q).toNat) * 2 ^ (min p q).toNat =
      a * 2 ^ (-min p q).toNat := by
    rw [signedNum_mul_two_pow, Int.mul_assoc, ← pow_add]
    exact rescale hxa (by omega)
  have hyr : signedNum nb (n * 2 ^ (q - min p q).toNat) * 2 ^ (min p q).toNat =
      b * 2 ^ (-min p q).toNat := by
    rw [signedNum_mul_two_pow, Int.mul_assoc, ← pow_add]
    exact rescale hyb (by omega)
  have hsum := congrArg₂ (· + ·) hxr hyr
  simp only [← Int.add_mul] at hsum
  simp only [add, hvx, hvy, Nat.pow_eq]
  split
  · rename_i hs
    rw [hs, Int.zero_mul] at hsum
    have hpos : (2 : Int) ^ (-min p q).toNat ≠ 0 := by positivity
    exact .inr ⟨(mul_eq_zero.1 hsum.symm).resolve_right hpos, _, rfl⟩
  · refine ofExact_roundsTo ?_
    rwa [signedNum_mul_two_pow, signedNum_natAbs]

/-- A product of two integers rounds once: the product of the significands is exact. -/
theorem mul_roundsTo {x y : Binary64} {a b : Int} (hx : x.HoldsInt a) (hy : y.HoldsInt b) :
    (x.mul y).RoundsTo (a * b) := by
  obtain ⟨na, m, p, hvx, hxa⟩ := hx
  obtain ⟨nb, n, q, hvy, hyb⟩ := hy
  rw [signedNum_mul_two_pow] at hxa hyb
  have hprod : signedNum (na != nb) (m * n) * 2 ^ (p.toNat + q.toNat) =
      a * b * 2 ^ ((-p).toNat + (-q).toNat) :=
    calc signedNum (na != nb) (m * n) * 2 ^ (p.toNat + q.toNat)
        = signedNum na m * 2 ^ p.toNat * (signedNum nb n * 2 ^ q.toNat) := by
          rw [signedNum_xor, pow_add]
          ring
      _ = a * 2 ^ (-p).toNat * (b * 2 ^ (-q).toNat) := by rw [hxa, hyb]
      _ = a * b * 2 ^ ((-p).toNat + (-q).toNat) := by
          rw [pow_add]
          ring
  simp only [mul, hvx, hvy]
  refine ofExact_roundsTo ?_
  rw [signedNum_mul_two_pow]
  exact rescale hprod (by omega)

/-! ### The order of words is the order of their values -/

/-- The magnitude of a finite word in quanta of `2 ^ -1074`, from its exponent and fraction
fields. -/
def quanta (e f : Nat) : Nat := if e = 0 then f else (2 ^ 52 + f) * 2 ^ (e - 1)

/-- Every magnitude of exponent field `e` lies below `2 ^ 52` quanta of `2 ^ e`. -/
theorem quanta_lt (e : Nat) {f : Nat} (hf : f < 2 ^ 52) : quanta e f < 2 ^ 52 * 2 ^ e := by
  unfold quanta
  split
  · rename_i he
    rw [he, Nat.pow_zero, Nat.mul_one]
    exact hf
  · calc (2 ^ 52 + f) * 2 ^ (e - 1) < 2 ^ 53 * 2 ^ (e - 1) :=
          Nat.mul_lt_mul_of_pos_right (by omega) (Nat.two_pow_pos _)
      _ = 2 ^ 52 * 2 ^ e := by
          rw [← Nat.pow_add, ← Nat.pow_add]
          congr 1
          omega

theorem le_quanta {e : Nat} (he : e ≠ 0) (f : Nat) : 2 ^ 52 * 2 ^ (e - 1) ≤ quanta e f := by
  rw [quanta, if_neg he]
  exact Nat.mul_le_mul_right _ (Nat.le_add_right _ _)

/-- Magnitudes grow with the two fields read as one number `e * 2 ^ 52 + f`. -/
theorem quanta_lt_quanta {e f e' f' : Nat} (hf : f < 2 ^ 52) (hf' : f' < 2 ^ 52)
    (h : e * 2 ^ 52 + f < e' * 2 ^ 52 + f') : quanta e f < quanta e' f' := by
  rcases Nat.lt_or_ge e e' with he | he
  · calc quanta e f < 2 ^ 52 * 2 ^ e := quanta_lt e hf
      _ ≤ 2 ^ 52 * 2 ^ (e' - 1) := Nat.mul_le_mul_left _ (Nat.pow_le_pow_right (by omega) (by omega))
      _ ≤ quanta e' f' := le_quanta (by omega) f'
  · -- within one binade the fraction decides
    have h52 : (2 : Nat) ^ 52 = 4503599627370496 := by norm_num
    rw [h52] at h hf'
    obtain rfl : e = e' := by omega
    unfold quanta
    split
    · omega
    · exact Nat.mul_lt_mul_of_pos_right (by omega) (Nat.two_pow_pos _)

theorem quanta_eq_zero {e f : Nat} : quanta e f = 0 ↔ e = 0 ∧ f = 0 := by
  unfold quanta
  split
  · simp [*]
  · have : (2 ^ 52 + f) * 2 ^ (e - 1) ≠ 0 := Nat.mul_ne_zero (by omega) (by positivity)
    simp [*]

/-- The order key of a word is its sign applied to its fields read as one number. -/
theorem orderKey_eq (x : Binary64) :
    x.orderKey = signedNum x.neg (x.expField * 2 ^ 52 + x.fracField) := by
  have hmag : (x.bits &&& 0x7FFFFFFFFFFFFFFF).toNat = x.expField * 2 ^ 52 + x.fracField := by
    rw [UInt64.toNat_and, show (0x7FFFFFFFFFFFFFFF : UInt64).toNat = 2 ^ 63 - 1 from rfl,
      Nat.and_two_pow_sub_one_eq_mod, expField_eq, fracField_eq]
    simp only [Nat.reducePow]
    omega
  simp only [orderKey, hmag, signedNum]

theorem fracField_lt (x : Binary64) : x.fracField < 2 ^ 52 := by
  rw [fracField_eq]
  exact Nat.mod_lt _ (Nat.two_pow_pos _)

theorem HoldsInt.isNaN_eq_false {x : Binary64} {z : Int} (h : x.HoldsInt z) : x.isNaN = false := by
  obtain ⟨neg, m, q, hv, -⟩ := h
  by_cases he : x.expField = 2047
  · rw [view, if_pos he] at hv
    split at hv <;> cases hv
  · simp [isNaN, he]

/-- A word that holds `z` has `z * 2 ^ 1074` quanta, with its sign. -/
theorem HoldsInt.signedNum_quanta {x : Binary64} {z : Int} (h : x.HoldsInt z) :
    signedNum x.neg (quanta x.expField x.fracField) = z * 2 ^ 1074 := by
  obtain ⟨neg, m, q, hv, he⟩ := h
  rw [signedNum_mul_two_pow] at he
  by_cases h2047 : x.expField = 2047
  · rw [view, if_pos h2047] at hv
    split at hv <;> cases hv
  rw [view, if_neg h2047] at hv
  split at hv
  · -- a subnormal word: its fraction counts quanta of `2 ^ -1074`
    rename_i hsub
    cases hv
    rw [quanta, if_pos hsub]
    rwa [show (-1074 : Int).toNat = 0 from rfl, show (-(-1074 : Int)).toNat = 1074 from rfl, pow_zero,
      Int.mul_one] at he
  · rename_i hsub
    cases hv
    rw [quanta, if_neg hsub, signedNum_mul_two_pow]
    rw [Nat.pow_eq] at he
    exact rescale he (by omega)

/-- Comparing two signed numbers compares any measures of their magnitudes that grow with them
and vanish with them. -/
theorem signedNum_lt_signedNum_iff {n n' : Bool} {k k' M M' : Nat}
    (hlt : k < k' → M < M') (hgt : k' < k → M' < M) (heq : k = k' → M = M') (h0 : k = 0 ↔ M = 0) :
    signedNum n k < signedNum n' k' ↔ signedNum n M < signedNum n' M' := by
  rcases Nat.lt_trichotomy k k' with hk | hk | hk
  · have := hlt hk
    cases n <;> cases n' <;> simp only [signedNum, Bool.false_eq_true, if_true, if_false] <;> omega
  · have := heq hk
    cases n <;> cases n' <;> simp only [signedNum, Bool.false_eq_true, if_true, if_false] <;> omega
  · have := hgt hk
    cases n <;> cases n' <;> simp only [signedNum, Bool.false_eq_true, if_true, if_false] <;> omega

/-- **The order of words is the order of their values**, for words that hold integers. -/
theorem orderKey_lt_orderKey_iff {x y : Binary64} {a b : Int} (hx : x.HoldsInt a) (hy : y.HoldsInt b) :
    x.orderKey < y.orderKey ↔ a < b := by
  have hfx := x.fracField_lt
  have hfy := y.fracField_lt
  have hfields : ∀ {e f e' f' : Nat}, f < 2 ^ 52 → f' < 2 ^ 52 → e * 2 ^ 52 + f = e' * 2 ^ 52 + f' →
      quanta e f = quanta e' f' := fun {e f e' f'} hf hf' h => by
    have h52 : (2 : Nat) ^ 52 = 4503599627370496 := by norm_num
    rw [h52] at h hf hf'
    have he : e = e' := by omega
    have hff : f = f' := by omega
    rw [he, hff]
  have hzero : ∀ {e f : Nat}, e * 2 ^ 52 + f = 0 ↔ quanta e f = 0 := fun {e f} => by
    rw [quanta_eq_zero]
    constructor
    · intro h
      exact ⟨by simpa using (Nat.add_eq_zero_iff.1 h).1, (Nat.add_eq_zero_iff.1 h).2⟩
    · rintro ⟨rfl, rfl⟩
      rfl
  rw [orderKey_eq, orderKey_eq, signedNum_lt_signedNum_iff (quanta_lt_quanta hfx hfy)
    (quanta_lt_quanta hfy hfx) (hfields hfx hfy) hzero, hx.signedNum_quanta, hy.signedNum_quanta]
  exact Int.mul_lt_mul_right (by positivity)

theorem lt_of_holdsInt {x y : Binary64} {a b : Int} (hx : x.HoldsInt a) (hy : y.HoldsInt b) :
    lt x y = decide (a < b) := by
  simp only [lt, hx.isNaN_eq_false, hy.isNaN_eq_false, orderKey_lt_orderKey_iff hx hy, Bool.not_false,
    Bool.true_and]

theorem maxNum_of_holdsInt {x y : Binary64} {a b : Int} (hx : x.HoldsInt a) (hy : y.HoldsInt b) :
    maxNum x y = if b < a then x else y := by
  simp only [maxNum, hx.isNaN_eq_false, hy.isNaN_eq_false, lt_of_holdsInt hy hx, Bool.false_eq_true,
    if_false, decide_eq_true_eq]

theorem minNum_of_holdsInt {x y : Binary64} {a b : Int} (hx : x.HoldsInt a) (hy : y.HoldsInt b) :
    minNum x y = if a < b then x else y := by
  simp only [minNum, hx.isNaN_eq_false, hy.isNaN_eq_false, lt_of_holdsInt hx hy, Bool.false_eq_true,
    if_false, decide_eq_true_eq]

/-! ### Truncating back to an integer -/

/-- Truncating a word that holds an integer of at most 53 bits gives the integer back. -/
theorem HoldsInt.truncSat_eq {x : Binary64} {z : Int} (h : x.HoldsInt z) (hz : z.natAbs ≤ 2 ^ 53) :
    x.truncSat = z := by
  obtain ⟨neg, m, q, hv, he⟩ := h
  have habs : m * 2 ^ q.toNat = z.natAbs * 2 ^ (-q).toNat := by
    simpa [natAbs_signedNum, Int.natAbs_mul, Int.natAbs_pow] using congrArg Int.natAbs he
  -- below one, the quantum divides the significand: truncation loses nothing
  have ht : (if 0 ≤ q then m * 2 ^ q.toNat else m / 2 ^ (-q).toNat) = z.natAbs := by
    split
    · rwa [show (-q).toNat = 0 by omega, Nat.pow_zero, Nat.mul_one] at habs
    · rw [show q.toNat = 0 by omega, Nat.pow_zero, Nat.mul_one] at habs
      rw [habs, Nat.mul_div_cancel _ (Nat.two_pow_pos _)]
  have hlo : ¬ z < int64Min := by
    simp only [int64Min, Nat.pow_eq, Nat.reducePow]
    omega
  have hhi : ¬ int64Max < z := by
    simp only [int64Max, Nat.pow_eq, Nat.reducePow]
    omega
  simp only [truncSat, hv, Nat.pow_eq, ht, signedNum_natAbs_of_scaled he, if_neg hlo, if_neg hhi]

theorem RoundsTo.truncSat_eq {x : Binary64} {z : Int} (h : x.RoundsTo z) (hz : z.natAbs ≤ 2 ^ 53) :
    x.truncSat = z :=
  (h.holdsInt hz).truncSat_eq hz

end TileKernel.Binary64

namespace TileKernel

/-! ### Folding integer constants -/

/-- The operator on unbounded integers. -/
def BinaryOp.exact : BinaryOp → Int → Int → Int
  | .add, a, b => a + b
  | .sub, a, b => a - b
  | .mul, a, b => a * b
  | .max, a, b => Max.max a b
  | .min, a, b => Min.min a b

/-- **Each operator rounds once**: on integers of at most 53 bits it gives the nearest double to
its exact integer result. -/
theorem BinaryOp.eval_ofInt_roundsTo (bin : BinaryOp) {a b : Int} (ha : a.natAbs ≤ 2 ^ 53)
    (hb : b.natAbs ≤ 2 ^ 53) : (bin.eval (Binary64.ofInt a) (Binary64.ofInt b)).RoundsTo (bin.exact a b) := by
  have hx := Binary64.holdsInt_ofInt ha
  have hy := Binary64.holdsInt_ofInt hb
  cases bin with
  | add => exact Binary64.add_roundsTo hx hy
  | sub =>
    rw [exact, Int.sub_eq_add_neg]
    exact Binary64.add_roundsTo hx hy.negate
  | mul => exact Binary64.mul_roundsTo hx hy
  | max =>
    refine .inl ?_
    rw [eval, Binary64.maxNum_of_holdsInt hx hy, exact]
    split <;> congr 1 <;> omega
  | min =>
    refine .inl ?_
    rw [eval, Binary64.minNum_of_holdsInt hx hy, exact]
    split <;> congr 1 <;> omega

theorem Literal.castValue_float_of_int {s : Scalar} (hs : s.kind = .sint ∨ s.kind = .uint) (x : Binary64) :
    (Literal.float x).castValue s = .int (Literal.wrapValue x.truncSat s) := by
  rcases hs with hs | hs <;> simp [Literal.castValue, Literal.intValue, hs]

/-- An elementwise op whose two inputs are constants, and that does not read its own output,
folds to a fill of its output with the operator's value cast to the output's type. -/
theorem foldedFill_elementwise {k : Kernel} {d : DefUse} {h : OpId} {bin : BinaryOp}
    {i j out : Operand} {rest : List Operand} {a b : Literal}
    (hkind : (k.op h).kind = .elementwise bin) (hin : (k.op h).inputs = [i, j])
    (hout : (k.op h).outputs = out :: rest) (hi : i.buffer ≠ out.buffer) (hj : j.buffer ≠ out.buffer)
    (ha : constantAt k d i.buffer h = some a) (hb : constantAt k d j.buffer h = some b)
    (hc : (k.buffer out.buffer).dtype.Castable) :
    foldedFill k d h = .ok (some (TileOp.fill (k.op h).name
      ((Literal.float (bin.eval a.asFloat b.asFloat)).castValue (k.buffer out.buffer).dtype) out)) := by
  have hsource : foldSource k d h = some (.float (bin.eval a.asFloat b.asFloat), out) := by
    simp [foldSource, hkind, hin, hout, hi, hj, ha, hb]
  simp only [foldedFill, hsource, Literal.cast_eq_ok hc]
  rfl

/-- **Folding integer constants is exact within 53 bits.** An elementwise op over two constant
integers `a` and `b` into a buffer of an integer type folds to the fill of `a op b` reduced modulo
`2 ^ (8 * width)` into the type's range, when `a`, `b` and `a op b` have at most 53 bits and,
for an unsigned type of eight bytes or more, `a op b` is not negative. -/
theorem foldedFill_int_exact {k : Kernel} {d : DefUse} {h : OpId} {bin : BinaryOp}
    {i j out : Operand} {rest : List Operand} {a b : Int}
    (hkind : (k.op h).kind = .elementwise bin) (hin : (k.op h).inputs = [i, j])
    (hout : (k.op h).outputs = out :: rest) (hi : i.buffer ≠ out.buffer) (hj : j.buffer ≠ out.buffer)
    (ha : constantAt k d i.buffer h = some (.int a)) (hb : constantAt k d j.buffer h = some (.int b))
    (hs : (k.buffer out.buffer).dtype.kind = .sint ∨ (k.buffer out.buffer).dtype.kind = .uint)
    (hw : 0 < (k.buffer out.buffer).dtype.width)
    (ha53 : a.natAbs ≤ 2 ^ 53) (hb53 : b.natAbs ≤ 2 ^ 53) (hr53 : (bin.exact a b).natAbs ≤ 2 ^ 53)
    (hu : (k.buffer out.buffer).dtype.kind = .uint → 8 ≤ (k.buffer out.buffer).dtype.width →
      0 ≤ bin.exact a b) :
    ∃ v, foldedFill k d h = .ok (some (TileOp.fill (k.op h).name (.int v) out)) ∧
      (k.buffer out.buffer).dtype.Wraps (bin.exact a b) v := by
  have htrunc := (bin.eval_ofInt_roundsTo ha53 hb53).truncSat_eq hr53
  refine ⟨Literal.wrapValue (bin.exact a b) (k.buffer out.buffer).dtype, ?_, Literal.wrapValue_wraps hs hw ?_⟩
  · rw [foldedFill_elementwise hkind hin hout hi hj ha hb fun _ => hw, Literal.castValue_float_of_int hs]
    exact congrArg (fun v => Except.ok (some (TileOp.fill (k.op h).name (.int (Literal.wrapValue v _)) out)))
      htrunc
  · -- from 64 bits on, a result of 53 bits lies in the signed range, and in the unsigned one
    -- when it is not negative
    intro hwide
    have hbound : (2 : Int) ^ 63 ≤ 2 ^ ((k.buffer out.buffer).dtype.width * 8 - 1) :=
      pow_le_pow_right₀ (by norm_num) (by omega)
    have hhalf : (2 : Int) ^ ((k.buffer out.buffer).dtype.width * 8) =
        2 * 2 ^ ((k.buffer out.buffer).dtype.width * 8 - 1) := by
      rw [← pow_succ']
      congr 1
      omega
    have hr : -(2 : Int) ^ 53 ≤ bin.exact a b ∧ bin.exact a b ≤ 2 ^ 53 := by
      norm_num at hr53 ⊢
      omega
    rcases hs with hs | hs
    · simp only [Scalar.least, if_pos hs]
      norm_num at hbound hr ⊢
      omega
    · have := hu hs (by omega)
      simp only [Scalar.least, hs, reduceCtorEq, if_false]
      norm_num at hbound hr ⊢
      omega

/-- Two local buffers of type `dtype` filled with the integers `a` and `b`, and an op writing
`a op b` to a global buffer of that type. -/
def constantPair (dtype : Scalar) (bin : BinaryOp) (a b : Int) : Kernel where
  name := "c"
  buffers := #[
    { name := "a", shape := [8, 8], dtype, scope := .local },
    { name := "b", shape := [8, 8], dtype, scope := .local },
    { name := "out", shape := [8, 8], dtype, scope := .global }]
  ops := #[TileOp.fill "fa" (.int a) (.whole ⟨0⟩), TileOp.fill "fb" (.int b) (.whole ⟨1⟩),
    { name := "r", kind := .elementwise bin, inputs := [.whole ⟨0⟩, .whole ⟨1⟩],
      outputs := [.whole ⟨2⟩] }]
  body := [.op ⟨0⟩, .op ⟨1⟩, .op ⟨2⟩]

/-- Folding `100 + 100` into an eight-bit signed buffer gives the sum wrapped to eight bits. -/
theorem byteSum_folds_wrapped :
    ∃ v, foldedFill (constantPair .i8 .add 100 100) (DefUse.build (constantPair .i8 .add 100 100)) ⟨2⟩ =
      .ok (some (TileOp.fill "r" (.int v) (.whole ⟨2⟩))) ∧ Scalar.i8.Wraps 200 v :=
  foldedFill_int_exact (k := constantPair .i8 .add 100 100) (d := DefUse.build (constantPair .i8 .add 100 100))
    (h := ⟨2⟩) (i := .whole ⟨0⟩) (j := .whole ⟨1⟩) (a := 100) (b := 100) rfl rfl rfl (by decide) (by decide)
    (by decide +kernel) (by decide +kernel) (.inl rfl) (by decide) (by decide) (by decide) (by decide)
    (by decide)

/-- `2147483647 * 2147483647 = 2 ^ 62 - 2 ^ 32 + 1` needs 62 bits, and the nearest double is
`2 ^ 62 - 2 ^ 32`: folding the product into a 32-bit signed buffer gives 0, where the product
wrapped to 32 bits is 1. -/
theorem squareFold_loses_low_bits :
    foldedFill (constantPair .i32 .mul 2147483647 2147483647)
        (DefUse.build (constantPair .i32 .mul 2147483647 2147483647)) ⟨2⟩ =
      .ok (some (TileOp.fill "r" (.int 0) (.whole ⟨2⟩))) ∧
    Scalar.i32.Wraps (BinaryOp.mul.exact 2147483647 2147483647) 1 ∧
    ¬ Scalar.i32.Wraps (BinaryOp.mul.exact 2147483647 2147483647) 0 :=
  ⟨by decide +kernel, by decide, by decide⟩

end TileKernel
