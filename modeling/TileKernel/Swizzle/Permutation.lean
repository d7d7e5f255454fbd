import Mathlib.Data.Nat.Bitwise
import Mathlib.Data.List.Nodup
import Mathlib.Data.List.Perm.Basic
import TileKernel.Swizzle

/-!
# Swizzles are permutations

An offset splits into its bits below `base`, the `bits`-wide field, and the bits above the field
(`Swizzle.split`); `Swizzle.parts` reads the three back from an offset put together from them. A
swizzle rewrites only the field (`Swizzle.apply_eq`), and when its source lies above the field the
source is read from the untouched high bits (`Swizzle.source_eq`), so the permuted offset has the
same source as the offset it came from (`Swizzle.apply_parts`). Each combination is undone by its
inverse for a fixed source (`SwizzleKind.combine_inverse`), which gives the two round trips
`Swizzle.inverse_apply_apply` and `Swizzle.apply_inverse_apply`. Since the bits above the field
stay, a swizzle keeps each block of `span` offsets in place, and on a range made of whole blocks
it is a permutation (`Swizzle.range_perm`).

`Swizzle.make_apply_perm` collects these facts for every swizzle that `Swizzle.make` accepts.
-/

set_option autoImplicit false

namespace TileKernel

namespace SwizzleKind

/-- Inverting a combination twice gives it back. -/
theorem inverse_inverse (k : SwizzleKind) : k.inverse.inverse = k := by
  cases k <;> rfl

/-- A combination of two fields of width `2 ^ n` is again a field of that width. -/
theorem combine_lt (k : SwizzleKind) {n f src : Nat} (hf : f < 2 ^ n) (hs : src < 2 ^ n) :
    k.combine (2 ^ n) f src < 2 ^ n := by
  cases k with
  | xor => exact Nat.xor_lt_two_pow hf hs
  | rotate => exact Nat.mod_lt _ (Nat.two_pow_pos n)
  | rotateInverse => exact Nat.mod_lt _ (Nat.two_pow_pos n)

/-- For a fixed source, the inverse combination gives the field back. -/
theorem combine_inverse (k : SwizzleKind) {w f src : Nat} (hf : f < w) (hs : src < w) :
    k.inverse.combine w (k.combine w f src) src = f := by
  cases k with
  | xor => simp [inverse, combine]
  | rotate =>
    simp only [inverse, combine]
    by_cases h : f + src < w
    · rw [Nat.mod_eq_of_lt h, show f + src + w - src = f + w by omega, Nat.add_mod_right,
        Nat.mod_eq_of_lt hf]
    · rw [show f + src = (f + src - w) + w by omega, Nat.add_mod_right,
        Nat.mod_eq_of_lt (show f + src - w < w by omega),
        show f + src - w + w - src = f by omega, Nat.mod_eq_of_lt hf]
  | rotateInverse =>
    simp only [inverse, combine]
    by_cases h : src ≤ f
    · rw [show f + w - src = (f - src) + w by omega, Nat.add_mod_right,
        Nat.mod_eq_of_lt (show f - src < w by omega), show f - src + src = f by omega,
        Nat.mod_eq_of_lt hf]
    · rw [Nat.mod_eq_of_lt (show f + w - src < w by omega), show f + w - src + src = f + w by omega,
        Nat.add_mod_right, Nat.mod_eq_of_lt hf]

end SwizzleKind

namespace Swizzle

/-- Inverting a swizzle twice gives it back. -/
theorem inverse_inverse (s : Swizzle) : s.inverse.inverse = s := by
  simp [inverse, SwizzleKind.inverse_inverse]

/-- The inverse has the same field width. -/
@[simp] theorem inverse_bits (s : Swizzle) : s.inverse.bits = s.bits := rfl
/-- The inverse has the same field position. -/
@[simp] theorem inverse_base (s : Swizzle) : s.inverse.base = s.base := rfl
/-- The inverse has the same source distance. -/
@[simp] theorem inverse_shift (s : Swizzle) : s.inverse.shift = s.shift := rfl
/-- The inverse combines by the inverse combination. -/
@[simp] theorem inverse_kind (s : Swizzle) : s.inverse.kind = s.kind.inverse := rfl

/-- The field, by division and remainder. -/
theorem field_def (s : Swizzle) (x : Nat) : s.field x = x / 2 ^ s.base % 2 ^ s.bits := by
  simp only [field, Nat.shiftRight_eq_div_pow, Nat.pow_eq]

/-- The source, by division and remainder. -/
theorem source_def (s : Swizzle) (x : Nat) :
    s.source x = x / 2 ^ (s.base + s.shift) % 2 ^ s.bits := by
  simp only [source, Nat.shiftRight_eq_div_pow, Nat.pow_eq]

/-- A block holds `2 ^ bits` runs of `2 ^ base` offsets. -/
theorem span_def (s : Swizzle) : s.span = 2 ^ s.base * 2 ^ s.bits := by
  simp only [span, Nat.pow_eq, Nat.pow_add]

/-- The permuted offset: the field taken out and the combined field put in its place. -/
theorem apply_def (s : Swizzle) (x : Nat) :
    s.apply x = x - s.field x * 2 ^ s.base +
      s.kind.combine (2 ^ s.bits) (s.field x) (s.source x) * 2 ^ s.base := by
  simp only [apply, Nat.pow_eq]

/-- Shifts and masks compute the same permuted offset as powers do. -/
theorem applyBits_eq (s : Swizzle) (x : Nat) : s.applyBits x = s.apply x := by
  simp only [applyBits, apply_def, field_def, source_def, Nat.shiftRight_eq_div_pow,
    Nat.shiftLeft_eq, Nat.one_mul, Nat.and_two_pow_sub_one_eq_mod]

/-- The field is below its width. -/
theorem field_lt (s : Swizzle) (x : Nat) : s.field x < 2 ^ s.bits := by
  rw [field_def]; exact Nat.mod_lt _ (Nat.two_pow_pos _)

/-- The source is below the field width. -/
theorem source_lt (s : Swizzle) (x : Nat) : s.source x < 2 ^ s.bits := by
  rw [source_def]; exact Nat.mod_lt _ (Nat.two_pow_pos _)

/-- An offset is its low bits, its field, and the bits above the field. -/
theorem split (s : Swizzle) (x : Nat) :
    x = x % 2 ^ s.base + 2 ^ s.base * (s.field x + 2 ^ s.bits * (x / s.span)) := by
  have h1 := Nat.mod_add_div x (2 ^ s.base)
  have h2 := Nat.mod_add_div (x / 2 ^ s.base) (2 ^ s.bits)
  have h3 : x / 2 ^ s.base / 2 ^ s.bits = x / s.span := by
    rw [Nat.div_div_eq_div_mul, span_def]
  rw [field_def, ← h3, h2, h1]

/-- The parts of an offset put together from low bits, a field and high bits. -/
theorem parts (s : Swizzle) {lo p hi : Nat} (hlo : lo < 2 ^ s.base) (hp : p < 2 ^ s.bits) :
    let y := lo + 2 ^ s.base * (p + 2 ^ s.bits * hi)
    y % 2 ^ s.base = lo ∧ s.field y = p ∧ y / s.span = hi := by
  intro y
  have hB := Nat.two_pow_pos s.base
  have hw := Nat.two_pow_pos s.bits
  have hdiv : y / 2 ^ s.base = p + 2 ^ s.bits * hi := by
    simp only [y]
    rw [Nat.add_mul_div_left _ _ hB, Nat.div_eq_of_lt hlo, Nat.zero_add]
  refine ⟨?_, ?_, ?_⟩
  · simp only [y]
    rw [Nat.add_mul_mod_self_left, Nat.mod_eq_of_lt hlo]
  · rw [field_def, hdiv, Nat.add_mul_mod_self_left, Nat.mod_eq_of_lt hp]
  · rw [span_def, ← Nat.div_div_eq_div_mul, hdiv, Nat.add_mul_div_left _ _ hw,
      Nat.div_eq_of_lt hp, Nat.zero_add]

/-- With the source above the field, the source is read from the bits above the field. -/
theorem source_eq (s : Swizzle) (h : s.bits ≤ s.shift) (x : Nat) :
    s.source x = x / s.span / 2 ^ (s.shift - s.bits) % 2 ^ s.bits := by
  rw [source_def, span_def, Nat.div_div_eq_div_mul, ← Nat.pow_add, ← Nat.pow_add]
  congr 3
  omega

/-- The permuted offset keeps the low bits and the bits above the field. -/
theorem apply_eq (s : Swizzle) (x : Nat) :
    s.apply x = x % 2 ^ s.base + 2 ^ s.base *
      (s.kind.combine (2 ^ s.bits) (s.field x) (s.source x) + 2 ^ s.bits * (x / s.span)) := by
  have hx := s.split x
  rw [apply_def]
  generalize s.kind.combine (2 ^ s.bits) (s.field x) (s.source x) = c
  generalize s.field x = f at hx ⊢
  generalize 2 ^ s.base = B at hx ⊢
  generalize x % B = lo at hx ⊢
  rw [Nat.mul_add] at hx ⊢
  rw [Nat.mul_comm f, Nat.mul_comm c]
  generalize B * f = P at hx ⊢
  generalize B * c = Q
  generalize B * (2 ^ s.bits * (x / s.span)) = R at hx ⊢
  omega

/-- The inverse reads the same field. -/
@[simp] theorem inverse_field (s : Swizzle) (x : Nat) : s.inverse.field x = s.field x := rfl
/-- The inverse reads the same source. -/
@[simp] theorem inverse_source (s : Swizzle) (x : Nat) : s.inverse.source x = s.source x := rfl
/-- The inverse keeps the same blocks. -/
@[simp] theorem inverse_span (s : Swizzle) : s.inverse.span = s.span := rfl

/-- The permuted offset, read back through its parts: the same low bits, the combined field,
the same bits above the field, and so the same source. -/
theorem apply_parts (s : Swizzle) (h : s.bits ≤ s.shift) (x : Nat) :
    s.apply x % 2 ^ s.base = x % 2 ^ s.base ∧
    s.field (s.apply x) = s.kind.combine (2 ^ s.bits) (s.field x) (s.source x) ∧
    s.apply x / s.span = x / s.span ∧ s.source (s.apply x) = s.source x := by
  have hc := s.kind.combine_lt (s.field_lt x) (s.source_lt x)
  obtain ⟨h1, h2, h3⟩ := @parts s _ _ (x / s.span) (Nat.mod_lt x (Nat.two_pow_pos s.base)) hc
  rw [← s.apply_eq x] at h1 h2 h3
  refine ⟨h1, h2, h3, ?_⟩
  rw [s.source_eq h, s.source_eq h, h3]

/-- The inverse undoes the swizzle when the source lies above the field. -/
theorem inverse_apply_apply (s : Swizzle) (h : s.bits ≤ s.shift) (x : Nat) :
    s.inverse.apply (s.apply x) = x := by
  obtain ⟨h1, h2, h3, h4⟩ := s.apply_parts h x
  rw [s.inverse.apply_eq, inverse_field, inverse_source, inverse_kind, inverse_bits, inverse_base,
    inverse_span, h1, h2, h3, h4,
    SwizzleKind.combine_inverse _ (s.field_lt x) (s.source_lt x)]
  exact (s.split x).symm

/-- The swizzle undoes its inverse when the source lies above the field. -/
theorem apply_inverse_apply (s : Swizzle) (h : s.bits ≤ s.shift) (x : Nat) :
    s.apply (s.inverse.apply x) = x := by
  have := s.inverse.inverse_apply_apply h x
  rwa [inverse_inverse] at this

/-- A swizzle keeps an offset inside every block of `span` elements. -/
theorem apply_lt_of_isBijectiveOn (s : Swizzle) (h : s.bits ≤ s.shift) {extent x : Nat}
    (he : s.isBijectiveOn extent = true) (hx : x < extent) : s.apply x < extent := by
  simp only [isBijectiveOn, Bool.and_eq_true, decide_eq_true_eq, beq_iff_eq] at he
  have hs : 0 < s.span := Nat.two_pow_pos _
  have h3 := (s.apply_parts h x).2.2.1
  obtain ⟨m, hm⟩ : s.span ∣ extent := Nat.dvd_of_mod_eq_zero he.2
  have hq : x / s.span < m := by
    rw [Nat.div_lt_iff_lt_mul hs, Nat.mul_comm]; rwa [hm] at hx
  have := Nat.lt_mul_div_succ (s.apply x) hs
  rw [h3] at this
  calc s.apply x < s.span * (x / s.span + 1) := this
    _ ≤ s.span * m := Nat.mul_le_mul_left _ (by omega)
    _ = extent := hm.symm

/-- On a range the swizzle maps onto itself, its offsets are a permutation of the range. -/
theorem range_perm (s : Swizzle) (h : s.bits ≤ s.shift) {extent : Nat}
    (he : s.isBijectiveOn extent = true) :
    ((List.range extent).map s.apply).Perm (List.range extent) := by
  have hinj : ∀ x ∈ List.range extent, ∀ y ∈ List.range extent, s.apply x = s.apply y → x = y := by
    intro x _ y _ hxy
    rw [← s.inverse_apply_apply h x, hxy, s.inverse_apply_apply h y]
  rw [List.perm_ext_iff_of_nodup (List.nodup_range.map_on hinj) List.nodup_range]
  intro a
  simp only [List.mem_map, List.mem_range]
  constructor
  · rintro ⟨x, hx, rfl⟩
    exact s.apply_lt_of_isBijectiveOn h he hx
  · intro ha
    have he' : s.inverse.isBijectiveOn extent = true := he
    exact ⟨s.inverse.apply a, s.inverse.apply_lt_of_isBijectiveOn h he' ha,
      s.apply_inverse_apply h a⟩

/-- A swizzle that `make` accepts is undone by its inverse from either side, is the inverse of
its inverse, changes only the bits of its field, and permutes every range it maps onto
itself. -/
theorem make_apply_perm {kind : SwizzleKind} {bits base shift : Nat} {s : Swizzle}
    (hs : make kind bits base shift = .ok s) :
    (∀ x, s.inverse.apply (s.apply x) = x) ∧ (∀ x, s.apply (s.inverse.apply x) = x) ∧
    s.inverse.inverse = s ∧
    (∀ x, s.apply x % 2 ^ s.base = x % 2 ^ s.base ∧ s.apply x / s.span = x / s.span) ∧
    ∀ extent, s.isBijectiveOn extent = true →
      ((List.range extent).map s.apply).Perm (List.range extent) := by
  have h : s.bits ≤ s.shift := by
    unfold make at hs
    split at hs
    · cases hs
    · cases hs; simp only; omega
  exact ⟨s.inverse_apply_apply h, s.apply_inverse_apply h, s.inverse_inverse,
    fun x => ⟨(s.apply_parts h x).1, (s.apply_parts h x).2.2.1⟩,
    fun _ he => s.range_perm h he⟩

/-- The swizzle `xor(bits=2, base=3, shift=3)` is accepted, and so permutes offsets. -/
theorem make_apply_perm_xor_two :
    make .xor 2 3 3 = .ok ⟨.xor, 2, 3, 3⟩ ∧
    (∀ x, Swizzle.apply (Swizzle.inverse ⟨.xor, 2, 3, 3⟩) (Swizzle.apply ⟨.xor, 2, 3, 3⟩ x) = x) ∧
    (∀ x, Swizzle.apply ⟨.xor, 2, 3, 3⟩ (Swizzle.apply (Swizzle.inverse ⟨.xor, 2, 3, 3⟩) x) = x) ∧
    Swizzle.inverse (Swizzle.inverse ⟨.xor, 2, 3, 3⟩) = ⟨.xor, 2, 3, 3⟩ ∧
    (∀ x, Swizzle.apply ⟨.xor, 2, 3, 3⟩ x % 2 ^ 3 = x % 2 ^ 3 ∧
      Swizzle.apply ⟨.xor, 2, 3, 3⟩ x / Swizzle.span ⟨.xor, 2, 3, 3⟩ =
        x / Swizzle.span ⟨.xor, 2, 3, 3⟩) ∧
    ∀ extent, Swizzle.isBijectiveOn ⟨.xor, 2, 3, 3⟩ extent = true →
      ((List.range extent).map (Swizzle.apply ⟨.xor, 2, 3, 3⟩)).Perm (List.range extent) :=
  ⟨rfl, @make_apply_perm .xor 2 3 3 ⟨.xor, 2, 3, 3⟩ rfl⟩

end Swizzle
end TileKernel
