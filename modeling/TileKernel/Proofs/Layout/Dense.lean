import Mathlib.Algebra.Order.BigOperators.GroupWithZero.List
import Mathlib.Algebra.BigOperators.Group.List.Basic
import Mathlib.Data.List.Perm.Subperm
import Mathlib.Data.List.Forall2
import Mathlib.Algebra.Order.Ring.Nat
import TileKernel.Layout.Dense

/-!
# Dense layouts are bijections

A dense layout whose order lists every dimension once, over positive extents whose product fits
in a 64-bit count (`DenseLayout.Fits`), computes its strides and its extent without a fault, and
then `offset` and `indexOf` are inverse bijections between the in-range indices and the offsets
below the extent (`DenseLayout.Fits.offset_indexOf`).

The strides are mixed-radix place values: the stride of a dimension is the number of elements the
dimensions nested inside it span (`StridesOf`). An offset is then the mixed-radix number whose
digits are the index read in the order (`encode`), and `indexOf` peels those digits off with
division and remainder, outermost first (`foldl_decode_encode`, `foldl_encode_decode`): each
digit and the rest are a quotient and a remainder, which `radix_compose` and `radix_split` relate
to the number they make. The last dimension of the order spans nothing inside it, so its stride
is 1.

Row-major, column-major, every order `allOrders` lists and every order `withOrder` accepts list
each dimension once (`Built.perm`). The bound is needed: the strides and the extent are running
64-bit products, and a layout of `2 ^ 64` elements or more faults.
-/

set_option autoImplicit false

namespace TileKernel

/-! ### Quotients and remainders -/

/-- A quotient below `m` and a remainder below `n` make a number below `m * n`, whose quotient and
remainder by `n` they are. -/
theorem radix_compose {m n q r : Nat} (hq : q < m) (hr : r < n) :
    q * n + r < m * n ∧ (q * n + r) / n = q ∧ (q * n + r) % n = r := by
  have hn : 0 < n := Nat.lt_of_le_of_lt (Nat.zero_le r) hr
  refine ⟨?_, ?_, ?_⟩
  · calc q * n + r < q * n + n := Nat.add_lt_add_left hr _
      _ = (q + 1) * n := (Nat.succ_mul q n).symm
      _ ≤ m * n := Nat.mul_le_mul_right n hq
  · rw [Nat.mul_comm, Nat.mul_add_div hn, Nat.div_eq_of_lt hr, Nat.add_zero]
  · rw [Nat.mul_comm, Nat.mul_add_mod, Nat.mod_eq_of_lt hr]

/-- A number below `m * n` has a quotient by `n` below `m` and a remainder below `n`, which make
it. -/
theorem radix_split {m n x : Nat} (hx : x < m * n) :
    x / n < m ∧ x % n < n ∧ x / n * n + x % n = x := by
  have hn : 0 < n := Nat.pos_of_ne_zero fun e => by simp [e] at hx
  exact ⟨Nat.div_lt_of_lt_mul (by rwa [Nat.mul_comm]), Nat.mod_lt x hn, Nat.div_add_mod' x n⟩

/-! ### Checked products -/

namespace Word

/-- A product that fits is computed. -/
theorem mul_eq_ok {w : Word} {a b : Nat} (h : a * b < w.bound) : w.mul a b = .ok (a * b) := by
  simp [mul, fit, h]

/-- A running product of positive factors faults only when the whole product does not fit: each
partial product is at most the whole. -/
theorem foldlM_mul_eq_ok {w : Word} : ∀ {xs : List Nat} {a : Nat}, (∀ x ∈ xs, 0 < x) →
    a * xs.prod < w.bound → xs.foldlM w.mul a = .ok (a * xs.prod)
  | [], a, _, _ => by
    rw [List.foldlM_nil, List.prod_nil, Nat.mul_one]
    rfl
  | x :: xs, a, hz, h => by
    have hrest : 0 < xs.prod := List.prod_pos fun y hy => hz y (List.mem_cons_of_mem x hy)
    have hstep : a * x < w.bound := calc
      a * x ≤ a * x * xs.prod := Nat.le_mul_of_pos_right _ hrest
      _ = a * (x :: xs).prod := by rw [List.prod_cons, Nat.mul_assoc]
      _ < w.bound := h
    rw [List.foldlM_cons, mul_eq_ok hstep, List.prod_cons, ← Nat.mul_assoc]
    exact foldlM_mul_eq_ok (fun y hy => hz y (List.mem_cons_of_mem x hy))
      (by rwa [Nat.mul_assoc, ← List.prod_cons])

/-- The product of positive factors that fits is computed. -/
theorem product_eq_ok {w : Word} {xs : List Nat} (hz : ∀ x ∈ xs, 0 < x) (h : xs.prod < w.bound) :
    w.product xs = .ok xs.prod := by
  simpa [product] using foldlM_mul_eq_ok (a := 1) hz (by simpa using h)

end Word

theorem Shape.elements_eq_prod (s : Shape) : s.elements = s.prod :=
  List.prod_eq_foldl.symm

/-- The element count of positive extents whose product fits is computed. -/
theorem Shape.count_eq_ok {s : Shape} (hz : ∀ n ∈ s, 0 < n) (h : s.elements < Word.u64.bound) :
    s.count = .ok s.elements := by
  rw [Shape.elements_eq_prod] at h ⊢
  exact Word.product_eq_ok hz h

namespace DenseLayout

/-! ### Place values -/

/-- The number of elements the dimensions `L` of `s` span: the product of their extents. -/
def span (s : Shape) (L : List Nat) : Nat := (L.map fun x => s[x]?.getD 0).prod

@[simp] theorem span_nil (s : Shape) : span s [] = 1 := rfl

@[simp] theorem span_cons (s : Shape) (x : Nat) (L : List Nat) :
    span s (x :: L) = s[x]?.getD 0 * span s L := List.prod_cons

theorem span_perm (s : Shape) {L L' : List Nat} (h : L.Perm L') : span s L = span s L' :=
  (h.map _).prod_eq

/-- All the dimensions together span the elements of the shape. -/
theorem span_range (s : Shape) : span s (List.range s.length) = s.elements := by
  have : (List.range s.length).map (fun x => s[x]?.getD 0) = s :=
    List.ext_getElem (by simp) fun i h₁ h₂ => by simp_all
  rw [span, this, Shape.elements_eq_prod]

/-- The strides of the order `L`, indexed by dimension: each dimension of `L` gets the span of
the dimensions after it, every other dimension 0. -/
def stridesAlong (s : Shape) : List Nat → List Nat
  | [] => List.replicate s.length 0
  | x :: xs => (stridesAlong s xs).set x (span s xs)

@[simp] theorem length_stridesAlong (s : Shape) (L : List Nat) :
    (stridesAlong s L).length = s.length := by
  induction L with
  | nil => simp [stridesAlong]
  | cons x xs ih => simp [stridesAlong, ih]

theorem stridesAlong_of_not_mem {s : Shape} {y : Nat} (hy : y < s.length) :
    ∀ {L : List Nat}, y ∉ L → (stridesAlong s L)[y]? = some 0
  | [], _ => by simp [stridesAlong, hy]
  | x :: xs, h => by
    rw [List.mem_cons, not_or] at h
    rw [stridesAlong, List.getElem?_set_ne (Ne.symm h.1)]
    exact stridesAlong_of_not_mem hy h.2

/-- `σ` gives each dimension of the order `L` the span of the dimensions after it. -/
def StridesOf (s : Shape) (σ : Nat → Nat) : List Nat → Prop
  | [] => True
  | x :: xs => σ x = span s xs ∧ StridesOf s σ xs

theorem StridesOf.congr {s : Shape} {σ τ : Nat → Nat} :
    ∀ {L : List Nat}, StridesOf s σ L → (∀ y ∈ L, σ y = τ y) → StridesOf s τ L
  | [], _, _ => trivial
  | x :: _, ⟨hx, h⟩, he =>
    ⟨(he x List.mem_cons_self).symm.trans hx, h.congr fun y hy => he y (List.mem_cons_of_mem x hy)⟩

/-- The innermost dimension of an order spans nothing inside it: its stride is 1. -/
theorem StridesOf.getLast {s : Shape} {σ : Nat → Nat} :
    ∀ {L : List Nat} (hL : L ≠ []), StridesOf s σ L → σ (L.getLast hL) = 1
  | [_], _, ⟨hx, _⟩ => hx
  | _ :: y :: ys, _, ⟨_, h⟩ => by
    rw [List.getLast_cons (List.cons_ne_nil y ys)]
    exact StridesOf.getLast _ h

/-- Along an order that names dimensions of the shape once each, `stridesAlong` gives the place
values. -/
theorem stridesOf_stridesAlong {s : Shape} : ∀ {L : List Nat}, L.Nodup → (∀ x ∈ L, x < s.length) →
    StridesOf s (fun y => (stridesAlong s L)[y]?.getD 0) L
  | [], _, _ => trivial
  | x :: xs, hn, hr => by
    obtain ⟨hx, hn⟩ := List.nodup_cons.1 hn
    refine ⟨by simp [stridesAlong, hr x List.mem_cons_self], ?_⟩
    -- Setting the stride of `x` leaves those of the dimensions after it.
    refine (stridesOf_stridesAlong hn fun y hy => hr y (List.mem_cons_of_mem x hy)).congr
      fun y hy => ?_
    have hxy : x ≠ y := fun e => hx (e ▸ hy)
    simp [stridesAlong, List.getElem?_set_ne hxy]

/-! ### Offsets -/

/-- The dot product of an index with strides, over the positions both have. -/
def dot : List Nat → List Nat → Nat
  | [], _ => 0
  | _ :: _, [] => 0
  | i :: is, v :: vs => i * v + dot is vs

/-- The offset fold of a layout is the dot product. -/
theorem foldl_zip_eq_dot {f : Nat → Nat × Nat → Nat} (hf : ∀ a i v, f a (i, v) = a + i * v) :
    ∀ (idx vs : List Nat) (a : Nat), (idx.zip vs).foldl f a = a + dot idx vs
  | [], _, a => by simp [dot]
  | _ :: _, [], a => by simp [dot]
  | i :: is, v :: vs, a => by
    rw [List.zip_cons_cons, List.foldl_cons, hf, foldl_zip_eq_dot hf is vs, dot, Nat.add_assoc]

theorem dot_replicate_zero : ∀ (idx : List Nat) (n : Nat), dot idx (List.replicate n 0) = 0
  | [], _ => rfl
  | _ :: _, 0 => rfl
  | _ :: is, n + 1 => by rw [List.replicate_succ, dot, dot_replicate_zero is n, Nat.mul_zero]

/-- Setting a zero stride to `c` adds the index's entry times `c`. -/
theorem dot_set (c : Nat) : ∀ {idx vs : List Nat} {x : Nat}, vs[x]? = some 0 →
    dot idx (vs.set x c) = dot idx vs + idx[x]?.getD 0 * c
  | [], _, _, _ => by simp [dot]
  | _ :: _, [], _, h => by simp at h
  | i :: is, v :: vs, 0, h => by
    obtain rfl : v = 0 := by simpa using h
    simp [dot, Nat.add_comm]
  | i :: is, v :: vs, x + 1, h => by
    rw [List.set_cons_succ, dot, dot, dot_set c (by simpa using h)]
    simp [Nat.add_assoc]

/-- The value of the index `idx` in the mixed radix of the order `L`: its entry at each dimension
of `L` times the span of the dimensions after it. -/
def encode (s : Shape) (idx : List Nat) : List Nat → Nat
  | [] => 0
  | x :: xs => idx[x]?.getD 0 * span s xs + encode s idx xs

/-- Along an order that names dimensions once each, the dot product with the strides is the
mixed-radix value. -/
theorem dot_stridesAlong {s : Shape} {idx : List Nat} : ∀ {L : List Nat}, L.Nodup →
    (∀ x ∈ L, x < s.length) → dot idx (stridesAlong s L) = encode s idx L
  | [], _, _ => dot_replicate_zero idx _
  | x :: xs, hn, hr => by
    obtain ⟨hx, hn⟩ := List.nodup_cons.1 hn
    rw [stridesAlong, dot_set _ (stridesAlong_of_not_mem (hr x List.mem_cons_self) hx),
      dot_stridesAlong hn fun y hy => hr y (List.mem_cons_of_mem x hy), encode, Nat.add_comm]

/-- Digits below their radices make a value below the span. -/
theorem encode_lt {s : Shape} {idx : List Nat} : ∀ {L : List Nat},
    (∀ x ∈ L, idx[x]?.getD 0 < s[x]?.getD 0) → encode s idx L < span s L
  | [], _ => Nat.zero_lt_one
  | x :: xs, hb => by
    have ih := encode_lt (L := xs) fun y hy => hb y (List.mem_cons_of_mem x hy)
    rw [encode, span_cons]
    exact (radix_compose (hb x List.mem_cons_self) ih).1

/-! ### Decoding -/

/-- One step of `indexOf`: the digit of dimension `dim` is the quotient of the rest by its
stride, and the remainder goes on. -/
def decodeStep (σ : Nat → Nat) (acc : List Nat × Nat) (dim : Nat) : List Nat × Nat :=
  (acc.1.set dim (acc.2 / σ dim), acc.2 % σ dim)

@[simp] theorem length_foldl_decodeStep (σ : Nat → Nat) :
    ∀ (L : List Nat) (acc : List Nat × Nat), (L.foldl (decodeStep σ) acc).1.length = acc.1.length
  | [], _ => rfl
  | x :: xs, acc => by
    rw [List.foldl_cons, length_foldl_decodeStep σ xs, decodeStep, List.length_set]

section Decode

variable {s : Shape} {σ : Nat → Nat}

/-- Decoding the value of an index with digits below their radices writes the index's entries at
the dimensions of the order and leaves the other entries. -/
theorem foldl_decode_encode {idx : List Nat} : ∀ {L : List Nat} (acc : List Nat), StridesOf s σ L →
    L.Nodup →
    (∀ x ∈ L, idx[x]?.getD 0 < s[x]?.getD 0) → (∀ x ∈ L, x < acc.length) → ∀ y,
      (L.foldl (decodeStep σ) (acc, encode s idx L)).1[y]? =
        if y ∈ L then some (idx[y]?.getD 0) else acc[y]?
  | [], _, _, _, _, _, _ => by simp
  | x :: xs, acc, ⟨hσ, hs⟩, hn, hb, hl, y => by
    obtain ⟨hx, hn⟩ := List.nodup_cons.1 hn
    have hbs : ∀ z ∈ xs, idx[z]?.getD 0 < s[z]?.getD 0 :=
      fun z hz => hb z (List.mem_cons_of_mem x hz)
    -- The outermost digit is the quotient, and the rest is the value of the other digits.
    obtain ⟨-, hdiv, hmod⟩ := radix_compose (hb x List.mem_cons_self) (encode_lt hbs)
    have first : decodeStep σ (acc, encode s idx (x :: xs)) x =
        (acc.set x (idx[x]?.getD 0), encode s idx xs) := by
      simp only [decodeStep, hσ, encode, hdiv, hmod]
    have hxl : x < acc.length := hl x List.mem_cons_self
    rw [List.foldl_cons, first, foldl_decode_encode _ hs hn hbs
      (fun z hz => by simpa using hl z (List.mem_cons_of_mem x hz)) y]
    by_cases hyx : y = x
    · subst hyx
      simp [hx, hxl]
    · simp [hyx, List.getElem?_set_ne (Ne.symm hyx)]

/-- Decoding an offset below the span gives digits below their radices whose value is the offset,
and leaves the entries of the other dimensions. -/
theorem foldl_encode_decode : ∀ {L : List Nat} (acc : List Nat) {off : Nat}, StridesOf s σ L →
    L.Nodup →
    (∀ x ∈ L, x < acc.length) → off < span s L →
      encode s (L.foldl (decodeStep σ) (acc, off)).1 L = off ∧
      (∀ x ∈ L, (L.foldl (decodeStep σ) (acc, off)).1[x]?.getD 0 < s[x]?.getD 0) ∧
      ∀ y ∉ L, (L.foldl (decodeStep σ) (acc, off)).1[y]? = acc[y]?
  | [], _, off, _, _, _, h => by
    obtain rfl : off = 0 := by simpa using h
    simp [encode]
  | x :: xs, acc, off, ⟨hσ, hs⟩, hn, hl, h => by
    obtain ⟨hx, hn⟩ := List.nodup_cons.1 hn
    rw [span_cons] at h
    obtain ⟨hq, hr, hoff⟩ := radix_split h
    have hxl : x < acc.length := hl x List.mem_cons_self
    rw [List.foldl_cons, decodeStep, hσ]
    -- The tail decodes the remainder, after the quotient is written at `x`.
    obtain ⟨henc, hbound, hrest⟩ := foldl_encode_decode (acc.set x (off / span s xs)) hs hn
      (fun z hz => by simpa using hl z (List.mem_cons_of_mem x hz)) hr
    have hrx := hrest x hx
    rw [List.getElem?_set_self hxl] at hrx
    refine ⟨?_, fun z hz => ?_, fun y hy => ?_⟩
    · rw [encode, hrx, Option.getD_some, henc, hoff]
    · rcases List.mem_cons.1 hz with rfl | hz
      · rwa [hrx, Option.getD_some]
      · exact hbound z hz
    · rw [List.mem_cons, not_or] at hy
      rw [hrest y hy.2, List.getElem?_set_ne (Ne.symm hy.1)]

end Decode

/-! ### Layouts that fit -/

/-- The in-range indices of a shape: one entry per dimension, each below its extent. -/
theorem forall₂_lt_iff {idx s : List Nat} : List.Forall₂ (· < ·) idx s ↔
    idx.length = s.length ∧ ∀ x < s.length, idx[x]?.getD 0 < s[x]?.getD 0 := by
  rw [List.forall₂_iff_get]
  refine ⟨fun ⟨hl, h⟩ => ⟨hl, fun x hx => ?_⟩, fun ⟨hl, h⟩ => ⟨hl, fun x h₁ h₂ => ?_⟩⟩
  · have := h x (hl ▸ hx) hx
    simp_all
  · have := h x h₂
    simp_all

/-- A layout whose order lists each dimension once, over positive extents whose product fits in a
64-bit count. -/
structure Fits (d : DenseLayout) : Prop where
  perm : d.order.Perm (List.range d.shape.length)
  pos : ∀ n ∈ d.shape, 0 < n
  fits : d.shape.elements < Word.u64.bound

namespace Fits

variable {d : DenseLayout} (h : d.Fits)
include h

theorem nodup : d.order.Nodup := h.perm.nodup_iff.2 List.nodup_range

theorem lt_of_mem {x : Nat} (hx : x ∈ d.order) : x < d.shape.length :=
  List.mem_range.1 (h.perm.subset hx)

theorem mem_of_lt {y : Nat} (hy : y < d.shape.length) : y ∈ d.order :=
  h.perm.symm.subset (List.mem_range.2 hy)

theorem span_order : span d.shape d.order = d.shape.elements := by
  rw [span_perm _ h.perm, span_range]

theorem extent_pos {x : Nat} (hx : x ∈ d.order) : 0 < d.shape[x]?.getD 0 := by
  have hr := h.lt_of_mem hx
  simpa [hr] using h.pos _ (List.getElem_mem hr)

theorem extent : d.extent = .ok d.shape.elements :=
  Shape.count_eq_ok h.pos h.fits

/-- The strides compute: the running product never exceeds the element count. -/
theorem strides : d.strides = .ok (stridesAlong d.shape d.order) := by
  have hz : ∀ x ∈ d.order, 0 < d.shape[x]?.getD 0 := fun _ => h.extent_pos
  have hfit : span d.shape d.order < Word.u64.bound := h.span_order ▸ h.fits
  unfold DenseLayout.strides
  dsimp only
  rw [List.foldlM_reverse]
  -- The fold runs over the order from the innermost dimension out.
  suffices run : ∀ {L : List Nat}, (∀ x ∈ L, 0 < d.shape[x]?.getD 0) →
      span d.shape L < Word.u64.bound →
      L.foldrM (fun x acc => do
        let next ← Word.u64.mul acc.2 (d.shape[x]?.getD 0)
        pure (acc.1.set x acc.2, next)) (List.replicate d.shape.length 0, 1) =
        .ok (stridesAlong d.shape L, span d.shape L) by
    rw [run hz hfit]
    rfl
  intro L
  induction L with
  | nil => intro _ _; rfl
  | cons x xs ih =>
    intro hz hfit
    have hx := hz x List.mem_cons_self
    rw [span_cons] at hfit
    have hxs : span d.shape xs < Word.u64.bound :=
      Nat.lt_of_le_of_lt (Nat.le_mul_of_pos_left _ hx) hfit
    rw [List.foldrM_cons, ih (fun y hy => hz y (List.mem_cons_of_mem x hy)) hxs]
    show (Word.u64.mul _ _ >>= _) = _
    rw [Word.mul_eq_ok (by rwa [Nat.mul_comm]), stridesAlong, span_cons, Nat.mul_comm]
    rfl

theorem stridesOf :
    StridesOf d.shape (fun y => (stridesAlong d.shape d.order)[y]?.getD 0) d.order :=
  stridesOf_stridesAlong h.nodup fun _ => h.lt_of_mem

/-- The offset of an index is its mixed-radix value when it is in range, and none otherwise. -/
theorem offset_eq (idx : List Nat) : d.offset idx =
    .ok (if List.Forall₂ (· < ·) idx d.shape then some (encode d.shape idx d.order) else none) := by
  unfold DenseLayout.offset
  by_cases hl : idx.length = d.shape.length
  · -- The rank is right: the strides compute, and the range check is `Forall₂`.
    have hall : ((idx.zip d.shape).all fun x => decide (x.1 < x.2)) = true ↔
        List.Forall₂ (· < ·) idx d.shape := by
      simp [List.forall₂_iff_zip, hl]
    simp only [hl, ne_eq, not_true_eq_false, if_false, h.strides, bind, Except.bind, hall]
    rw [foldl_zip_eq_dot (fun _ _ _ => rfl), Nat.zero_add,
      dot_stridesAlong h.nodup fun _ => h.lt_of_mem]
    split <;> rfl
  · have hin : ¬ List.Forall₂ (· < ·) idx d.shape := fun e => hl e.length_eq
    rw [if_neg hin, if_pos hl]
    rfl

/-- The index at an offset below the extent is what the digits of the offset decode to. -/
theorem indexOf_eq (off : Nat) : d.indexOf off =
    .ok (if d.shape.elements ≤ off then none else some (d.order.foldl
      (decodeStep fun y => (stridesAlong d.shape d.order)[y]?.getD 0)
      (List.replicate d.shape.length 0, off)).1) := by
  unfold DenseLayout.indexOf
  simp only [h.extent, h.strides, bind, Except.bind]
  split <;> rfl

/-- An in-range index has an offset below the extent. -/
theorem offset_of_forall₂ {idx : List Nat} (hin : List.Forall₂ (· < ·) idx d.shape) :
    d.offset idx = .ok (some (encode d.shape idx d.order)) ∧
      encode d.shape idx d.order < d.shape.elements := by
  refine ⟨by rw [h.offset_eq, if_pos hin], h.span_order ▸ encode_lt fun x hx => ?_⟩
  exact (forall₂_lt_iff.1 hin).2 x (h.lt_of_mem hx)

/-- The offset of an in-range index decodes back to it. -/
theorem indexOf_encode {idx : List Nat} (hin : List.Forall₂ (· < ·) idx d.shape) :
    d.indexOf (encode d.shape idx d.order) = .ok (some idx) := by
  obtain ⟨hlen, hb⟩ := forall₂_lt_iff.1 hin
  rw [h.indexOf_eq, if_neg (Nat.not_le_of_lt (h.offset_of_forall₂ hin).2)]
  congr 2
  have decoded := foldl_decode_encode (List.replicate d.shape.length 0) h.stridesOf h.nodup
    (fun x hx => hb x (h.lt_of_mem hx)) (fun x hx => by simpa using h.lt_of_mem hx)
  -- Every dimension is in the order, so every entry is the index's.
  refine List.ext_getElem? fun y => ?_
  rw [decoded y]
  by_cases hy : y < d.shape.length
  · simp [h.mem_of_lt hy, hlen ▸ hy]
  · have hy' : y ∉ d.order := fun hm => hy (h.lt_of_mem hm)
    simp [hy', hlen, Nat.le_of_not_lt hy]

/-- An offset below the extent decodes to an in-range index whose offset it is. -/
theorem indexOf_of_lt {off : Nat} (ho : off < d.shape.elements) : ∃ idx,
    d.indexOf off = .ok (some idx) ∧ List.Forall₂ (· < ·) idx d.shape ∧
      encode d.shape idx d.order = off := by
  rw [h.indexOf_eq, if_neg (Nat.not_le_of_lt ho)]
  obtain ⟨henc, hbound, -⟩ := foldl_encode_decode (List.replicate d.shape.length 0) h.stridesOf
    h.nodup (fun x hx => by simpa using h.lt_of_mem hx)
    (h.span_order ▸ ho)
  refine ⟨_, rfl, forall₂_lt_iff.2 ⟨?_, fun x hx => hbound x (h.mem_of_lt hx)⟩, henc⟩
  simp

/-- **Dense layouts are bijections.** For a layout that fits: the extent is the element count;
`offset` sends exactly the in-range indices to offsets, below the extent; `indexOf` answers exactly
the offsets below the extent; the two invert each other; and the innermost dimension of a
non-empty shape has stride 1. -/
theorem offset_indexOf :
    d.extent = .ok d.shape.elements ∧
    (∀ idx, List.Forall₂ (· < ·) idx d.shape →
      ∃ o < d.shape.elements, d.offset idx = .ok (some o)) ∧
    (∀ idx, ¬ List.Forall₂ (· < ·) idx d.shape → d.offset idx = .ok none) ∧
    (∀ o, o < d.shape.elements → ∃ idx, d.indexOf o = .ok (some idx)) ∧
    (∀ o, d.shape.elements ≤ o → d.indexOf o = .ok none) ∧
    (∀ o idx, d.indexOf o = .ok (some idx) ↔ d.offset idx = .ok (some o)) ∧
    (d.shape ≠ [] → ∃ st, d.strides = .ok st ∧ st[d.innermost]? = some 1) := by
  refine ⟨h.extent, fun idx hin => ?_, fun idx hin => ?_, fun o ho => ?_, fun o ho => ?_,
    fun o idx => ⟨fun hi => ?_, fun ho => ?_⟩, fun hs => ?_⟩
  · obtain ⟨hoff, hlt⟩ := h.offset_of_forall₂ hin
    exact ⟨_, hlt, hoff⟩
  · rw [h.offset_eq, if_neg hin]
  · obtain ⟨idx, hi, -⟩ := h.indexOf_of_lt ho
    exact ⟨idx, hi⟩
  · rw [h.indexOf_eq, if_pos ho]
  · -- Only offsets below the extent decode, and they decode to an index of that offset.
    have ho : o < d.shape.elements := by
      by_contra hle
      rw [h.indexOf_eq, if_pos (Nat.le_of_not_lt hle)] at hi
      cases hi
    obtain ⟨idx', hi', hin, rfl⟩ := h.indexOf_of_lt ho
    obtain rfl : idx' = idx := by simpa [hi'] using hi
    exact (h.offset_of_forall₂ hin).1
  · -- Only in-range indices have offsets, and their offsets decode back.
    rw [h.offset_eq] at ho
    by_cases hin : List.Forall₂ (· < ·) idx d.shape
    · rw [if_pos hin] at ho
      obtain rfl : encode d.shape idx d.order = o := by simpa using ho
      exact h.indexOf_encode hin
    · rw [if_neg hin] at ho
      cases ho
  · -- The innermost dimension is the last of the order, whose stride is 1.
    have hne : d.order ≠ [] := fun e => hs (List.length_eq_zero_iff.1 (by
      simpa [e] using h.perm.length_eq.symm))
    have hlast := h.stridesOf.getLast hne
    have hr : d.order.getLast hne < (stridesAlong d.shape d.order).length := by
      simpa using h.lt_of_mem (List.getLast_mem hne)
    refine ⟨_, h.strides, ?_⟩
    rw [List.getElem?_eq_getElem hr, Option.getD_some] at hlast
    rw [innermost, List.getLast?_eq_some_getLast hne, Option.getD_some,
      List.getElem?_eq_getElem hr, hlast]

end Fits

/-! ### The built layouts -/

/-- Every ordering of a list is a permutation of it. -/
theorem perm_of_mem_orderings : ∀ {xs l : List Nat}, l ∈ orderings xs → l.Perm xs := by
  intro xs
  induction xs using orderings.induct with
  | case1 =>
    intro l hl
    rw [orderings] at hl
    simp_all
  | case2 xs hne ih =>
    intro l hl
    rw [orderings, if_neg hne] at hl
    obtain ⟨⟨x, hx⟩, -, hl⟩ := List.mem_flatMap.1 hl
    obtain ⟨l', hl', rfl⟩ := List.mem_map.1 hl
    exact ((ih x hx hl').cons x).trans (List.perm_cons_erase hx).symm

/-- The layouts the constructors build over a shape. -/
inductive Built (s : Shape) : DenseLayout → Prop
  | rowMajor : Built s (rowMajor s)
  | colMajor : Built s (colMajor s)
  | listed {d : DenseLayout} : d ∈ allOrders s → Built s d
  | ordered {order : List Nat} {d : DenseLayout} : withOrder s order = .ok d → Built s d

/-- A built layout is over its shape and lists each dimension once. -/
theorem Built.perm {s : Shape} {d : DenseLayout} (h : Built s d) :
    d.shape = s ∧ d.order.Perm (List.range s.length) := by
  cases h with
  | rowMajor => exact ⟨rfl, .refl _⟩
  | colMajor => exact ⟨rfl, List.reverse_perm _⟩
  | listed hd =>
    unfold allOrders at hd
    dsimp only at hd
    split at hd
    · simp only [List.mem_cons, List.not_mem_nil, or_false] at hd
      rcases hd with rfl | rfl
      · exact ⟨rfl, .refl _⟩
      · exact ⟨rfl, List.reverse_perm _⟩
    · obtain ⟨order, ho, rfl⟩ := List.mem_map.1 hd
      exact ⟨rfl, perm_of_mem_orderings ho⟩
  | ordered hd =>
    unfold withOrder at hd
    split at hd
    · cases hd
    · next hlen =>
      split at hd
      · next hok =>
        cases hd
        simp only [Bool.and_eq_true, List.all_eq_true, decide_eq_true_eq] at hok
        refine ⟨rfl, (hok.2.subperm fun x hx => List.mem_range.2 (hok.1 x hx)).perm_of_length_le ?_⟩
        simp_all
      · cases hd

/-- A built layout over positive extents whose product fits in a 64-bit count fits. -/
theorem Built.fits {s : Shape} {d : DenseLayout} (h : Built s d) (hz : ∀ n ∈ s, 0 < n)
    (hfit : s.elements < Word.u64.bound) : d.Fits := by
  obtain ⟨rfl, hp⟩ := h.perm
  exact ⟨hp, hz, hfit⟩

/-- Column-major `2 × 3`: dimension 0 has stride 1 and dimension 1 stride 2. -/
example : (colMajor [2, 3]).offset [1, 2] = .ok (some 5) ∧
    (colMajor [2, 3]).indexOf 5 = .ok (some [1, 2]) := ⟨rfl, rfl⟩

end DenseLayout

end TileKernel
