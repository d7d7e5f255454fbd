import TileKernel.Proofs.CopyInsertion
import TileKernel.Proofs.Failure

/-!
# Type decoupling makes every conversion explicit

An elementwise op, a reduction or an atomic reads each input in its output's type, a product its
two factors in their promoted type (`readType`); `conversions` lists the inputs of another type
(`mem_conversions_iff`). Type decoupling visits the live ops once, and replaces every op with
conversions by the same op reading, for each converted input, a temporary that a cast fills just
before it.

Between two visits the kernel is described relative to the kernel the pass started from
(`Kernel.Decoupled`): every buffer there is kept as it was, and every live op is an op that was
live, left alone because it converts nothing once visited, a cast inserted for a conversion of a
visited op (`Kernel.CastFor`), or the replacement of one (`Kernel.ReplacementOf`). A cast writes
a temporary declared for it (`Kernel.TempOf`). Decoupling one op is the step
(`decouple_describes`); the run follows by induction along the live ops.

The pass leaves no conversion behind, since a replacement reads each converted input in the type
it is read in, so a second run changes nothing; and it fails with an implicit conversion only
while it plans the temporaries, before it edits anything.
-/

set_option autoImplicit false

namespace TileKernel

/-! ### What an op reads in one type -/

theorem Scalar.promote_self (s : Scalar) : s.promote s = s := by
  unfold Scalar.promote
  split <;> simp

/-- The type an op reads the inputs it converts in: its output's type for an elementwise op, a
reduction or an atomic, the promoted type of the two factors for a product; none for the other
kinds, which read inputs of any type. -/
def readType (k : Kernel) (op : TileOp) : Option Scalar :=
  match op.kind with
  | .elementwise _ | .reduce .. | .atomic .. =>
    op.outputs.head?.map fun out => (k.buffer out.buffer).dtype
  | .gemm _ =>
    match op.inputs with
    | a :: b :: _ => some ((k.buffer a.buffer).dtype.promote (k.buffer b.buffer).dtype)
    | _ => none
  | _ => none

/-- Whether an op of the kind reads its input at position `j` in its read type: every input of
an elementwise op, a reduction or an atomic, the two factors of a product. -/
def OpKind.converts : OpKind → Nat → Prop
  | .elementwise _, _ | .reduce .., _ | .atomic .., _ => True
  | .gemm _, j => j < 2
  | _, _ => False

/-- Every input the op reads in its read type already has that type. -/
def ReadsInOneType (k : Kernel) (op : TileOp) : Prop :=
  ∀ t, readType k op = some t → ∀ j o, op.kind.converts j → op.inputs[j]? = some o →
    (k.buffer o.buffer).dtype = t

section Conversions

variable {k k' : Kernel} {op : TileOp}

/-- The conversions of an op are the inputs it reads in its read type that have another type. -/
theorem mem_conversions_iff {c : Nat × Operand × Scalar} :
    c ∈ conversions k op ↔ readType k op = some c.2.2 ∧ op.kind.converts c.1 ∧
      op.inputs[c.1]? = some c.2.1 ∧ (k.buffer c.2.1.buffer).dtype ≠ c.2.2 := by
  obtain ⟨i, o, t⟩ := c
  obtain ⟨name, kind, inputs, outputs, deps, sched⟩ := op
  cases kind <;> simp only [conversions, readType, OpKind.converts]
  case copy | fill | cast | barrier => simp
  case elementwise | reduce | atomic =>
    cases outputs with
    | nil => simp
    | cons out rest =>
      simp only [List.mem_filterMap, List.mem_zipIdx_iff_getElem?, List.head?_cons, Option.map_some,
        Option.some.injEq]
      constructor
      · rintro ⟨⟨o', j⟩, hm, he⟩
        split at he
        · cases he
          rename_i hne
          exact ⟨rfl, trivial, hm, by simpa using hne⟩
        · cases he
      · rintro ⟨rfl, -, hm, hne⟩
        exact ⟨(o, i), hm, by simp [hne]⟩
  case gemm =>
    rcases inputs with _ | ⟨a, _ | ⟨b, r⟩⟩
    · simp
    · simp
    simp only [Option.some.injEq]
    by_cases same : (k.buffer a.buffer).dtype = (k.buffer b.buffer).dtype
    · -- Factors of one type convert to nothing: that type is their promotion.
      simp only [same, beq_self_eq_true, if_true, List.not_mem_nil, false_iff, Scalar.promote_self]
      rintro ⟨rfl, hi, hm, hne⟩
      obtain rfl | rfl : i = 0 ∨ i = 1 := by omega
      · simp_all
      · simp_all
    · simp only [beq_iff_eq, same, if_false, List.mem_filterMap, List.mem_cons, List.not_mem_nil,
        or_false]
      constructor
      · rintro ⟨_, rfl | rfl, he⟩ <;> split at he <;> cases he <;> rename_i hne <;>
          exact ⟨rfl, by simp, rfl, by simpa using hne⟩
      · rintro ⟨rfl, hi, hm, hne⟩
        obtain rfl | rfl : i = 0 ∨ i = 1 := by omega
        · obtain rfl : a = o := by simpa using hm
          exact ⟨(a, 0), .inl rfl, by simp [hne]⟩
        · obtain rfl : b = o := by simpa using hm
          exact ⟨(b, 1), .inr rfl, by simp [hne]⟩

/-- An op converts nothing exactly when it reads in one type. -/
theorem conversions_eq_nil_iff : conversions k op = [] ↔ ReadsInOneType k op := by
  rw [List.eq_nil_iff_forall_not_mem]
  constructor
  · intro h t ht j o hj hm
    by_contra hne
    exact h (j, o, t) (mem_conversions_iff.2 ⟨ht, hj, hm, hne⟩)
  · rintro h ⟨j, o, t⟩ hc
    obtain ⟨ht, hj, hm, hne⟩ := mem_conversions_iff.1 hc
    exact hne (h t ht j o hj hm)

/-- An op with a read type is an elementwise op, a reduction, an atomic or a product. -/
theorem readType_eq_some_kind {t : Scalar} (h : readType k op = some t) :
    op.kind.tag = .elementwise ∨ op.kind.tag = .reduce ∨ op.kind.tag = .atomic ∨
      op.kind.tag = .gemm := by
  unfold readType at h
  split at h <;> simp_all [OpKind.tag]

theorem conversions_detached : conversions k op.detached = conversions k op := rfl

theorem readType_detached : readType k op.detached = readType k op := rfl

/-- The read type and the conversions read, of the kernel, the types of the operands only. -/
theorem readType_congr (h : ∀ o ∈ op.operands, (k'.buffer o.buffer).dtype = (k.buffer o.buffer).dtype) :
    readType k' op = readType k op := by
  obtain ⟨name, kind, inputs, outputs, deps, sched⟩ := op
  simp only [TileOp.operands, List.mem_append] at h
  cases kind <;> simp only [readType]
  case elementwise | reduce | atomic =>
    cases outputs with
    | nil => rfl
    | cons out rest => simp [h out (.inr List.mem_cons_self)]
  case gemm =>
    rcases inputs with _ | ⟨a, _ | ⟨b, r⟩⟩
    · rfl
    · rfl
    simp [h a (.inl List.mem_cons_self), h b (.inl (by simp))]

theorem conversions_congr (h : ∀ o ∈ op.operands, (k'.buffer o.buffer).dtype = (k.buffer o.buffer).dtype) :
    conversions k' op = conversions k op := by
  obtain ⟨name, kind, inputs, outputs, deps, sched⟩ := op
  simp only [TileOp.operands, List.mem_append] at h
  cases kind <;> simp only [conversions]
  case elementwise | reduce | atomic =>
    cases outputs with
    | nil => rfl
    | cons out rest =>
      simp only [h out (.inr List.mem_cons_self)]
      exact List.filterMap_congr fun x hx => by
        rw [h x.1 (.inl (List.fst_mem_of_mem_zipIdx hx))]
  case gemm =>
    rcases inputs with _ | ⟨a, _ | ⟨b, r⟩⟩
    · rfl
    · rfl
    have ha := h a (.inl List.mem_cons_self)
    have hb := h b (.inl (by simp))
    simp only [ha, hb]
    congr 1
    refine List.filterMap_congr fun x hx => ?_
    simp only [List.mem_cons, List.not_mem_nil, or_false] at hx
    rcases hx with rfl | rfl <;> simp only [ha, hb]

end Conversions

theorem TileOp.detached_eq {a b : TileOp} (h : a.detached = b.detached) :
    a.name = b.name ∧ a.kind = b.kind ∧ a.inputs = b.inputs ∧ a.outputs = b.outputs := by
  simpa only [TileOp.detached, TileOp.mk.injEq, and_true] using h

/-! ### Buffers kept -/

namespace Kernel

variable {k k₁ k' : Kernel} {op : TileOp}

/-- Every buffer of `k` is a buffer of `k'`, unchanged. -/
structure KeepsBuffers (k k' : Kernel) : Prop where
  size : k.buffers.size ≤ k'.buffers.size
  buffer : ∀ b : BufferId, b.idx < k.buffers.size → k'.buffer b = k.buffer b

theorem KeepsBuffers.refl (k : Kernel) : k.KeepsBuffers k := ⟨Nat.le_refl _, fun _ _ => rfl⟩

theorem KeepsBuffers.trans (h₁ : k.KeepsBuffers k₁) (h₂ : k₁.KeepsBuffers k') : k.KeepsBuffers k' :=
  ⟨Nat.le_trans h₁.size h₂.size, fun b hb =>
    (h₂.buffer b (Nat.lt_of_lt_of_le hb h₁.size)).trans (h₁.buffer b hb)⟩

theorem keepsBuffers_of_eq (h : k'.buffers = k.buffers) : k.KeepsBuffers k' :=
  ⟨by rw [h], fun _ _ => by simp only [Kernel.buffer, buffer?, h]⟩

theorem keepsBuffers_push {b : Buffer} : k.KeepsBuffers { k with buffers := k.buffers.push b } :=
  ⟨by simp, fun x hx => by simp [Kernel.buffer, buffer?, Array.getElem?_push, Nat.ne_of_lt hx]⟩

/-- Editing a buffer declared since `k` keeps the buffers of `k`. -/
theorem KeepsBuffers.modifyBuffer (h : k.KeepsBuffers k₁) {b : BufferId} (hb : k.buffers.size ≤ b.idx)
    (F : Buffer → Buffer) : k.KeepsBuffers (k₁.modifyBuffer b F) := by
  refine ⟨by simpa [Kernel.modifyBuffer] using h.size, fun x hx => ?_⟩
  have hne : b.idx ≠ x.idx := by omega
  simp only [Kernel.buffer, buffer?, Kernel.modifyBuffer, Array.getElem?_modify, hne, if_false]
  exact h.buffer x hx

/-- Every operand of `op` names a buffer of `k`. -/
def HasOperands (k : Kernel) (op : TileOp) : Prop :=
  ∀ o ∈ op.operands, o.buffer.idx < k.buffers.size

theorem hasOperands_of_checkOperands (h : k.checkOperands op = .ok ()) : k.HasOperands op :=
  fun o ho => by
    obtain ⟨x, hx⟩ := buffer?_of_checkOperands h o ho
    exact (Array.getElem?_eq_some_iff.1 hx).1

/-- A live op of a formed kernel is an op of its arena. -/
theorem Formed.live_lt (hF : k.Formed) {y : OpId} (hy : y ∈ k.liveOps) : y.idx < k.ops.size :=
  hF.placedExist y (hF.liveOps_eq ▸ hy)

theorem Formed.hasOperands (hF : k.Formed) {y : OpId} (hy : y.idx < k.ops.size) :
    k.HasOperands (k.op y) :=
  hasOperands_of_checkOperands (hF.operandsChecked y hy)

/-- The inputs an op converts are buffers of a kernel holding its operands. -/
theorem HasOperands.conversion (hop : k.HasOperands op) {c : Nat × Operand × Scalar}
    (hc : c ∈ conversions k₁ op) : c.2.1.buffer.idx < k.buffers.size :=
  hop _ (List.mem_append_left _ (mem_conversions hc))

theorem KeepsBuffers.dtype (h : k.KeepsBuffers k') (hop : k.HasOperands op) :
    ∀ o ∈ op.operands, (k'.buffer o.buffer).dtype = (k.buffer o.buffer).dtype := fun o ho => by
  rw [h.buffer _ (hop o ho)]

/-- An op of `k` converts the same inputs, to the same types, in a kernel keeping its buffers
and its operands. -/
theorem KeepsBuffers.conversions_op (h : k.KeepsBuffers k₁) (ha : k.OpsAlike k₁) {x : OpId}
    (hx : x.idx < k.ops.size) (hop : k.HasOperands (k.op x)) :
    conversions k₁ (k₁.op x) = conversions k (k.op x) := by
  rw [← conversions_detached, ha.detached x hx, conversions_detached]
  exact conversions_congr (h.dtype hop)

theorem KeepsBuffers.readType_op (h : k.KeepsBuffers k₁) (ha : k.OpsAlike k₁) {x : OpId}
    (hx : x.idx < k.ops.size) (hop : k.HasOperands (k.op x)) :
    readType k₁ (k₁.op x) = readType k (k.op x) := by
  rw [← readType_detached, ha.detached x hx, readType_detached]
  exact readType_congr (h.dtype hop)

/-! ### What the pass adds -/

/-- Buffer `t` of `k'` is a temporary holding operand `o` of `k` in type `dtype`: declared since
`k` under a name no earlier buffer has, with the operand's tile shape, and laid out in the
source's dimension order over that tile, or as the source's fragment when the operand is the
whole fragment. -/
structure TempOf (k k' : Kernel) (o : Operand) (dtype : Scalar) (t : BufferId) : Prop where
  fresh : k.buffers.size ≤ t.idx
  declared : t.idx < k'.buffers.size
  unused : ∀ b : BufferId, b.idx < t.idx → (k'.buffer b).name ≠ (k'.buffer t).name
  shape : (k'.buffer t).shape = o.tileShape (k.buffer o.buffer).shape
  dtype : (k'.buffer t).dtype = dtype
  layout : (∃ d, (k.buffer o.buffer).layout = some (.dense d) ∧
      (k'.buffer t).layout = some (.dense ⟨o.tileShape (k.buffer o.buffer).shape, d.order⟩)) ∨
    ∃ f, (k.buffer o.buffer).layout = some (.fragment f) ∧ o.step = none ∧
      (k'.buffer t).layout = some (.fragment f)

/-- Op `y` of `k'` is a cast inserted for a conversion of op `x` of `k`: a fresh cast reading the
converted input as `x` reads it and writing the whole of a temporary of the target type. -/
structure CastFor (k k' : Kernel) (x y : OpId) : Prop where
  fresh : k.ops.size ≤ y.idx
  kind : (k'.op y).kind = .cast
  converts : ∃ i o dtype t, (i, o, dtype) ∈ conversions k (k.op x) ∧ (k'.op y).inputs = [o] ∧
    (k'.op y).outputs = [.whole t] ∧ k.TempOf k' o dtype t

/-- Op `y` of `k'` replaces op `x` of `k`, which had conversions: a fresh op of the same name,
kind and outputs, reading each converted input from a temporary of its target type and every
other input as `x` reads it. -/
structure ReplacementOf (k k' : Kernel) (x y : OpId) : Prop where
  fresh : k.ops.size ≤ y.idx
  converted : conversions k (k.op x) ≠ []
  name : (k'.op y).name = (k.op x).name
  kind : (k'.op y).kind = (k.op x).kind
  outputs : (k'.op y).outputs = (k.op x).outputs
  length : (k'.op y).inputs.length = (k.op x).inputs.length
  inputs : ∀ j o', (k'.op y).inputs[j]? = some o' →
    ((k.op x).inputs[j]? = some o' ∧ ∀ c ∈ conversions k (k.op x), c.1 ≠ j) ∨
      ∃ o dtype t, (j, o, dtype) ∈ conversions k (k.op x) ∧ o' = .whole t ∧ k.TempOf k' o dtype t

variable {o : Operand} {dtype : Scalar} {t : BufferId} {x y : OpId}

/-- Later edits that keep the buffers keep a temporary. -/
theorem TempOf.keeps (h : k.TempOf k₁ o dtype t) (hk : k₁.KeepsBuffers k') : k.TempOf k' o dtype t where
  fresh := h.fresh
  declared := Nat.lt_of_lt_of_le h.declared hk.size
  unused b hb := by
    rw [hk.buffer b (Nat.lt_trans hb h.declared), hk.buffer t h.declared]
    exact h.unused b hb
  shape := by rw [hk.buffer t h.declared]; exact h.shape
  dtype := by rw [hk.buffer t h.declared]; exact h.dtype
  layout := by rw [hk.buffer t h.declared]; exact h.layout

/-- A temporary declared since `k₁` is declared since an earlier kernel `k` holding its source. -/
theorem TempOf.rebase (hk : k.KeepsBuffers k₁) (ho : o.buffer.idx < k.buffers.size)
    (h : k₁.TempOf k' o dtype t) : k.TempOf k' o dtype t where
  fresh := Nat.le_trans hk.size h.fresh
  declared := h.declared
  unused := h.unused
  shape := by rw [h.shape, hk.buffer _ ho]
  dtype := h.dtype
  layout := by rw [← hk.buffer _ ho]; exact h.layout

theorem CastFor.keeps (h : k.CastFor k₁ x y) (hy : y.idx < k₁.ops.size) (ha : k₁.OpsAlike k')
    (hk : k₁.KeepsBuffers k') : k.CastFor k' x y := by
  obtain ⟨-, hkind, hin, hout⟩ := TileOp.detached_eq (ha.detached y hy)
  obtain ⟨i, o, d, t, hc, hi, ho, ht⟩ := h.converts
  exact ⟨h.fresh, hkind.trans h.kind, i, o, d, t, hc, hin.trans hi, hout.trans ho, ht.keeps hk⟩

theorem ReplacementOf.keeps (h : k.ReplacementOf k₁ x y) (hy : y.idx < k₁.ops.size)
    (ha : k₁.OpsAlike k') (hk : k₁.KeepsBuffers k') : k.ReplacementOf k' x y := by
  obtain ⟨hname, hkind, hin, hout⟩ := TileOp.detached_eq (ha.detached y hy)
  refine ⟨h.fresh, h.converted, hname.trans h.name, hkind.trans h.kind, hout.trans h.outputs,
    hin ▸ h.length, fun j o' hj => ?_⟩
  rcases h.inputs j o' (hin ▸ hj) with same | ⟨o, d, t, hc, rfl, ht⟩
  · exact .inl same
  · exact .inr ⟨o, d, t, hc, rfl, ht.keeps hk⟩

section Rebase

variable (hk : k.KeepsBuffers k₁) (ha : k.OpsAlike k₁) (hx : x.idx < k.ops.size)
  (hop : k.HasOperands (k.op x))
include hk ha hx hop

/-- A cast inserted for an op of `k₁` that was an op of `k` is inserted for the op of `k`. -/
theorem CastFor.rebase (h : k₁.CastFor k' x y) : k.CastFor k' x y := by
  have same := hk.conversions_op ha hx hop
  obtain ⟨i, o, d, t, hc, hi, ho, ht⟩ := h.converts
  rw [same] at hc
  exact ⟨Nat.le_trans ha.size h.fresh, h.kind, i, o, d, t, hc, hi, ho,
    ht.rebase hk (hop.conversion hc)⟩

theorem ReplacementOf.rebase (h : k₁.ReplacementOf k' x y) : k.ReplacementOf k' x y := by
  have same := hk.conversions_op ha hx hop
  obtain ⟨hname, hkind, hin, hout⟩ := TileOp.detached_eq (ha.detached x hx)
  refine ⟨Nat.le_trans ha.size h.fresh, same ▸ h.converted, h.name.trans hname,
    h.kind.trans hkind, h.outputs.trans hout, hin ▸ h.length, fun j o' hj => ?_⟩
  rcases h.inputs j o' hj with ⟨hm, hno⟩ | ⟨o, d, t, hc, rfl, ht⟩
  · exact .inl ⟨hin ▸ hm, same ▸ hno⟩
  · rw [same] at hc
    exact .inr ⟨o, d, t, hc, rfl, ht.rebase hk (hop.conversion hc)⟩

end Rebase

/-! ### Replacements read in one type -/

/-- A replacement reads every input it converts in the original op's read type: an input left
alone had that type, or it would have been converted, and a converted one reads a temporary of
that type. -/
theorem ReplacementOf.dtype_input (h : k.ReplacementOf k' x y) (hk : k.KeepsBuffers k')
    (hop : k.HasOperands (k.op x)) {t : Scalar} (ht : readType k (k.op x) = some t) {j : Nat}
    {o' : Operand} (hj : (k.op x).kind.converts j) (hm : (k'.op y).inputs[j]? = some o') :
    (k'.buffer o'.buffer).dtype = t := by
  rcases h.inputs j o' hm with ⟨hm₀, hno⟩ | ⟨o, d, b, hc, rfl, hb⟩
  · have hin : o' ∈ (k.op x).operands := List.mem_append_left _ (List.mem_of_getElem? hm₀)
    rw [hk.buffer _ (hop o' hin)]
    by_contra hne
    exact hno (j, o', t) (mem_conversions_iff.2 ⟨ht, hj, hm₀, hne⟩) rfl
  · obtain ⟨ht', -, -, -⟩ := mem_conversions_iff.1 hc
    exact hb.dtype.trans (Option.some.inj (ht'.symm.trans ht))

/-- A replacement reads in the original op's read type: for a product, the promoted type of the
original factors, which both its factors now have. -/
theorem ReplacementOf.readType_eq (h : k.ReplacementOf k' x y) (hk : k.KeepsBuffers k')
    (hop : k.HasOperands (k.op x)) : readType k' (k'.op y) = readType k (k.op x) := by
  unfold readType
  rw [h.kind]
  split
  case h_1 | h_2 | h_3 =>
    rw [h.outputs]
    rcases hh : (k.op x).outputs.head? with _ | out
    · rfl
    · simp only [Option.map_some, hk.buffer _ (hop out (List.mem_append_right _ (List.mem_of_mem_head? hh)))]
  case h_4 acc hkind =>
    have hlen := h.length
    rcases hin : (k.op x).inputs with _ | ⟨a, _ | ⟨b, r⟩⟩
    · rw [hin] at hlen
      rw [List.length_eq_zero_iff.1 hlen]
    · rw [hin] at hlen
      obtain ⟨a', ha'⟩ := List.length_eq_one_iff.1 hlen
      rw [ha']
    · -- Both factors of the replacement have the promoted type of the original ones.
      have ht : readType k (k.op x) =
          some ((k.buffer a.buffer).dtype.promote (k.buffer b.buffer).dtype) := by
        simp only [readType, hkind, hin]
      have conv : ∀ j, j < 2 → (k.op x).kind.converts j := fun j hj => by
        rw [hkind]
        exact hj
      rw [hin] at hlen
      rcases hin' : (k'.op y).inputs with _ | ⟨a', _ | ⟨b', r'⟩⟩
      · simp [hin'] at hlen
      · simp [hin'] at hlen
      · have ha := h.dtype_input hk hop ht (conv 0 (by decide)) (j := 0) (by rw [hin']; rfl)
        have hb := h.dtype_input hk hop ht (conv 1 (by decide)) (j := 1) (by rw [hin']; rfl)
        simp only [ha, hb, Scalar.promote_self]
  case h_5 => rfl

/-- A replacement converts nothing. -/
theorem ReplacementOf.readsInOneType (h : k.ReplacementOf k' x y) (hk : k.KeepsBuffers k')
    (hop : k.HasOperands (k.op x)) : ReadsInOneType k' (k'.op y) := by
  intro t ht j o' hj hm
  rw [h.readType_eq hk hop] at ht
  rw [h.kind] at hj
  exact h.dtype_input hk hop ht hj hm

end Kernel

/-! ### Decoupling one op -/

section Step

theorem TileOp.detached_scheduledAs (o : TileOp) (sched : Option SchedInfo) :
    (o.scheduledAs sched).detached = o.detached := by
  unfold TileOp.scheduledAs
  split_ifs <;> rfl

variable {k k' : Kernel}

theorem tempFor_spec {o : Operand} {dtype : Scalar} {b : Buffer} {l : Layout}
    (h : tempFor k o dtype = .ok (some (b, l))) :
    b.shape = o.tileShape (k.buffer o.buffer).shape ∧ b.dtype = dtype ∧
      ((∃ d, (k.buffer o.buffer).layout = some (.dense d) ∧
        l = .dense ⟨o.tileShape (k.buffer o.buffer).shape, d.order⟩) ∨
      ∃ f, (k.buffer o.buffer).layout = some (.fragment f) ∧ o.step = none ∧ l = .fragment f) := by
  unfold tempFor at h
  dsimp only at h
  split at h
  · rename_i src hsrc
    split at h
    · rename_i lay hlay
      rcases hn : dtype.name with fault | name
      · simp [hn, bind, Except.bind] at h
      simp only [hn, bind, Except.bind, pure, Except.pure, Except.ok.injEq, Option.some.injEq,
        Prod.mk.injEq] at h
      obtain ⟨rfl, rfl⟩ := h
      refine ⟨rfl, rfl, ?_⟩
      cases src with
      | dense d =>
        rcases hw : DenseLayout.withOrder (o.tileShape (k.buffer o.buffer).shape) d.order with
          e | l'
        · simp [hw] at hlay
        · simp only [hw, Option.some.injEq] at hlay
          subst hlay
          refine .inl ⟨d, hsrc, ?_⟩
          unfold DenseLayout.withOrder at hw
          split_ifs at hw
          cases hw
          rfl
      | fragment f =>
        by_cases hstep : o.step.isNone = true
        · simp only [hstep, if_true, Option.some.injEq] at hlay
          subst hlay
          exact .inr ⟨f, hsrc, Option.isNone_iff_eq_none.1 hstep, rfl⟩
        · simp [hstep] at hlay
    · cases h
  · cases h

namespace Kernel

/-- The op `insertBefore` adds is the op asked for, up to its schedule; the others stay. -/
theorem insertBefore_detached {a x : OpId} {o : TileOp} (h : k.insertBefore a o = .ok (x, k')) :
    x = ⟨k.ops.size⟩ ∧ (k'.op x).detached = o.detached ∧ k'.ops.size = k.ops.size + 1 := by
  obtain ⟨b, -, rfl, -, -, rfl⟩ := insertBefore_eq h
  refine ⟨rfl, ?_, by simp [ops_modifyBlock]⟩
  rw [op_modifyBlock, op_push_self, TileOp.detached_scheduledAs]

/-- The op `replaceOp` adds is the op asked for, up to its dependencies and schedule. -/
theorem replaceOp_detached {old x : OpId} {o : TileOp} (h : k.replaceOp old o = .ok (x, k')) :
    x = ⟨k.ops.size⟩ ∧ (k'.op x).detached = o.detached ∧ k'.ops.size = k.ops.size + 1 := by
  obtain ⟨b, -, -, rfl, -, rfl⟩ := replaceOp_eq h
  let k₁ : Kernel := { k with ops := k.ops.push { o with deps := (k.op old).deps, sched := (k.op old).sched } }
  obtain ⟨-, hsize, alike⟩ := redirectDependents_alike (k := k₁) old ⟨k.ops.size⟩
  have hops := ops_modifyBlock (k := k₁.redirectDependents old ⟨k.ops.size⟩) (b := b)
    (f := (·.map fun y => if y == old then ⟨k.ops.size⟩ else y))
    (g := (·.map fun s => if s == .op old then .op ⟨k.ops.size⟩ else s))
  refine ⟨rfl, ?_, ?_⟩
  · have same := (alike.trans (opsAlike_of_eq hops)).detached ⟨k.ops.size⟩ (by simp [k₁])
    exact same.trans (by rw [op_push_self]; rfl)
  · exact (congrArg Array.size hops).trans (hsize.trans (by simp [k₁]))

/-- Dependencies added one after another change no buffer and keep every op as the checks see
it. -/
theorem forM_addDependency_alike {c : OpId} {ds : List OpId}
    (h : (ds.forM fun d => KernelM.update (·.addDependency c d)).run k = .ok (.ok (), k')) :
    k.OpsAlike k' ∧ k'.buffers = k.buffers ∧ k'.ops.size = k.ops.size := by
  refine KernelM.run_forM_ok (fun _ kx => k.OpsAlike kx ∧ kx.buffers = k.buffers ∧
    kx.ops.size = k.ops.size) [] (fun d _ _ k₁ k₂ hI hstep => ?_) ⟨.refl k, rfl, rfl⟩ h
  obtain ⟨alike₁, hb₁, hs₁⟩ := hI
  have hd := KernelM.run_update.1 hstep
  obtain ⟨-, -, rfl⟩ := addDependency_ok hd
  exact ⟨alike₁.trans (addDependency_alike hd).1, hb₁, by simpa [modifyOp] using hs₁⟩

/-- Dependencies added one after another keep a kernel formed, and keep its places. -/
theorem Formed.forM_addDependency (hF : k.Formed) {c : OpId} {ds : List OpId}
    (h : (ds.forM fun d => KernelM.update (·.addDependency c d)).run k = .ok (.ok (), k')) :
    k'.Formed ∧ k'.bodyOps = k.bodyOps := by
  refine KernelM.run_forM_ok (fun _ kx => kx.Formed ∧ kx.bodyOps = k.bodyOps) []
    (fun d _ _ k₁ k₂ hI hstep => ?_) ⟨hF, rfl⟩ h
  have hd := KernelM.run_update.1 hstep
  obtain ⟨-, hb, hl, -⟩ := addDependency_alike hd
  exact ⟨hI.1.addDependency hd, (bodyOps_congr hb hl).trans hI.2⟩

/-- Declaring a planned temporary under a name no buffer has, and attaching its planned layout,
declares a temporary for the operand. -/
theorem tempOf_declare {kx kz : Kernel} {o : Operand} {dtype : Scalar} {b : Buffer} {l : Layout}
    {name : String} (hk : kx.KeepsBuffers kz) (hb : tempFor kx o dtype = .ok (some (b, l)))
    (hfree : ∀ y ∈ kz.buffers, y.name ≠ name) :
    kx.TempOf (({ kz with buffers := kz.buffers.push { b with name } } : Kernel).modifyBuffer
      ⟨kz.buffers.size⟩ ({ · with layout := some l })) o dtype ⟨kz.buffers.size⟩ := by
  obtain ⟨hshape, hdtype, hlayout⟩ := tempFor_spec hb
  have kept := (keepsBuffers_push (k := kz) (b := { b with name })).modifyBuffer
    (b := ⟨kz.buffers.size⟩) (Nat.le_refl _) ({ · with layout := some l })
  have declared : (({ kz with buffers := kz.buffers.push { b with name } } : Kernel).modifyBuffer
      ⟨kz.buffers.size⟩ ({ · with layout := some l })).buffer ⟨kz.buffers.size⟩ =
      { b with name, layout := some l } := by
    simp [Kernel.buffer, buffer?, modifyBuffer, Array.getElem_modify]
  refine ⟨hk.size, by simp [modifyBuffer], fun y hy => ?_, ?_, ?_, ?_⟩
  · rw [kept.buffer y hy, declared]
    exact hfree _ (buffer_mem hy)
  · rw [declared]
    exact hshape
  · rw [declared]
    exact hdtype
  · rw [declared]
    rcases hlayout with ⟨d, hd, rfl⟩ | ⟨f, hf, hstep, rfl⟩
    · exact .inl ⟨d, hd, rfl⟩
    · exact .inr ⟨f, hf, hstep, rfl⟩

end Kernel

open Kernel in
/-- Decoupling an op of a formed kernel keeps it formed and keeps every buffer; the ops placed
before, but the op itself, are the old ops still placed, and every op it adds is a cast for one
of its conversions or its replacement. -/
theorem decouple_describes {kx ky : Kernel} {x : OpId} (hF : kx.Formed)
    (hne : conversions kx (kx.op x) ≠ [])
    (h : (decouple x (conversions kx (kx.op x))).run kx = .ok (.ok (), ky)) :
    ky.Formed ∧ kx.KeepsBuffers ky ∧ kx.OpsAlike ky ∧
      (∀ y ∈ ky.bodyOps, y.idx < kx.ops.size → y ∈ kx.bodyOps ∧ y ≠ x) ∧
      ∀ y : OpId, kx.ops.size ≤ y.idx → y.idx < ky.ops.size →
        kx.CastFor ky x y ∨ kx.ReplacementOf ky x y := by
  unfold decouple at h
  rw [KernelM.run_get_bind] at h
  dsimp only at h
  obtain ⟨temps, k₁, h₁, h⟩ := KernelM.run_bind_eq_ok.1 h
  -- Planning reads the kernel only, and plans the temporary `tempFor` gives for each conversion.
  obtain ⟨rfl, planned⟩ := KernelM.run_mapM_ok (fun a b => a = b)
    (fun (c : Nat × Operand × Scalar) (t : Nat × Operand × Buffer × Layout) (_ : Kernel) =>
      ∃ b l, tempFor kx c.2.1 c.2.2 = .ok (some (b, l)) ∧ t = (c.1, c.2.1, b, l))
    (fun _ => rfl) (fun h₁ h₂ => h₁.trans h₂) (fun h _ => h)
    (fun _ _ _ _ _ hs => ⟨(plan_temp_eq hs).1.symm, (plan_temp_eq hs).2⟩) h₁
  obtain ⟨acc, k₂, h₂, h⟩ := KernelM.run_bind_eq_ok.1 h
  obtain ⟨replaced, k₃, h₃, h⟩ := KernelM.run_bind_eq_ok.1 h
  -- The fold declares one temporary and inserts one cast per conversion; the inputs it builds
  -- read each converted position from its temporary.
  have fold := KernelM.run_foldlM_ok
    (fun (done : List (Nat × Operand × Buffer × Layout)) (acc : List Operand × List OpId) kz =>
      kz.Formed ∧ kx.KeepsBuffers kz ∧ kx.OpsAlike kz ∧
      (∀ y ∈ kz.bodyOps, y.idx < kx.ops.size → y ∈ kx.bodyOps) ∧
      acc.1.length = (kx.op x).inputs.length ∧
      (∀ j o', acc.1[j]? = some o' → ((kx.op x).inputs[j]? = some o' ∧ ∀ t ∈ done, t.1 ≠ j) ∨
        ∃ o dtype t, (j, o, dtype) ∈ conversions kx (kx.op x) ∧ o' = .whole t ∧
          kx.TempOf kz o dtype t) ∧
      ∀ y : OpId, kx.ops.size ≤ y.idx → y.idx < kz.ops.size → kx.CastFor kz x y) []
    (fun t ht _ acc₁ kz acc₂ kw hI hstep => ?_)
    ⟨hF, .refl kx, .refl kx, fun _ hy _ => hy, rfl,
      fun j o' hj => .inl ⟨hj, fun _ h => absurd h List.not_mem_nil⟩,
      fun y h₁ h₂ => absurd h₂ (Nat.not_lt_of_le h₁)⟩ h₂
  · obtain ⟨hF₂, keep₂, alike₂, old₂, len₂, ins₂, casts₂⟩ := fold
    have hr := KernelM.run_edit.1 h₃
    obtain ⟨P, Q, hk₂, hk₃⟩ := bodyOps_replaceOp hr hF₂.loops_nodup hF₂.placedOnce
    obtain ⟨hF', hbody'⟩ := (hF₂.replaceOp hr).forM_addDependency h
    obtain ⟨rfl, hop₃, hsize₃⟩ := replaceOp_detached hr
    obtain ⟨alike', hb', hsize'⟩ := forM_addDependency_alike h
    have keep₃ : k₂.KeepsBuffers ky := keepsBuffers_of_eq (hb'.trans (replaceOp_buffers hr))
    have alike₃ : k₂.OpsAlike ky := (replaceOp_alike hr).trans alike'
    refine ⟨hF', keep₂.trans keep₃, alike₂.trans alike₃, fun y hy hyx => ?_, fun y hy hy' => ?_⟩
    · -- The op gives its place to the replacement, which is new.
      rw [hbody', hk₃] at hy
      rcases mem_insert_mid.1 hy with rfl | hy
      · exact absurd hyx (Nat.not_lt_of_le alike₂.size)
      · refine ⟨old₂ y (hk₂ ▸ mem_insert_mid.2 (.inr hy)) hyx, ?_⟩
        rintro rfl
        exact (List.nodup_cons.1 (List.nodup_middle.1 (hk₂ ▸ hF₂.placedOnce))).1 hy
    rcases Nat.lt_or_ge y.idx k₂.ops.size with hold | hnew
    · exact .inl ((casts₂ y hy hold).keeps hold alike₃ keep₃)
    · -- The one op past the casts is the replacement.
      obtain rfl : y = ⟨k₂.ops.size⟩ := by
        have : y.idx = k₂.ops.size := by omega
        cases y
        simp_all
      obtain ⟨hname, hkind, hin, hout⟩ := TileOp.detached_eq ((alike'.detached _ (by omega)).trans hop₃)
      refine .inr ⟨hy, hne, hname, hkind, hout, by rw [hin]; exact len₂, fun j o' hj => ?_⟩
      rw [hin] at hj
      rcases ins₂ j o' hj with ⟨hm, hno⟩ | ⟨o, d, t, hc, rfl, ht⟩
      · -- A position no temporary was planned for is no conversion.
        refine .inl ⟨hm, fun c hc hcj => ?_⟩
        obtain ⟨t, ht, b, l, -, rfl⟩ := forall₂_exists_of_mem_left planned hc
        exact hno _ ht hcj
      · exact .inr ⟨o, d, t, hc, rfl, ht.keeps keep₃⟩
  · obtain ⟨hF₁, keep₁, alike₁, old₁, len₁, ins₁, casts₁⟩ := hI
    obtain ⟨c, hc, b, l, hb, rfl⟩ := forall₂_exists_of_mem_right planned ht
    rw [KernelM.run_get_bind] at hstep
    obtain ⟨temp, k₆, h₆, hstep⟩ := KernelM.run_bind_eq_ok.1 hstep
    obtain ⟨_, k₇, h₇, hstep⟩ := KernelM.run_bind_eq_ok.1 hstep
    obtain ⟨cast, k₈, h₈, hstep⟩ := KernelM.run_bind_eq_ok.1 hstep
    obtain ⟨_, k₉, h₉, hstep⟩ := KernelM.run_bind_eq_ok.1 hstep
    obtain ⟨rfl, rfl⟩ := KernelM.run_pure_eq_ok.1 hstep
    have hb₆ := KernelM.run_edit.1 h₆
    have hl₇ := KernelM.run_update.1 h₇
    have hF₇ := (hF₁.addBuffer hb₆).attachLayout hl₇
    obtain ⟨hfree, -, rfl, rfl⟩ := addBuffer_eq_ok.1 hb₆
    obtain ⟨-, rfl⟩ := attachLayout_ok hl₇
    have hins := KernelM.run_edit.1 h₈
    obtain ⟨P, Q, hk₇, hk₈⟩ := bodyOps_insertBefore hins hF₇.loops_nodup hF₇.placedOnce
    obtain ⟨hF₉, hbody₉⟩ := (hF₇.insertBefore hins).forM_addDependency h₉
    obtain ⟨rfl, hop₈, hsize₈⟩ := insertBefore_detached hins
    obtain ⟨alike₉, hb₉, hsize₉⟩ := forM_addDependency_alike h₉
    have hsize : kw.ops.size = kz.ops.size + 1 := hsize₉.trans hsize₈
    -- From the kernel the step started from, only the new temporary and the new cast differ.
    have keep : kz.KeepsBuffers kw := (keepsBuffers_push.modifyBuffer (b := ⟨kz.buffers.size⟩)
      (Nat.le_refl _) _).trans (keepsBuffers_of_eq ((insertBefore_buffers hins).symm ▸ hb₉))
    have alike : kz.OpsAlike kw := by
      refine OpsAlike.trans ?_ ((insertBefore_alike hins).trans alike₉)
      exact opsAlike_of_eq rfl
    have temp : kx.TempOf kw c.2.1 c.2.2 ⟨kz.buffers.size⟩ :=
      (tempOf_declare keep₁ hb hfree).keeps
        (keepsBuffers_of_eq ((insertBefore_buffers hins).symm ▸ hb₉))
    refine ⟨hF₉, keep₁.trans keep, alike₁.trans alike, fun y hy hyx => ?_, by simp [len₁],
      fun j o' hj => ?_, fun y hy hy' => ?_⟩
    · -- The cast is new and stands right before the op; the other ops keep their places.
      rw [hbody₉, hk₈] at hy
      rcases mem_insert_mid.1 hy with rfl | hy
      · exact absurd hyx (Nat.not_lt_of_le alike₁.size)
      · exact old₁ y (hk₇ ▸ hy) hyx
    · rw [List.getElem?_set] at hj
      by_cases hjc : c.1 = j
      · subst hjc
        rw [if_pos rfl] at hj
        split_ifs at hj
        cases hj
        exact .inr ⟨c.2.1, c.2.2, ⟨kz.buffers.size⟩, hc, rfl, temp⟩
      · rw [if_neg hjc] at hj
        rcases ins₁ j o' hj with ⟨hm, hno⟩ | ⟨o, d, t, hc', rfl, ht⟩
        · refine .inl ⟨hm, fun t ht => ?_⟩
          rcases List.mem_append.1 ht with ht | ht
          · exact hno t ht
          · rw [List.mem_singleton.1 ht]
            exact hjc
        · exact .inr ⟨o, d, t, hc', rfl, ht.keeps keep⟩
    · rcases Nat.lt_or_ge y.idx kz.ops.size with hold | hnew
      · exact (casts₁ y hy hold).keeps hold alike keep
      · -- The one op past the earlier casts is the new cast.
        obtain rfl : y = ⟨kz.ops.size⟩ := by
          have : y.idx = kz.ops.size := by omega
          cases y
          simp_all
        obtain ⟨-, hkind, hin, hout⟩ := TileOp.detached_eq
          ((alike₉.detached _ (by rw [hsize₈]; exact Nat.lt_succ_self _)).trans hop₈)
        exact ⟨hy, hkind, c.1, c.2.1, c.2.2, ⟨kz.buffers.size⟩, hc, hin, hout, temp⟩

end Step

/-! ### The run -/

namespace Kernel

/-- The kernel `kx` type decoupling reaches from `k` once it has visited the ops `done`: it is
formed, keeps the buffers of `k` and its ops as the checks see them, and each of its live ops
was live in `k` and, once visited, converts nothing, or is a cast for a conversion of a visited
op, or the replacement of one. -/
structure Decoupled (k kx : Kernel) (done : List OpId) : Prop where
  formed : kx.Formed
  alike : k.OpsAlike kx
  keeps : k.KeepsBuffers kx
  live : ∀ y ∈ kx.liveOps, (y ∈ k.liveOps ∧ (y ∈ done → conversions k (k.op y) = [])) ∨
    (∃ x ∈ done, k.CastFor kx x y) ∨ ∃ x ∈ done, k.ReplacementOf kx x y

variable {k kx ky : Kernel} {done : List OpId}

theorem Decoupled.start (hF : k.Formed) : k.Decoupled k [] where
  formed := hF
  alike := .refl k
  keeps := .refl k
  live _ hy := .inl ⟨hy, fun h => absurd h List.not_mem_nil⟩

/-- Visiting a live op of `k` keeps the description. -/
theorem Decoupled.step {d : OpId} (hI : k.Decoupled kx done) (hF : k.Formed) (hd : d ∈ k.liveOps)
    {b₁ b₂ : Bool}
    (h : (do
      let kx ← get
      let wanted := conversions kx (kx.op d)
      if wanted.isEmpty then pure b₁ else
        decouple d wanted
        pure true : KernelM KernelError Bool).run kx = .ok (.ok b₂, ky)) :
    k.Decoupled ky (done ++ [d]) := by
  have hdk := hF.live_lt hd
  have same := hI.keeps.conversions_op hI.alike hdk (hF.hasOperands hdk)
  rw [KernelM.run_get_bind] at h
  dsimp only at h
  split at h
  · -- An op converting nothing is left alone.
    rename_i hnil
    obtain ⟨-, rfl⟩ := KernelM.run_pure_eq_ok.1 h
    refine ⟨hI.formed, hI.alike, hI.keeps, fun y hy => ?_⟩
    rcases hI.live y hy with ⟨hyk, hno⟩ | ⟨x, hx, hc⟩ | ⟨x, hx, hr⟩
    · refine .inl ⟨hyk, fun hy' => ?_⟩
      rcases List.mem_append.1 hy' with hy' | hy'
      · exact hno hy'
      · rw [List.mem_singleton.1 hy', ← same]
        exact List.isEmpty_iff.1 hnil
    · exact .inr (.inl ⟨x, List.mem_append_left _ hx, hc⟩)
    · exact .inr (.inr ⟨x, List.mem_append_left _ hx, hr⟩)
  · rename_i hne
    obtain ⟨_, k₃, h₃, h⟩ := KernelM.run_bind_eq_ok.1 h
    obtain ⟨-, rfl⟩ := KernelM.run_pure_eq_ok.1 h
    obtain ⟨hF₃, keep₃, alike₃, old₃, added⟩ := decouple_describes hI.formed (by simpa using hne) h₃
    refine ⟨hF₃, hI.alike.trans alike₃, hI.keeps.trans keep₃, fun y hy => ?_⟩
    have hyb : y ∈ ky.bodyOps := hF₃.liveOps_eq ▸ hy
    rcases Nat.lt_or_ge y.idx kx.ops.size with hold | hnew
    · -- An op that was there, other than `d`, keeps what it was.
      obtain ⟨hyx, hyd⟩ := old₃ y hyb hold
      rcases hI.live y (hI.formed.liveOps_eq ▸ hyx) with ⟨hyk, hno⟩ | ⟨x, hx, hc⟩ | ⟨x, hx, hr⟩
      · refine .inl ⟨hyk, fun hy' => hno ?_⟩
        rcases List.mem_append.1 hy' with hy' | hy'
        · exact hy'
        · exact absurd (List.mem_singleton.1 hy') hyd
      · exact .inr (.inl ⟨x, List.mem_append_left _ hx, hc.keeps hold alike₃ keep₃⟩)
      · exact .inr (.inr ⟨x, List.mem_append_left _ hx, hr.keeps hold alike₃ keep₃⟩)
    · -- A new op is one of the casts or the replacement, for `d`.
      have hop := hF.hasOperands hdk
      rcases added y hnew (hF₃.placedExist y hyb) with hc | hr
      · exact .inr (.inl ⟨d, List.mem_append_right _ (List.mem_singleton_self d),
          hc.rebase hI.keeps hI.alike hdk hop⟩)
      · exact .inr (.inr ⟨d, List.mem_append_right _ (List.mem_singleton_self d),
          hr.rebase hI.keeps hI.alike hdk hop⟩)

/-- A run of type decoupling that succeeds ends in a kernel it describes, every live op of `k`
visited. -/
theorem typeDecoupling_decoupled {k' : Kernel} {c : Bool} (hF : k.Formed)
    (h : typeDecoupling.run k = .ok (.ok c, k')) : k.Decoupled k' k.liveOps := by
  unfold typeDecoupling at h
  rw [KernelM.run_get_bind] at h
  exact KernelM.run_foldlM_ok (fun done _ kx => k.Decoupled kx done) []
    (fun d hd _ _ _ _ _ hI hstep => hI.step hF hd hstep) (.start hF) h

/-- Type decoupling answers `false` and changes nothing on a kernel whose live ops convert
nothing. -/
theorem typeDecoupling_of_converted (h : ∀ y ∈ k.liveOps, conversions k (k.op y) = []) :
    typeDecoupling.run k = .ok (.ok false, k) := by
  unfold typeDecoupling
  rw [KernelM.run_get_bind]
  generalize k.liveOps = l at h ⊢
  induction l with
  | nil => rfl
  | cons y l ih =>
    rw [List.foldlM_cons, KernelM.run_bind, KernelM.run_get_bind]
    simp only [h y List.mem_cons_self, List.isEmpty_nil, if_true, KernelM.run_pure]
    exact ih fun z hz => h z (List.mem_cons_of_mem _ hz)

/-- An op with conversions is no cast. -/
theorem kind_ne_cast_of_conversions {op : TileOp} (h : conversions k op ≠ []) : op.kind ≠ .cast := by
  obtain ⟨c, hc⟩ := List.exists_mem_of_ne_nil _ h
  intro hcast
  have ht := (mem_conversions_iff.1 hc).1
  rcases readType_eq_some_kind ht with h' | h' | h' | h' <;> simp [hcast, OpKind.tag] at h'

section Visited

variable {k' : Kernel} (hD : k.Decoupled k' k.liveOps) (hF : k.Formed)
include hD hF

/-- Once every live op is visited, every live op reads in one type. -/
theorem Decoupled.readsInOneType : ∀ y ∈ k'.liveOps, ReadsInOneType k' (k'.op y) := by
  intro y hy
  rcases hD.live y hy with ⟨hyk, hno⟩ | ⟨x, -, hc⟩ | ⟨x, hx, hr⟩
  · have hyo := hF.live_lt hyk
    rw [← conversions_eq_nil_iff, hD.keeps.conversions_op hD.alike hyo (hF.hasOperands hyo)]
    exact hno hyk
  · -- A cast has no read type.
    intro t ht
    simp [readType, hc.kind] at ht
  · exact hr.readsInOneType hD.keeps (hF.hasOperands (hF.live_lt hx))

/-- Once every live op is visited, every live op but the inserted casts is a live op of `k`, or
replaces one, with its name, kind, outputs and read type. -/
theorem Decoupled.origin : ∀ y ∈ k'.liveOps, (k'.op y).kind ≠ .cast → ∃ x ∈ k.liveOps,
    (k'.op y).name = (k.op x).name ∧ (k'.op y).kind = (k.op x).kind ∧
      (k'.op y).outputs = (k.op x).outputs ∧ readType k' (k'.op y) = readType k (k.op x) := by
  intro y hy hcast
  rcases hD.live y hy with ⟨hyk, -⟩ | ⟨x, -, hc⟩ | ⟨x, hx, hr⟩
  · have hyo := hF.live_lt hyk
    obtain ⟨hname, hkind, -, hout⟩ := TileOp.detached_eq (hD.alike.detached y hyo)
    exact ⟨y, hyk, hname, hkind, hout, hD.keeps.readType_op hD.alike hyo (hF.hasOperands hyo)⟩
  · exact absurd hc.kind hcast
  · exact ⟨x, hx, hr.name, hr.kind, hr.outputs,
      hr.readType_eq hD.keeps (hF.hasOperands (hF.live_lt hx))⟩

/-- Once every live op is visited, every new live cast was inserted for a conversion of a live op
of `k`. -/
theorem Decoupled.casts : ∀ y ∈ k'.liveOps, k.ops.size ≤ y.idx → (k'.op y).kind = .cast →
    ∃ x ∈ k.liveOps, k.CastFor k' x y := by
  intro y hy hfresh hcast
  rcases hD.live y hy with ⟨hyk, -⟩ | hc | ⟨x, -, hr⟩
  · exact absurd (hF.live_lt hyk) (Nat.not_lt_of_le hfresh)
  · exact hc
  · exact absurd (hr.kind ▸ hcast) (kind_ne_cast_of_conversions hr.converted)

end Visited

end Kernel

/-! ### Failures -/

namespace KernelM

variable {α : Type} {E : KernelError → Prop}

/-- A kernel operation that fails only with failures `E` is guarded with them. -/
theorem guards_edit_of {f : Kernel → Except KernelError (α × Kernel)} (hf : ∀ k, FailsOnly E (f k)) :
    Guards (fun _ => True) E (edit f) :=
  guards_edit (fun _ _ _ _ _ => trivial) fun k _ => hf k

theorem guards_update_of {f : Kernel → Except KernelError Kernel} (hf : ∀ k, FailsOnly E (f k)) :
    Guards (fun _ => True) E (update f) :=
  guards_update (fun _ _ _ _ => trivial) fun k _ => hf k

end KernelM

open KernelM in
/-- Planning a temporary changes nothing, and fails only where `tempFor` has no temporary, with
the implicit conversion of that input. -/
theorem guards_plan_temp {k₀ : Kernel} {x : OpId} {c : Nat × Operand × Scalar} :
    Guards (· = k₀) (fun e => tempFor k₀ c.2.1 c.2.2 = .ok none ∧
        ∃ s t, e = .implicitConversion (k₀.op x).name c.1 s t)
      (do
        match ← liftM (tempFor k₀ c.2.1 c.2.2) with
        | some t => pure (c.1, c.2.1, t)
        | none => do
          let source ← liftM (k₀.buffer c.2.1.buffer).dtype.name
          throw (KernelError.implicitConversion (k₀.op x).name c.1 source (← liftM c.2.2.name)) :
        KernelM KernelError (Nat × Operand × Buffer × Layout)) := by
  refine (guards_liftM _).bind (fun r => tempFor k₀ c.2.1 c.2.2 = .ok r)
    (fun _ _ _ _ h => (KernelM.run_liftM_eq_ok.1 h).1) fun r hr => ?_
  rcases r with _ | t
  · exact (guards_liftM _).bind' fun _ => (guards_liftM _).bind' fun _ => guards_throw ⟨hr, _, _, rfl⟩
  · exact guards_pure _

open KernelM Kernel in
theorem decouple_fails_planning {k k' : Kernel} {x : OpId} {wanted : List (Nat × Operand × Scalar)}
    {e : KernelError} (h : (decouple x wanted).run k = .ok (.error e, k')) (he : ¬ e.OfEdit) :
    k' = k ∧ ∃ c ∈ wanted, tempFor k c.2.1 c.2.2 = .ok none ∧
      ∃ s t, e = .implicitConversion (k.op x).name c.1 s t := by
  unfold decouple at h
  rw [KernelM.run_get_bind] at h
  dsimp only at h
  rcases KernelM.run_bind_eq_error.1 h with hplan | ⟨temps, k₁, h₁, hrest⟩
  · -- Planning changes nothing, and fails with the conversion of an input it has no temporary for.
    obtain ⟨hk, hE⟩ := guards_mapM (E := fun e => ∃ c ∈ wanted, tempFor k c.2.1 c.2.2 = .ok none ∧
        ∃ s t, e = .implicitConversion (k.op x).name c.1 s t)
      (fun c hc => guards_plan_temp.mono fun e he => ⟨c, hc, he⟩) k _ k' rfl hplan
    exact ⟨hk, hE e rfl⟩
  · -- The edits fail with the failures of an edit only.
    refine absurd ((((guards_foldlM (Q := fun _ => True) (E := KernelError.OfEdit) fun acc t _ => ?_).bind'
      fun acc => ?_) k₁ _ k' trivial hrest).2 e rfl) he
    · exact guards_get_bind fun _ _ => (guards_edit_of fun _ => addBuffer_ofEdit _).bind' fun _ =>
        (guards_update_of fun _ => attachLayout_ofEdit _ _).bind' fun _ =>
        (guards_edit_of fun _ => insertBefore_ofEdit _ _).bind' fun _ =>
        (guards_forM fun _ _ => guards_update_of fun _ => addDependency_ofEdit _ _).bind' fun _ =>
        guards_pure _
    · exact (guards_edit_of fun _ => replaceOp_ofEdit _ _).bind' fun _ =>
        guards_forM fun _ _ => guards_update_of fun _ => addDependency_ofEdit _ _

/-! ### Type decoupling -/

open Kernel in
/-- **Type decoupling makes every conversion explicit, once and for all.** After a run that
succeeds on a formed kernel, as every kernel built is, every live elementwise op, reduction and atomic reads each input in
its output's type, and every live product reads both factors in the promoted type of the factors
of the op it came from, with that op's outputs. Every live cast the run added reads an input of a
live op exactly as the op read it, in a type other than the one the op reads it in, and writes
the whole of a temporary of that type. A second run answers `false` and changes nothing.
Decoupling one op fails with an implicit conversion only while it plans the temporaries, for an
input with none, and then leaves the kernel as it was. -/
theorem typeDecoupling_makes_conversions_explicit :
    (∀ {k k' : Kernel} {c : Bool}, k.Formed → typeDecoupling.run k = .ok (.ok c, k') →
      (∀ y ∈ k'.liveOps, ((k'.op y).kind.tag = .elementwise ∨ (k'.op y).kind.tag = .reduce ∨
          (k'.op y).kind.tag = .atomic) → ∀ out rest, (k'.op y).outputs = out :: rest →
        ∀ i ∈ (k'.op y).inputs, (k'.buffer i.buffer).dtype = (k'.buffer out.buffer).dtype) ∧
      (∀ y ∈ k'.liveOps, ∀ acc a' b' r', (k'.op y).kind = .gemm acc →
        (k'.op y).inputs = a' :: b' :: r' → ∃ x ∈ k.liveOps, ∃ a b r,
          (k.op x).kind = .gemm acc ∧ (k.op x).inputs = a :: b :: r ∧
          (k'.op y).outputs = (k.op x).outputs ∧
          (k'.buffer a'.buffer).dtype = (k.buffer a.buffer).dtype.promote (k.buffer b.buffer).dtype ∧
          (k'.buffer b'.buffer).dtype = (k.buffer a.buffer).dtype.promote (k.buffer b.buffer).dtype) ∧
      (∀ y ∈ k'.liveOps, k.ops.size ≤ y.idx → (k'.op y).kind = .cast → ∃ x ∈ k.liveOps,
        ∃ (i : Nat) (o : Operand) (dtype : Scalar) (t : BufferId), (k.op x).inputs[i]? = some o ∧
          readType k (k.op x) = some dtype ∧
          (k.buffer o.buffer).dtype ≠ dtype ∧ (k'.op y).inputs = [o] ∧
          (k'.op y).outputs = [.whole t] ∧ k.TempOf k' o dtype t) ∧
      typeDecoupling.run k' = .ok (.ok false, k')) ∧
    ∀ {k k' : Kernel} {x : OpId} {wanted : List (Nat × Operand × Scalar)} {op : String} {i : Nat}
      {source target : String},
      (decouple x wanted).run k = .ok (.error (.implicitConversion op i source target), k') →
      k' = k ∧ op = (k.op x).name ∧ ∃ c ∈ wanted, c.1 = i ∧ tempFor k c.2.1 c.2.2 = .ok none := by
  refine ⟨fun {k k' c} hF h => ?_, fun {k k' x wanted op i source target} h => ?_⟩
  · have hD := typeDecoupling_decoupled hF h
    have one := hD.readsInOneType hF
    refine ⟨fun y hy hkind out rest hout i hi => ?_, fun y hy acc a' b' r' hkind hin => ?_,
      fun y hy hfresh hcast => ?_, typeDecoupling_of_converted fun y hy =>
        conversions_eq_nil_iff.2 (one y hy)⟩
    · -- Every input of an elementwise op, a reduction or an atomic is read in its output's type.
      obtain ⟨j, hj⟩ := List.mem_iff_getElem?.1 hi
      have ht : readType k' (k'.op y) = some (k'.buffer out.buffer).dtype ∧
          (k'.op y).kind.converts j := by
        unfold readType
        rcases hk : (k'.op y).kind <;> simp_all [OpKind.tag, OpKind.converts]
      exact one y hy _ ht.1 j i ht.2 hj
    · -- A product reads both factors in the read type of the op it came from.
      obtain ⟨x, hx, -, hkx, hout, hread⟩ := hD.origin hF y hy (by rw [hkind]; simp)
      have ht' : readType k' (k'.op y) =
          some ((k'.buffer a'.buffer).dtype.promote (k'.buffer b'.buffer).dtype) := by
        simp only [readType, hkind, hin]
      have ha' := one y hy _ ht' 0 a' (by rw [hkind]; exact Nat.two_pos) (by rw [hin]; rfl)
      have hb' := one y hy _ ht' 1 b' (by rw [hkind]; exact Nat.one_lt_two) (by rw [hin]; rfl)
      rw [ht'] at hread
      rcases hxin : (k.op x).inputs with _ | ⟨a, _ | ⟨b, r⟩⟩ <;>
        simp only [readType, ← hkx, hkind, hxin, reduceCtorEq] at hread
      refine ⟨x, hx, a, b, r, hkx ▸ hkind, hxin, hout, ?_, ?_⟩ <;>
        simp only [← Option.some.inj hread] <;> assumption
    · -- A new cast was inserted for a conversion of a live op.
      obtain ⟨x, hx, hc⟩ := hD.casts hF y hy hfresh hcast
      obtain ⟨j, o, d, t, hconv, hi, ho, ht⟩ := hc.converts
      obtain ⟨hread, -, hj, hne⟩ := mem_conversions_iff.1 hconv
      exact ⟨x, hx, j, o, d, t, hj, hread, hne, hi, ho, ht⟩
  · obtain ⟨rfl, c, hc, hnone, s', t', he⟩ := decouple_fails_planning h fun h => h
    cases he
    exact ⟨rfl, rfl, c, hc, rfl, hnone⟩

/-- An add of an f16 and an f32 tile into an f32 tile, all local and row-major. -/
def mixedAdd : Kernel where
  name := "mix"
  buffers := #[
    { name := "a", shape := [16, 16], dtype := .f16, scope := .local,
      layout := some (.dense (DenseLayout.rowMajor [16, 16])) },
    { name := "b", shape := [16, 16], dtype := .f32, scope := .local,
      layout := some (.dense (DenseLayout.rowMajor [16, 16])) },
    { name := "out", shape := [16, 16], dtype := .f32, scope := .local,
      layout := some (.dense (DenseLayout.rowMajor [16, 16])) }]
  ops := #[⟨"add", .elementwise .add, [.whole ⟨0⟩, .whole ⟨1⟩], [.whole ⟨2⟩], [], none⟩]
  body := [.op ⟨0⟩]

theorem mixedAdd_built : mixedAdd.Built :=
  ⟨"mix", .head (Kernel.Call.addBuffer
      (b := { name := "a", shape := [16, 16], dtype := .f16, scope := .local })
      (by with_unfolding_all rfl)) <|
    .head (Kernel.Call.addBuffer
      (b := { name := "b", shape := [16, 16], dtype := .f32, scope := .local })
      (by with_unfolding_all rfl)) <|
    .head (Kernel.Call.addBuffer
      (b := { name := "out", shape := [16, 16], dtype := .f32, scope := .local })
      (by with_unfolding_all rfl)) <|
    .head (Kernel.Call.attachLayout (b := ⟨0⟩) (l := .dense (DenseLayout.rowMajor [16, 16]))
      (by with_unfolding_all rfl)) <|
    .head (Kernel.Call.attachLayout (b := ⟨1⟩) (l := .dense (DenseLayout.rowMajor [16, 16]))
      (by with_unfolding_all rfl)) <|
    .head (Kernel.Call.attachLayout (b := ⟨2⟩) (l := .dense (DenseLayout.rowMajor [16, 16]))
      (by with_unfolding_all rfl)) <|
    .head (Kernel.Call.addOp (o := ⟨"add", .elementwise .add, [.whole ⟨0⟩, .whole ⟨1⟩],
      [.whole ⟨2⟩], [], none⟩) (by with_unfolding_all rfl)) <|
    .single (Kernel.Call.push (h := ⟨0⟩) (by with_unfolding_all rfl))⟩

/-- The same add with its f16 tile declared without a layout, so no temporary can stage it. -/
def unstagedAdd : Kernel :=
  { mixedAdd with buffers := mixedAdd.buffers.modify 0 ({ · with layout := none }) }

/-- Type decoupling casts the f16 tile of the mixed add and then settles; with no layout on that
tile, decoupling the add fails with the implicit conversion of its first input from f16 to f32
and changes nothing. -/
theorem mixedAdd_conversions_explicit : mixedAdd.Formed ∧
    (∃ k', typeDecoupling.run mixedAdd = .ok (.ok true, k') ∧
      typeDecoupling.run k' = .ok (.ok false, k')) ∧
    (decouple ⟨0⟩ (conversions unstagedAdd (unstagedAdd.op ⟨0⟩))).run unstagedAdd =
      .ok (.error (.implicitConversion "add" 0 "f16" "f32"), unstagedAdd) := by
  obtain ⟨k', hrun⟩ : ∃ k', typeDecoupling.run mixedAdd = .ok (.ok true, k') :=
    ⟨_, by with_unfolding_all rfl⟩
  obtain ⟨k'', hfail⟩ : ∃ k'', (decouple ⟨0⟩ (conversions unstagedAdd (unstagedAdd.op ⟨0⟩))).run
      unstagedAdd = .ok (.error (.implicitConversion "add" 0 "f16" "f32"), k'') :=
    ⟨_, by with_unfolding_all rfl⟩
  obtain ⟨rfl, -⟩ := typeDecoupling_makes_conversions_explicit.2 hfail
  have hF := mixedAdd_built.formed
  exact ⟨hF, ⟨k', hrun, (typeDecoupling_makes_conversions_explicit.1 hF hrun).2.2.2⟩, hfail⟩

end TileKernel
