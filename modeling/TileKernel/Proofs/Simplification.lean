import TileKernel.Proofs.Validity.Stages
import TileKernel.Proofs.Casts

/-!
# Rounds of simplification

A round of simplification normalizes fills, folds constants and removes dead ops. Each stage is
specified by what it leaves of the live ops (`Kernel.liveView`): normalizing maps every live op
through `normalizedOp`, folding replaces ops by their `foldedView`, and removal keeps the `needed`
ops in order. From these, `Kernel.pending` (the live ops plus those that are not fills) never grows
over a round, and falls in every round that starts with settled fills and reports a change.

Casting a literal faults only for a signed type of no bytes, so on a kernel whose buffers all have
types that can be cast to (`Kernel.Castable`) every cast answers `Literal.castValue`, and folding
answers `foldedOp`.

So repeated simplification reaches a round that reports no change and leaves the kernel as it was
(`simplify_reaches_fixed_point`), unless a live fill holds a NaN in its type: a NaN never has the
same value as its cast, so normalizing replaces such a fill in every round, and a NaN fill of
global memory is a root that removal keeps (`simplify_never_settles`).
-/

set_option autoImplicit false

namespace TileKernel
namespace Kernel

variable {k k' : Kernel}

/-- Every buffer has a type every literal can be cast to. -/
def Castable (k : Kernel) : Prop := ∀ x ∈ k.buffers.toList, x.dtype.Castable

instance (k : Kernel) : Decidable k.Castable := inferInstanceAs (Decidable (∀ x ∈ k.buffers.toList, _))

/-- A handle out of range names the default buffer, a boolean, so every handle has a castable type. -/
theorem Castable.buffer (hc : k.Castable) (b : BufferId) : (k.buffer b).dtype.Castable := by
  unfold Kernel.buffer buffer?
  rcases hb : k.buffers[b.idx]? with _ | x
  · exact fun hk => nomatch hk
  · exact hc x (Array.mem_toList_iff.2 (Array.mem_of_getElem? hb))

theorem Castable.of_buffers (hb : k'.buffers = k.buffers) (hc : k.Castable) : k'.Castable := by
  unfold Castable
  rw [hb]
  exact hc

/-! ### Edits of live ops -/

/-- A live op of a formed kernel is placed. -/
theorem placed_of_live (hF : k.Formed) {x : OpId} (hx : x ∈ k.liveOps) : ∃ b, k.placed x = .ok b := by
  have hsize : x.idx < k.ops.size := hF.placedExist x (hF.liveOps_eq ▸ hx)
  obtain ⟨b, hb⟩ := Option.isSome_iff_exists.1 (mem_liveOps_iff_placement.1 hx)
  refine ⟨b, ?_⟩
  simp [placed, checkOp, op?, hsize, hb, bind, Except.bind, pure, Except.pure]

/-- A live op of a formed kernel can be replaced by any op that passes the operand checks. -/
theorem replaceOp_live (hF : k.Formed) {x : OpId} (hx : x ∈ k.liveOps) {o : TileOp}
    (hc : k.checkOperands o = .ok ()) : ∃ y k', k.replaceOp x o = .ok (y, k') := by
  obtain ⟨b, hb⟩ := placed_of_live hF hx
  simp only [replaceOp, hb, hc, bind, Except.bind, pure, Except.pure]
  exact ⟨_, _, rfl⟩

/-- A live op of a formed kernel can be removed. -/
theorem removeOp_live (hF : k.Formed) {x : OpId} (hx : x ∈ k.liveOps) : ∃ k', k.removeOp x = .ok k' := by
  obtain ⟨b, hb⟩ := placed_of_live hF hx
  simp only [removeOp, hb, bind, Except.bind, pure, Except.pure]
  exact ⟨_, rfl⟩

/-- The op a replacement places is the given op, up to dependencies and schedule. -/
theorem replaceOp_op_new {x y : OpId} {o : TileOp} (h : k.replaceOp x o = .ok (y, k')) :
    (k'.op y).detached = o.detached := by
  obtain ⟨b, -, -, rfl, -, rfl⟩ := replaceOp_eq h
  have hops := (redirectDependents_alike (k := { k with ops := (k.ops.push
    { o with deps := (k.op x).deps, sched := (k.op x).sched }) }) x ⟨k.ops.size⟩).2.2.detached
      ⟨k.ops.size⟩ (by simp)
  rw [op_push_self] at hops
  simp only [Kernel.op, op?, ops_modifyBlock] at hops ⊢
  rw [hops]
  rfl

/-! ### Operand checks of fills -/

/-- An op that passes the operand checks has as many operands as its kind takes. -/
theorem arity_of_checkOperands {op : TileOp} (h : k.checkOperands op = .ok ()) :
    op.inputs.length = op.kind.arity.1 ∧ op.outputs.length = op.kind.arity.2 := by
  unfold checkOperands at h
  dsimp only at h
  split at h
  · simp [bind, Except.bind, throw, throwThe, MonadExceptOf.throw] at h
  · omega

/-- An op that passes the operand checks passes the window checks. -/
theorem checkWindows_of_checkOperands {op : TileOp} (h : k.checkOperands op = .ok ()) :
    k.checkWindows op = .ok () := by
  unfold checkOperands at h
  dsimp only at h
  split at h
  · simp [bind, Except.bind, throw, throwThe, MonadExceptOf.throw] at h
  · simp only [bind, Except.bind, pure, Except.pure] at h
    rcases hw : k.checkWindows op with e | ⟨⟩
    · simp [hw] at h
    · rfl

/-- The window checks pass for an op of the same name whose operands are among a checked op's. -/
theorem checkWindows_of_subset {op op' : TileOp} (hname : op'.name = op.name)
    (hsub : ∀ o ∈ op'.operands, o ∈ op.operands) (h : k.checkWindows op = .ok ()) :
    k.checkWindows op' = .ok () := by
  unfold checkWindows at h ⊢
  rw [hname]
  exact forM_except_eq_ok_iff.2 fun o ho => forM_except_eq_ok_iff.1 h o (hsub o ho)

/-- A fill of one output passes the operand checks when its window does. -/
theorem checkOperands_fill {op : TileOp} {v : Literal} (hk : op.kind = .fill v) (hin : op.inputs = [])
    (hout : op.outputs.length = 1) (hw : k.checkWindows op = .ok ()) : k.checkOperands op = .ok () := by
  unfold checkOperands
  simp [hk, hin, hout, OpKind.arity, hw, bind, Except.bind, pure, Except.pure]

/-! ### Live ops without dependencies -/

/-- The live ops in program order, each without dependencies or schedule: what simplification
reads of a kernel besides its buffers. -/
def liveView (k : Kernel) : List TileOp := k.liveOps.map fun h => (k.op h).detached

/-- A replacement puts the new op in the old one's place and leaves the other ops. -/
theorem replaceOp_at (hF : k.Formed) {N Q : List OpId} {x y : OpId} {o : TileOp}
    (hl : k.liveOps = N ++ x :: Q) (h : k.replaceOp x o = .ok (y, k')) :
    k'.liveOps = N ++ y :: Q ∧ N.map (fun z => (k'.op z).detached) = N.map (fun z => (k.op z).detached) ∧
      (k'.op y).detached = o.detached := by
  obtain ⟨P, R, hk, hk'⟩ := bodyOps_replaceOp h hF.loops_nodup hF.placedOnce
  rw [← hF.liveOps_eq, hl] at hk
  obtain ⟨rfl, rfl⟩ := split_eq_of_nodup (hl ▸ hF.liveOps_eq ▸ hF.placedOnce) hk
  refine ⟨(hF.replaceOp h).liveOps_eq.trans hk', List.map_congr_left fun z hz => ?_, replaceOp_op_new h⟩
  exact (replaceOp_alike h).detached z (hF.placedExist z (by
    rw [← hF.liveOps_eq, hl]
    exact List.mem_append_left _ hz))

/-- A removal takes the op out of its place. -/
theorem removeOp_at (hF : k.Formed) {N Q : List OpId} {x : OpId} (hl : k.liveOps = N ++ x :: Q)
    (h : k.removeOp x = .ok k') : k'.liveOps = N ++ Q := by
  obtain ⟨P, R, hk, hk'⟩ := bodyOps_removeOp h hF.loops_nodup hF.placedOnce
  rw [← hF.liveOps_eq, hl] at hk
  obtain ⟨rfl, rfl⟩ := split_eq_of_nodup (hl ▸ hF.liveOps_eq ▸ hF.placedOnce) hk
  exact (hF.removeOp h).liveOps_eq.trans hk'

/-! ### What simplification reads of an op -/

/-- The literal of a fill and the element type of the buffer it writes. -/
def fillTarget (k : Kernel) (op : TileOp) : Option (Literal × Scalar) :=
  match op.kind, op.outputs with
  | .fill v, out :: _ => some (v, (k.buffer out.buffer).dtype)
  | _, _ => none

/-- The literal normalizing gives a fill, when the cast to its type changes its value. -/
def renormalized (k : Kernel) (op : TileOp) : Option Literal :=
  (k.fillTarget op).bind fun p =>
    if (p.1.castValue p.2).sameValue p.1 then none else some (p.1.castValue p.2)

/-- An op as normalizing leaves it. -/
def normalizedOp (k : Kernel) (op : TileOp) : TileOp :=
  ((k.renormalized op).map fun v => { op with kind := .fill v }).getD op

theorem fillTarget_congr {op op' : TileOp} (hb : k'.buffers = k.buffers) (hd : op'.detached = op.detached) :
    k'.fillTarget op' = k.fillTarget op := by
  have hkind : op'.kind = op.kind := (congrArg TileOp.kind hd :)
  have hout : op'.outputs = op.outputs := (congrArg TileOp.outputs hd :)
  simp only [fillTarget, hkind, hout, Kernel.buffer, buffer?, hb]

theorem renormalized_congr {op op' : TileOp} (hb : k'.buffers = k.buffers) (hd : op'.detached = op.detached) :
    k'.renormalized op' = k.renormalized op := by
  simp only [renormalized, fillTarget_congr hb hd]

@[simp] theorem fillTarget_detached (op : TileOp) : k.fillTarget op.detached = k.fillTarget op := rfl

@[simp] theorem renormalized_detached (op : TileOp) : k.renormalized op.detached = k.renormalized op := rfl

theorem normalizedOp_of_none {op : TileOp} (h : k.renormalized op = none) : k.normalizedOp op = op := by
  simp [normalizedOp, h]

theorem normalizedOp_of_some {op : TileOp} {v : Literal} (h : k.renormalized op = some v) :
    k.normalizedOp op = { op with kind := .fill v } := by
  simp [normalizedOp, h]

/-! ### Normalizing fills -/

/-- Where normalizing stands after visiting `done`, with `rest` still to visit: the visited ops are
normalized in place, and the report says whether some visited op was replaced. -/
structure Normalizing (k : Kernel) (done rest : List OpId) (changed : Bool) (kx : Kernel) : Prop where
  formed : kx.Formed
  buffers : kx.buffers = k.buffers
  alike : k.OpsAlike kx
  live : ∃ N, kx.liveOps = N ++ rest ∧
    N.map (fun z => (kx.op z).detached) = done.map fun z => k.normalizedOp (k.op z).detached
  unchanged : changed = false → kx = k
  replaced : changed = true ↔ ∃ h ∈ done, (k.renormalized (k.op h)).isSome

/-- The loop of normalizing, for any step that keeps the kernel or replaces the op it visits by its
normalized fill. -/
theorem normalize_loop {f : Bool → OpId → KernelM KernelError Bool} (hF : k.Formed)
    (hf : ∀ c kx h, kx.Formed → kx.buffers = k.buffers → h ∈ kx.liveOps →
      ∃ c' kx', (f c h).run kx = .ok (.ok c', kx') ∧
      ((kx.renormalized (kx.op h) = none ∧ c' = c ∧ kx' = kx) ∨
       (∃ v y, kx.renormalized (kx.op h) = some v ∧ c' = true ∧
          kx.replaceOp h { (kx.op h).detached with kind := .fill v } = .ok (y, kx')))) :
    ∀ (rest done : List OpId) (c : Bool) (kx : Kernel), k.liveOps = done ++ rest →
      k.Normalizing done rest c kx →
        ∃ c' k', (rest.foldlM f c).run kx = .ok (.ok c', k') ∧ k.Normalizing (done ++ rest) [] c' k'
  | [], done, c, kx, _, hI => ⟨c, kx, rfl, by simpa using hI⟩
  | h :: rest, done, c, kx, hl, hI => by
    obtain ⟨N, hN, hmap⟩ := hI.live
    have hk : h.idx < k.ops.size := hF.placedExist h (by
      rw [← hF.liveOps_eq, hl]
      exact List.mem_append_right _ List.mem_cons_self)
    have hD : (kx.op h).detached = (k.op h).detached := hI.alike.detached h hk
    have hren : kx.renormalized (kx.op h) = k.renormalized (k.op h) := renormalized_congr hI.buffers hD
    obtain ⟨c', kx', hrun, hstep⟩ := hf c kx h hI.formed hI.buffers
      (by rw [hN]; exact List.mem_append_right _ List.mem_cons_self)
    -- The visited op is now normalized in place, either kept or replaced.
    have hnext : k.Normalizing (done ++ [h]) rest c' kx' := by
      rcases hstep with ⟨hnone, rfl, rfl⟩ | ⟨v, y, hsome, rfl, hr⟩
      · rw [hren] at hnone
        refine ⟨hI.formed, hI.buffers, hI.alike, ⟨N ++ [h], by simp [hN], ?_⟩, hI.unchanged, ?_⟩
        · simp [hmap, hD, normalizedOp_of_none (show k.renormalized (k.op h).detached = none from hnone)]
        · simp [hI.replaced, hnone]
      · obtain ⟨hl', hN', hy⟩ := replaceOp_at hI.formed hN hr
        rw [hren] at hsome
        refine ⟨hI.formed.replaceOp hr, (replaceOp_buffers hr).trans hI.buffers,
          hI.alike.trans (replaceOp_alike hr), ⟨N ++ [y], by simp [hl'], ?_⟩, by simp,
          iff_of_true rfl ⟨h, by simp, by simp [hsome]⟩⟩
        rw [List.map_append, hN', hmap, List.map_singleton, hy, List.map_append, List.map_singleton,
          normalizedOp_of_some (show k.renormalized (k.op h).detached = some v from hsome), hD]
        rfl
    obtain ⟨c'', k', hrest, hI'⟩ := normalize_loop hF hf rest (done ++ [h]) c' kx' (by simp [hl]) hnext
    refine ⟨c'', k', ?_, by simpa using hI'⟩
    rw [List.foldlM_cons]
    exact KernelM.run_bind_eq_ok.2 ⟨c', kx', hrun, hrest⟩

/-- The whole loop of normalizing, from the first live op to the last. -/
theorem normalize_run {f : Bool → OpId → KernelM KernelError Bool} (hF : k.Formed)
    (hf : ∀ c kx h, kx.Formed → kx.buffers = k.buffers → h ∈ kx.liveOps →
      ∃ c' kx', (f c h).run kx = .ok (.ok c', kx') ∧
      ((kx.renormalized (kx.op h) = none ∧ c' = c ∧ kx' = kx) ∨
       (∃ v y, kx.renormalized (kx.op h) = some v ∧ c' = true ∧
          kx.replaceOp h { (kx.op h).detached with kind := .fill v } = .ok (y, kx')))) :
    ∃ c k', (k.liveOps.foldlM f false).run k = .ok (.ok c, k') ∧ k'.Formed ∧ k'.buffers = k.buffers ∧
      k'.liveView = k.liveView.map k.normalizedOp ∧ (c = false → k' = k) ∧
      (c = true ↔ ∃ op ∈ k.liveView, (k.renormalized op).isSome) := by
  have start : k.Normalizing [] k.liveOps false k :=
    ⟨hF, rfl, .refl k, ⟨[], rfl, rfl⟩, fun _ => rfl, by simp⟩
  obtain ⟨c, k', hrun, hI⟩ := normalize_loop hF hf k.liveOps [] false k rfl start
  obtain ⟨N, hN, hmap⟩ := hI.live
  refine ⟨c, k', hrun, hI.formed, hI.buffers, ?_, hI.unchanged, hI.replaced.trans ?_⟩
  · simp only [liveView, hN, List.append_nil, hmap, List.nil_append, List.map_map]
    rfl
  · simp [liveView]

/-- Normalizing a formed kernel succeeds. It normalizes every live op in place, keeps the kernel
when it reports no change, and reports a change only when some live fill changes value under the
cast to its type. -/
theorem normalizeFills_spec (hF : k.Formed) (hc : k.Castable) :
    ∃ c k', normalizeFills.run k = .ok (.ok c, k') ∧ k'.Formed ∧ k'.buffers = k.buffers ∧
      k'.liveView = k.liveView.map k.normalizedOp ∧ (c = false → k' = k) ∧
      (c = true ↔ ∃ op ∈ k.liveView, (k.renormalized op).isSome) := by
  unfold normalizeFills
  rw [KernelM.run_get_bind]
  refine normalize_run hF fun c kx h hFx hbx hh => ?_
  rw [KernelM.run_get_bind]
  dsimp only
  split
  · rename_i value out rest hkind hout
    have hft : kx.fillTarget (kx.op h) = some (value, (kx.buffer out.buffer).dtype) := by
      simp [fillTarget, hkind, hout]
    -- The cast answers, every type of the kernel being castable.
    have hcast := Literal.cast_eq_ok ((hc.of_buffers hbx).buffer out.buffer) value
    rw [KernelM.run_bind_of_ok (KernelM.run_liftM_eq_ok.2 ⟨hcast, rfl⟩)]
    split
    · rename_i hsame
      exact ⟨c, kx, rfl, .inl ⟨by simp [renormalized, hft, hsame], rfl, rfl⟩⟩
    · rename_i hsame
      have hchk := hFx.operandsChecked h (hFx.placedExist h (hFx.liveOps_eq ▸ hh))
      obtain ⟨hin, hlen⟩ := arity_of_checkOperands hchk
      rw [hkind] at hin hlen
      have hw := checkWindows_of_checkOperands hchk
      have hc : kx.checkOperands
          { (kx.op h).detached with kind := .fill (value.castValue (kx.buffer out.buffer).dtype) } = .ok () :=
        checkOperands_fill rfl (List.eq_nil_of_length_eq_zero hin) hlen
          (checkWindows_of_subset rfl (fun o ho => ho) hw)
      obtain ⟨y, kx', hr⟩ := replaceOp_live hFx hh hc
      refine ⟨true, kx', ?_, .inr ⟨_, y, by simp [renormalized, hft, hsame], rfl, hr⟩⟩
      exact KernelM.run_bind_eq_ok.2 ⟨y, kx', KernelM.run_edit.2 hr, rfl⟩
  · rename_i hnot
    have hft : kx.fillTarget (kx.op h) = none := by
      unfold fillTarget
      split
      · rename_i v out rest hkind hout
        exact (hnot v out rest hkind hout).elim
      · rfl
    exact ⟨c, kx, rfl, .inl ⟨by simp [renormalized, hft], rfl, rfl⟩⟩

/-! ### Folding constants -/

/-- The fill an op folds to when its cast answers. -/
def foldedOp (k : Kernel) (d : DefUse) (h : OpId) : Option TileOp :=
  (foldSource k d h).map fun p => TileOp.fill (k.op h).name (p.1.castValue (k.buffer p.2.buffer).dtype) p.2

/-- On a kernel of castable types folding answers its fill. -/
theorem foldedFill_eq_ok (hc : k.Castable) (d : DefUse) (h : OpId) :
    foldedFill k d h = .ok (foldedOp k d h) := by
  unfold foldedFill foldedOp
  rcases hs : foldSource k d h with _ | ⟨v, out⟩
  · rfl
  · simp only [Literal.cast_eq_ok (hc.buffer out.buffer), Option.map_some]
    rfl

/-- The fill an op folds to is a fill of a cast literal into the op's first output, and only
elementwise ops and casts fold. -/
theorem foldedOp_eq {d : DefUse} {h : OpId} {f : TileOp} (hf : foldedOp k d h = some f) :
    ∃ out rest, ∃ x : Literal, (k.op h).outputs = out :: rest ∧
      f = TileOp.fill (k.op h).name (x.castValue (k.buffer out.buffer).dtype) out ∧
      ((k.op h).kind = .cast ∨ ∃ b, (k.op h).kind = .elementwise b) := by
  obtain ⟨⟨x, out⟩, hs, rfl⟩ := Option.map_eq_some_iff.1 hf
  unfold foldSource at hs
  dsimp only at hs
  split at hs
  · cases hs
  · rename_i out' rest hout
    split at hs
    · cases hs
    · split at hs
      · rename_i bin a b hkind _
        obtain ⟨rfl, rfl⟩ := Prod.mk.inj (Option.some.inj hs)
        exact ⟨out', rest, _, hout, rfl, .inr ⟨bin, hkind⟩⟩
      · rename_i a hkind _
        obtain ⟨rfl, rfl⟩ := Prod.mk.inj (Option.some.inj hs)
        exact ⟨out', rest, a, hout, rfl, .inl hkind⟩
      · cases hs

/-- What folding leaves at a live op: its fill if it folds, the op otherwise. -/
def foldedView (k : Kernel) (d : DefUse) (h : OpId) : TileOp :=
  ((foldedOp k d h).getD (k.op h)).detached

/-- The replacement pairs of folding. -/
def foldPairs (k : Kernel) (d : DefUse) (ops : List OpId) : List (OpId × TileOp) :=
  ops.filterMap fun h => (foldedOp k d h).map fun f => (h, f)

/-- Where folding stands after the live ops `done`, with `rest` still ahead. -/
structure Folding (k : Kernel) (done rest : List OpId) (kx : Kernel) : Prop where
  formed : kx.Formed
  buffers : kx.buffers = k.buffers
  alike : k.OpsAlike kx
  live : ∃ N, kx.liveOps = N ++ rest ∧
    N.map (fun z => (kx.op z).detached) = done.map (k.foldedView (DefUse.build k))

/-- The loop of folding, for a step that replaces an op by its fill. -/
theorem fold_loop {f : OpId × TileOp → KernelM KernelError PUnit} (hF : k.Formed)
    (hf : ∀ kx h o y kx', kx.replaceOp h o = .ok (y, kx') → (f (h, o)).run kx = .ok (.ok (), kx')) :
    ∀ (rest done : List OpId) (kx : Kernel), k.liveOps = done ++ rest → k.Folding done rest kx →
      ∃ k', ((k.foldPairs (DefUse.build k) rest).forM f).run kx = .ok (.ok (), k') ∧
        k.Folding (done ++ rest) [] k'
  | [], done, kx, _, hI => ⟨kx, rfl, by simpa using hI⟩
  | h :: rest, done, kx, hl, hI => by
    obtain ⟨N, hN, hmap⟩ := hI.live
    have hmem : h ∈ k.liveOps := by
      rw [hl]
      exact List.mem_append_right _ List.mem_cons_self
    have hk : h.idx < k.ops.size := hF.placedExist h (hF.liveOps_eq ▸ hmem)
    have hD : (kx.op h).detached = (k.op h).detached := hI.alike.detached h hk
    rcases hfold : foldedOp k (DefUse.build k) h with _ | o
    · -- The op does not fold: nothing happens, and it stays in place.
      have hnext : k.Folding (done ++ [h]) rest kx := ⟨hI.formed, hI.buffers, hI.alike,
        ⟨N ++ [h], by simp [hN], by simp [hmap, hD, foldedView, hfold]⟩⟩
      obtain ⟨k', hrest, hI'⟩ := fold_loop hF hf rest (done ++ [h]) kx (by simp [hl]) hnext
      refine ⟨k', ?_, by simpa using hI'⟩
      simpa [foldPairs, hfold] using hrest
    · -- The op folds: it is replaced by its fill, which passes the operand checks.
      obtain ⟨out, tail, x, hout, rfl, -⟩ := foldedOp_eq hfold
      have hlive : h ∈ kx.liveOps := by
        rw [hN]
        exact List.mem_append_right _ List.mem_cons_self
      have hchk := hI.formed.operandsChecked h (hI.formed.placedExist h (hI.formed.liveOps_eq ▸ hlive))
      have hw := checkWindows_of_checkOperands hchk
      have hname : (k.op h).name = (kx.op h).name := (congrArg TileOp.name hD :).symm
      have hout' : (kx.op h).outputs = out :: tail := (congrArg TileOp.outputs hD :).trans hout
      have hc : kx.checkOperands (TileOp.fill (k.op h).name (x.castValue (k.buffer out.buffer).dtype) out) = .ok () :=
        checkOperands_fill rfl rfl rfl (checkWindows_of_subset hname (fun o ho => by
          simp only [TileOp.fill, TileOp.operands, List.nil_append, List.mem_singleton] at ho
          simp [TileOp.operands, hout', ho]) hw)
      obtain ⟨y, kx', hr⟩ := replaceOp_live hI.formed hlive hc
      obtain ⟨hl', hN', hy⟩ := replaceOp_at hI.formed hN hr
      have hnext : k.Folding (done ++ [h]) rest kx' := ⟨hI.formed.replaceOp hr,
        (replaceOp_buffers hr).trans hI.buffers, hI.alike.trans (replaceOp_alike hr),
        ⟨N ++ [y], by simp [hl'], by simp [hN', hmap, hy, foldedView, hfold]⟩⟩
      obtain ⟨k', hrest, hI'⟩ := fold_loop hF hf rest (done ++ [h]) kx' (by simp [hl]) hnext
      refine ⟨k', ?_, by simpa using hI'⟩
      simp only [foldPairs, List.filterMap_cons, hfold, Option.map_some] at hrest ⊢
      exact KernelM.run_bind_eq_ok.2 ⟨(), kx', hf kx h _ y kx' hr, hrest⟩

/-- Folding a formed kernel succeeds. It replaces every live op that folds by its fill, in place,
keeps the kernel when it reports no change, and reports a change exactly when some live op folds. -/
theorem foldConstants_spec (hF : k.Formed) (hcast : k.Castable) :
    ∃ c k', foldConstants.run k = .ok (.ok c, k') ∧ k'.Formed ∧ k'.buffers = k.buffers ∧
      k'.liveView = k.liveOps.map (k.foldedView (DefUse.build k)) ∧ (c = false → k' = k) ∧
      (c = true ↔ ∃ h ∈ k.liveOps, (foldedOp k (DefUse.build k) h).isSome) := by
  unfold foldConstants
  rw [KernelM.run_get_bind]
  -- Every fold answers, so the list of folds is the list of pairs.
  have hfolds : k.liveOps.mapM (fun h => do return (← foldedFill k (DefUse.build k) h).map fun f => (h, f)) =
      .ok (k.liveOps.map fun h => (foldedOp k (DefUse.build k) h).map fun f => (h, f)) :=
    mapM_eq_ok_map fun h _ => by
      rw [foldedFill_eq_ok hcast]
      rfl
  rw [KernelM.run_bind_of_ok (KernelM.run_liftM_eq_ok.2 ⟨hfolds, rfl⟩)]
  have hpairs : (k.liveOps.map fun h => (foldedOp k (DefUse.build k) h).map fun f => (h, f)).reduceOption =
      k.foldPairs (DefUse.build k) k.liveOps := by
    simp only [List.reduceOption, List.filterMap_map, foldPairs]
    rfl
  simp only [hpairs]
  have start : k.Folding [] k.liveOps k := ⟨hF, rfl, .refl k, ⟨[], rfl, rfl⟩⟩
  obtain ⟨k', hrun, hI⟩ := fold_loop (f := fun p => do let _ ← KernelM.edit (·.replaceOp p.1 p.2))
    hF (fun kx h o y kx' hr => KernelM.run_bind_eq_ok.2 ⟨y, kx', KernelM.run_edit.2 hr, rfl⟩)
    k.liveOps [] k rfl start
  obtain ⟨N, hN, hmap⟩ := hI.live
  refine ⟨_, k', KernelM.run_bind_eq_ok.2 ⟨(), k', hrun, rfl⟩, hI.formed, hI.buffers, ?_, fun hc => ?_, ?_⟩
  · simpa [liveView, hN] using hmap
  · -- Nothing folds, so the loop runs over no pair.
    have hnil : k.foldPairs (DefUse.build k) k.liveOps = [] :=
      List.isEmpty_iff.1 (by simpa [foldPairs] using hc)
    rw [hnil] at hrun
    exact (Prod.mk.inj (Except.ok.inj hrun)).2.symm
  · simp [foldPairs, List.filterMap_eq_nil_iff, Option.isSome_iff_ne_none]

/-! ### Removing dead ops -/

/-- The ops that removing dead ops keeps: the roots and, transitively, the writers of what they read. -/
def needed (k : Kernel) : List OpId :=
  liveClosure k (DefUse.build k) (k.liveOps.length + 1) (k.liveOps.filter fun h => isRootOp k (k.op h))

/-- Where removal stands after the live ops `done`, with `rest` still ahead. -/
structure Removing (k : Kernel) (done rest : List OpId) (kx : Kernel) : Prop where
  formed : kx.Formed
  buffers : kx.buffers = k.buffers
  alike : k.OpsAlike kx
  live : kx.liveOps = done.filter (k.needed.contains ·) ++ rest

/-- The loop of removal, for a step that removes an op. -/
theorem remove_loop {f : OpId → KernelM KernelError PUnit} (hF : k.Formed)
    (hf : ∀ kx h kx', kx.removeOp h = .ok kx' → (f h).run kx = .ok (.ok (), kx')) :
    ∀ (rest done : List OpId) (kx : Kernel), k.liveOps = done ++ rest → k.Removing done rest kx →
      ∃ k', ((rest.filter fun h => !k.needed.contains h).forM f).run kx = .ok (.ok (), k') ∧
        k.Removing (done ++ rest) [] k'
  | [], done, kx, _, hI => ⟨kx, rfl, by simpa using hI⟩
  | h :: rest, done, kx, hl, hI => by
    by_cases hkeep : h ∈ k.needed
    · -- A needed op stays where it is.
      have hnext : k.Removing (done ++ [h]) rest kx := ⟨hI.formed, hI.buffers, hI.alike,
        by simp [hI.live, List.filter_append, hkeep]⟩
      obtain ⟨k', hrest, hI'⟩ := remove_loop hF hf rest (done ++ [h]) kx (by simp [hl]) hnext
      exact ⟨k', by simpa [hkeep] using hrest, by simpa using hI'⟩
    · -- A dead op is removed from its place.
      have hlive : h ∈ kx.liveOps := by
        rw [hI.live]
        exact List.mem_append_right _ List.mem_cons_self
      obtain ⟨kx', hr⟩ := removeOp_live hI.formed hlive
      have hnext : k.Removing (done ++ [h]) rest kx' := ⟨hI.formed.removeOp hr,
        (removeOp_buffers hr).trans hI.buffers, hI.alike.trans (removeOp_alike hr),
        by rw [removeOp_at hI.formed hI.live hr]; simp [List.filter_append, hkeep]⟩
      obtain ⟨k', hrest, hI'⟩ := remove_loop hF hf rest (done ++ [h]) kx' (by simp [hl]) hnext
      refine ⟨k', ?_, by simpa using hI'⟩
      have hdead : (!k.needed.contains h) = true := by simpa using hkeep
      rw [List.filter_cons_of_pos (p := fun h => !k.needed.contains h) hdead]
      exact KernelM.run_bind_eq_ok.2 ⟨(), kx', hf kx h kx' hr, hrest⟩

/-- Removing dead ops from a formed kernel succeeds. It keeps exactly the needed live ops, in order,
keeps the kernel when it reports no change, and reports a change exactly when some live op is not
needed. -/
theorem removeDead_spec (hF : k.Formed) :
    ∃ c k', removeDead.run k = .ok (.ok c, k') ∧ k'.Formed ∧ k'.buffers = k.buffers ∧
      k'.liveView = (k.liveOps.filter (k.needed.contains ·)).map (fun h => (k.op h).detached) ∧
      (c = false → k' = k) ∧ (c = true ↔ ∃ h ∈ k.liveOps, k.needed.contains h = false) := by
  unfold removeDead
  rw [KernelM.run_get_bind]
  have start : k.Removing [] k.liveOps k := ⟨hF, rfl, .refl k, by simp⟩
  obtain ⟨k', hrun, hI⟩ := remove_loop (f := fun h => KernelM.update (·.removeOp h))
    hF (fun kx h kx' hr => KernelM.run_update.2 hr) k.liveOps [] k rfl start
  refine ⟨_, k', KernelM.run_bind_eq_ok.2 ⟨(), k', hrun, rfl⟩, hI.formed, hI.buffers, ?_, fun hc => ?_, ?_⟩
  · rw [liveView, hI.live, List.append_nil, List.nil_append]
    refine List.map_congr_left fun h hh => hI.alike.detached h (hF.placedExist h ?_)
    rw [← hF.liveOps_eq]
    exact (List.mem_filter.1 hh).1
  · -- Every live op is needed, so the loop removes nothing.
    have hnil : (k.liveOps.filter fun h => !k.needed.contains h) = [] :=
      List.isEmpty_iff.1 (by simpa [needed] using hc)
    rw [hnil] at hrun
    exact (Prod.mk.inj (Except.ok.inj hrun)).2.symm
  · simp [List.filter_eq_nil_iff, needed]

/-! ### A round of simplification -/

/-- How much simplification can still do to a list of live ops: remove any of them, and fold any
that is not a fill. -/
def pendingOf (ops : List TileOp) : Nat := ops.length + ops.countP fun op => op.kind.tag != .fill

/-- How much simplification can still do to a kernel. -/
def pending (k : Kernel) : Nat := pendingOf k.liveView

/-- A fill is normalized or holds a cast literal. -/
def FillCast (k : Kernel) (op : TileOp) : Prop :=
  ∀ v s, k.fillTarget op = some (v, s) → (v.castValue s).sameValue v = true ∨ ∃ w : Literal, v = w.castValue s

/-- Every live fill is normalized or holds a cast literal: what a round of simplification leaves. -/
def FillsCast (k : Kernel) : Prop := ∀ op ∈ k.liveView, k.FillCast op

/-- No live fill changes value under the cast to its type. -/
def FillsSettled (k : Kernel) : Prop := ∀ op ∈ k.liveView, k.renormalized op = none

/-- Some live fill holds a literal that is a NaN in the type of the buffer it writes. -/
def HoldsNaNFill (k : Kernel) : Prop :=
  ∃ h ∈ k.liveOps, ∃ v out rest, (k.op h).kind = .fill v ∧ (k.op h).outputs = out :: rest ∧
    (v.castValue (k.buffer out.buffer).dtype).isNaN = true

theorem pendingOf_le (ops : List TileOp) : pendingOf ops ≤ 2 * ops.length := by
  have := List.countP_le_length (p := fun op : TileOp => op.kind.tag != .fill) (l := ops)
  unfold pendingOf
  omega

/-- Normalizing keeps every op a fill or not a fill. -/
theorem pendingOf_map_normalizedOp (ops : List TileOp) : pendingOf (ops.map k.normalizedOp) = pendingOf ops := by
  have htag : ∀ op : TileOp, (k.normalizedOp op).kind.tag = op.kind.tag := by
    intro op
    rcases hr : k.renormalized op with _ | v
    · rw [normalizedOp_of_none hr]
    · rw [normalizedOp_of_some hr]
      obtain ⟨p, hp, -⟩ := Option.bind_eq_some_iff.1 hr
      unfold fillTarget at hp
      split at hp
      · rename_i hkind _
        simp [hkind, OpKind.tag]
      · cases hp
  simp only [pendingOf, List.length_map, List.countP_map]
  congr 1
  exact List.countP_congr fun op _ => by simp [htag]

theorem fillCast_congr {op : TileOp} (hb : k'.buffers = k.buffers) (h : k.FillCast op) : k'.FillCast op := by
  intro v s hv
  rw [fillTarget_congr hb rfl] at hv
  exact h v s hv

/-- A fill given another literal writes to the same type. -/
theorem fillTarget_refill {op : TileOp} {v : Literal} {s : Scalar} (h : k.fillTarget op = some (v, s))
    (w : Literal) : k.fillTarget { op with kind := .fill w } = some (w, s) := by
  unfold fillTarget at h ⊢
  split at h
  · rename_i out rest _ hout
    obtain ⟨-, rfl⟩ := Prod.mk.inj (Option.some.inj h)
    simp [hout]
  · cases h

/-- A normalized op is a normalized fill or holds the cast literal. -/
theorem fillCast_normalizedOp (op : TileOp) : k.FillCast (k.normalizedOp op) := by
  intro v s hv
  rcases hr : k.renormalized op with _ | w
  · rw [normalizedOp_of_none hr] at hv
    left
    simpa [renormalized, hv] using hr
  · rw [normalizedOp_of_some hr] at hv
    obtain ⟨⟨v₀, s₀⟩, hp, hw⟩ := Option.bind_eq_some_iff.1 hr
    rw [fillTarget_refill hp w] at hv
    obtain ⟨rfl, rfl⟩ := Prod.mk.inj (Option.some.inj hv)
    split at hw
    · cases hw
    · exact .inr ⟨v₀, (Option.some.inj hw).symm⟩

/-- Counting by a stronger predicate counts strictly fewer when some member satisfies only the
weaker one. -/
theorem countP_lt_of_mem {α : Type} {p q : α → Bool} :
    ∀ {l : List α}, (∀ x ∈ l, p x → q x) → ∀ x ∈ l, q x → p x = false → l.countP p < l.countP q
  | [], _, _, hx, _, _ => absurd hx List.not_mem_nil
  | a :: l, hle, x, hx, hq, hp => by
    have hle' : ∀ y ∈ l, p y → q y := fun y hy => hle y (List.mem_cons_of_mem a hy)
    have hmono := List.countP_mono_left hle'
    rw [List.countP_cons, List.countP_cons]
    rcases List.mem_cons.1 hx with rfl | hx
    · simp only [hq, hp, if_true, Bool.false_eq_true, if_false]
      omega
    · have := countP_lt_of_mem hle' x hx hq hp
      by_cases ha : p a = true
      · simp only [ha, hle a List.mem_cons_self ha, if_true]
        omega
      · have ha' : p a = false := by simpa using ha
        simp only [ha', Bool.false_eq_true, if_false]
        split <;> omega

/-- Folding turns ops that are not fills into fills, so what is pending falls by at least one when
something folds. -/
theorem pendingOf_fold {d : DefUse} (L : List OpId) :
    pendingOf (L.map (k.foldedView d)) ≤ pendingOf (L.map fun h => (k.op h).detached) ∧
      ((∃ h ∈ L, (foldedOp k d h).isSome) →
        pendingOf (L.map (k.foldedView d)) < pendingOf (L.map fun h => (k.op h).detached)) := by
  have hfold : ∀ h, (foldedOp k d h).isSome → (k.foldedView d h).kind.tag = .fill ∧
      (k.op h).kind.tag ≠ .fill := by
    intro h hs
    obtain ⟨f, hf⟩ := Option.isSome_iff_exists.1 hs
    obtain ⟨out, rest, x, -, rfl, hkind⟩ := foldedOp_eq hf
    refine ⟨by simp [foldedView, hf, TileOp.fill, TileOp.detached, OpKind.tag], ?_⟩
    rcases hkind with hkind | ⟨b, hkind⟩ <;> simp [hkind, OpKind.tag]
  have hle : ∀ h ∈ L, (k.foldedView d h).kind.tag != .fill → (k.op h).detached.kind.tag != .fill := by
    intro h _ hne
    rcases hs : foldedOp k d h with _ | f
    · simpa [foldedView, hs] using hne
    · have := (hfold h (by simp [hs])).1
      simp [this] at hne
  simp only [pendingOf, List.length_map, List.countP_map]
  refine ⟨Nat.add_le_add_left (List.countP_mono_left hle) _, fun hex => ?_⟩
  obtain ⟨h, hh, hs⟩ := hex
  have := countP_lt_of_mem hle h hh (by simpa [TileOp.detached] using (hfold h hs).2)
    (by simpa using (hfold h hs).1)
  exact Nat.add_lt_add_left this _

/-- What folding leaves is a fill of a cast literal, or the op as it was. -/
theorem fillCast_foldedView {d : DefUse} {h : OpId} (hc : k.FillCast (k.op h).detached) :
    k.FillCast (k.foldedView d h) := by
  rcases hs : foldedOp k d h with _ | f
  · simpa [foldedView, hs] using hc
  · obtain ⟨out, rest, x, -, rfl, -⟩ := foldedOp_eq hs
    intro v s hv
    simp only [foldedView, hs, Option.getD_some, fillTarget, TileOp.fill] at hv
    obtain ⟨rfl, rfl⟩ := hv
    exact .inr ⟨x, rfl⟩

/-- Removing ops takes nothing away from what remains and falls by at least one when it removes. -/
theorem pendingOf_remove (L : List OpId) (keep : OpId → Bool) :
    pendingOf ((L.filter keep).map fun h => (k.op h).detached) ≤ pendingOf (L.map fun h => (k.op h).detached) ∧
      ((∃ h ∈ L, keep h = false) →
        pendingOf ((L.filter keep).map fun h => (k.op h).detached) < pendingOf (L.map fun h => (k.op h).detached)) := by
  have hsub := (List.filter_sublist (p := keep) (l := L)).map fun h => (k.op h).detached
  have hcount := hsub.countP_le (p := fun op : TileOp => op.kind.tag != .fill)
  have hlen : (L.filter keep).length ≤ L.length := List.length_filter_le keep L
  simp only [pendingOf, List.length_map]
  refine ⟨by omega, fun hex => ?_⟩
  obtain ⟨h, hh, hk⟩ := hex
  have : (L.filter keep).length < L.length := by
    have hall : L.countP (fun _ => true) = L.length := by simp
    rw [← List.countP_eq_length_filter, ← hall]
    exact countP_lt_of_mem (fun _ _ _ => rfl) h hh rfl hk
  omega

/-- Where every live fill is normalized or cast, and none is a NaN, every live fill is settled:
a cast literal casts to itself. -/
theorem fillsSettled_of_fillsCast (hc : k.FillsCast) (hn : ¬ k.HoldsNaNFill) : k.FillsSettled := by
  intro op hop
  rcases ht : k.fillTarget op with _ | ⟨v, s⟩
  · simp [renormalized, ht]
  · -- A fill with a NaN cast would be a live NaN fill.
    have hnan : (v.castValue s).isNaN = false := by
      obtain ⟨h, hh, rfl⟩ := List.mem_map.1 hop
      unfold fillTarget at ht
      split at ht
      · rename_i w out rest hkind hout
        obtain ⟨rfl, rfl⟩ := Prod.mk.inj (Option.some.inj ht)
        by_contra hne
        exact hn ⟨h, hh, w, out, rest, hkind, hout, by simpa using hne⟩
      · cases ht
    rcases hc op hop v s ht with hsame | ⟨w, rfl⟩
    · simp [renormalized, ht, hsame]
    · rw [Literal.castValue_castValue] at hnan
      simp [renormalized, ht, Literal.sameValue_castValue_castValue, hnan]

/-- A round runs its three stages in turn and reports whether any of them changed something. -/
theorem simplify_run_of_stages {c₁ c₂ c₃ : Bool} {k₁ k₂ k₃ : Kernel}
    (h₁ : normalizeFills.run k = .ok (.ok c₁, k₁)) (h₂ : foldConstants.run k₁ = .ok (.ok c₂, k₂))
    (h₃ : removeDead.run k₂ = .ok (.ok c₃, k₃)) :
    simplify.run k = .ok (.ok (c₁ || c₂ || c₃), k₃) :=
  KernelM.run_bind_eq_ok.2 ⟨c₁, k₁, h₁, KernelM.run_bind_eq_ok.2 ⟨c₂, k₂, h₂,
    KernelM.run_bind_eq_ok.2 ⟨c₃, k₃, h₃, rfl⟩⟩⟩

/-- **One round of simplification.** On a formed kernel a round succeeds and leaves a formed
kernel over the same buffers whose live fills are normalized or cast. What is pending never grows;
a round that reports no change leaves the kernel as it was; and a round that starts with every fill
settled and reports a change folds or removes something, so what is pending falls. -/
theorem simplify_round (hF : k.Formed) (hcast : k.Castable) :
    ∃ c k', simplify.run k = .ok (.ok c, k') ∧ k'.Formed ∧ k'.buffers = k.buffers ∧ k'.FillsCast ∧
      k'.pending ≤ k.pending ∧ (c = false → k' = k) ∧ (k.FillsSettled → c = true → k'.pending < k.pending) := by
  obtain ⟨c₁, k₁, h₁, hF₁, hb₁, hv₁, hk₁, hc₁⟩ := normalizeFills_spec hF hcast
  obtain ⟨c₂, k₂, h₂, hF₂, hb₂, hv₂, hk₂, hc₂⟩ := foldConstants_spec hF₁ (hcast.of_buffers hb₁)
  obtain ⟨c₃, k₃, h₃, hF₃, hb₃, hv₃, hk₃, hc₃⟩ := removeDead_spec hF₂
  have hrun := simplify_run_of_stages h₁ h₂ h₃
  -- Each stage's effect on the live ops.
  have hp₁ : k₁.pending = k.pending := by rw [pending, pending, hv₁, pendingOf_map_normalizedOp]
  obtain ⟨hp₂, hp₂'⟩ := pendingOf_fold (k := k₁) (d := DefUse.build k₁) k₁.liveOps
  obtain ⟨hp₃, hp₃'⟩ := pendingOf_remove (k := k₂) k₂.liveOps (k₂.needed.contains ·)
  rw [← hv₂] at hp₂ hp₂'
  rw [← hv₃] at hp₃ hp₃'
  change k₂.pending ≤ k₁.pending at hp₂
  change _ → k₂.pending < k₁.pending at hp₂'
  change k₃.pending ≤ k₂.pending at hp₃
  change _ → k₃.pending < k₂.pending at hp₃'
  have hcast₁ : k₁.FillsCast := by
    intro op hop
    rw [hv₁] at hop
    obtain ⟨op₀, -, rfl⟩ := List.mem_map.1 hop
    exact fillCast_congr hb₁ (fillCast_normalizedOp op₀)
  have hcast₂ : k₂.FillsCast := by
    intro op hop
    rw [hv₂] at hop
    obtain ⟨h, hh, rfl⟩ := List.mem_map.1 hop
    exact fillCast_congr hb₂ (fillCast_foldedView (hcast₁ _ (List.mem_map.2 ⟨h, hh, rfl⟩)))
  have hcast₃ : k₃.FillsCast := by
    intro op hop
    rw [hv₃] at hop
    obtain ⟨h, hh, rfl⟩ := List.mem_map.1 hop
    exact fillCast_congr hb₃ (hcast₂ _ (List.mem_map.2 ⟨h, (List.mem_filter.1 hh).1, rfl⟩))
  refine ⟨_, k₃, hrun, hF₃, hb₃.trans (hb₂.trans hb₁), hcast₃, by omega,
    fun hc => ?_, fun hs hc => ?_⟩
  · simp only [Bool.or_eq_false_iff] at hc
    rw [hk₃ hc.2, hk₂ hc.1.2, hk₁ hc.1.1]
  · -- Settled fills are not normalized, so the change is a fold or a removal.
    have hn₁ : c₁ = false := by
      by_contra hne
      obtain ⟨op, hop, hs'⟩ := hc₁.1 (by simpa using hne)
      simp [hs op hop] at hs'
    rw [hn₁, Bool.false_or, Bool.or_eq_true] at hc
    rcases hc with hc | hc
    · have := hp₂' (hc₂.1 hc)
      omega
    · obtain ⟨h, hh, hk⟩ := hc₃.1 hc
      have := hp₃' ⟨h, hh, hk⟩
      omega

/-! ### A fill of NaN into global memory -/

/-- An op fills a global buffer with a literal that is a NaN in the buffer's type. Such a fill is
a root, so removal keeps it, and its literal differs from its own cast, so normalizing replaces it
by a fill that is again a NaN. -/
def NaNRoot (k : Kernel) (op : TileOp) : Prop :=
  ∃ v out rest, op.kind = .fill v ∧ op.outputs = out :: rest ∧ (k.buffer out.buffer).scope = .global ∧
    (v.castValue (k.buffer out.buffer).dtype).isNaN = true

/-- Some live op fills a global buffer with a NaN. -/
def HoldsGlobalNaNFill (k : Kernel) : Prop := ∃ op ∈ k.liveView, k.NaNRoot op

theorem nanRoot_congr {op : TileOp} (hb : k'.buffers = k.buffers) (h : k.NaNRoot op) : k'.NaNRoot op := by
  simpa only [NaNRoot, Kernel.buffer, buffer?, hb] using h

/-- Normalizing replaces a NaN fill by the fill of its cast, which is again a NaN. -/
theorem nanRoot_normalizedOp {op : TileOp} (h : k.NaNRoot op) :
    (k.renormalized op).isSome ∧ k.NaNRoot (k.normalizedOp op) := by
  obtain ⟨v, out, rest, hkind, hout, hglobal, hnan⟩ := h
  have hr : k.renormalized op = some (v.castValue (k.buffer out.buffer).dtype) := by
    simp [renormalized, fillTarget, hkind, hout, Literal.sameValue_of_isNaN hnan]
  rw [normalizedOp_of_some hr]
  refine ⟨by simp [hr], _, out, rest, rfl, hout, hglobal, ?_⟩
  simpa [Literal.castValue_castValue] using hnan

/-- Folding leaves a fill as it is. -/
theorem foldedView_of_fill {d : DefUse} {h : OpId} {v : Literal} (hk : (k.op h).kind = .fill v) :
    k.foldedView d h = (k.op h).detached := by
  rcases hs : foldedOp k d h with _ | f
  · simp [foldedView, hs]
  · obtain ⟨-, -, -, -, -, hcast | ⟨b, hew⟩⟩ := foldedOp_eq hs
    · rw [hk] at hcast
      cases hcast
    · rw [hk] at hew
      cases hew

/-- A fold whose step keeps what the accumulator holds keeps it to the end. -/
theorem mem_foldl_of_keeps {α : Type} {g : List OpId → α → List OpId}
    (hg : ∀ acc a, ∀ x ∈ acc, x ∈ g acc a) :
    ∀ (l : List α) (acc : List OpId), ∀ x ∈ acc, x ∈ l.foldl g acc
  | [], _, _, hx => hx
  | a :: l, acc, x, hx => mem_foldl_of_keeps hg l (g acc a) x (hg acc a x hx)

/-- The closure of live ops only grows what it starts from. -/
theorem mem_liveClosure {d : DefUse} {x : OpId} :
    ∀ (fuel : Nat) (live : List OpId), x ∈ live → x ∈ liveClosure k d fuel live
  | 0, _, hx => hx
  | fuel + 1, live, hx => by
    -- A round of the closure only appends writers to the ops it has.
    have hadd : ∀ (acc : List OpId) (w : OpId), ∀ y ∈ acc,
        y ∈ (if acc.contains w then acc else acc ++ [w]) := by
      intro acc w y hy
      split <;> simp [hy]
    rw [liveClosure]
    split
    · exact hx
    · exact mem_liveClosure fuel _ (mem_foldl_of_keeps
        (fun acc _ => mem_foldl_of_keeps (fun acc _ => mem_foldl_of_keeps hadd _ acc) _ acc) live live x hx)

/-- A live root op is needed. -/
theorem mem_needed_of_root {h : OpId} (hh : h ∈ k.liveOps) (hr : isRootOp k (k.op h) = true) :
    h ∈ k.needed :=
  mem_liveClosure _ _ (List.mem_filter.2 ⟨hh, hr⟩)

theorem isRootOp_of_nanRoot {op : TileOp} (h : k.NaNRoot op) : isRootOp k op = true := by
  obtain ⟨v, out, rest, hkind, hout, hglobal, -⟩ := h
  simp [isRootOp, hkind, hout, hglobal]

/-- **A NaN fill of global memory keeps simplification busy.** On a formed kernel with a live fill
of NaN into a global buffer, a round reports a change and leaves such a fill: normalizing replaces
it by its cast, folding skips fills and removal keeps roots. -/
theorem simplify_keeps_globalNaNFill (hF : k.Formed) (hcast : k.Castable) (hn : k.HoldsGlobalNaNFill) :
    ∃ k', simplify.run k = .ok (.ok true, k') ∧ k'.Formed ∧ k'.Castable ∧ k'.HoldsGlobalNaNFill := by
  obtain ⟨op, hop, hroot⟩ := hn
  obtain ⟨c₁, k₁, h₁, hF₁, hb₁, hv₁, -, hc₁⟩ := normalizeFills_spec hF hcast
  obtain ⟨c₂, k₂, h₂, hF₂, hb₂, hv₂, -, -⟩ := foldConstants_spec hF₁ (hcast.of_buffers hb₁)
  obtain ⟨c₃, k₃, h₃, hF₃, hb₃, hv₃, -, -⟩ := removeDead_spec hF₂
  have hrun := simplify_run_of_stages h₁ h₂ h₃
  obtain ⟨hsome, hroot'⟩ := nanRoot_normalizedOp hroot
  have hc : c₁ = true := hc₁.2 ⟨op, hop, hsome⟩
  -- Normalizing leaves the fill of the cast at some live op of `k₁`.
  obtain ⟨h, hh, hD⟩ : ∃ h ∈ k₁.liveOps, (k₁.op h).detached = k.normalizedOp op := by
    have : k.normalizedOp op ∈ k₁.liveView := hv₁ ▸ List.mem_map_of_mem hop
    simpa [liveView] using this
  have hroot₁ : k₁.NaNRoot (k₁.op h).detached := hD ▸ nanRoot_congr hb₁ hroot'
  -- Folding leaves it as it is, at some live op of `k₂`.
  obtain ⟨h₂', hh₂, hD₂⟩ : ∃ h' ∈ k₂.liveOps, (k₂.op h').detached = (k₁.op h).detached := by
    obtain ⟨v, -, -, hkind, -⟩ := hroot₁
    have : (k₁.op h).detached ∈ k₂.liveView := by
      rw [hv₂, ← foldedView_of_fill (d := DefUse.build k₁) hkind]
      exact List.mem_map_of_mem hh
    simpa [liveView] using this
  have hroot₂ : k₂.NaNRoot (k₂.op h₂').detached := hD₂ ▸ nanRoot_congr hb₂ hroot₁
  -- Removal keeps it, as a root.
  have hneeded : h₂' ∈ k₂.needed := mem_needed_of_root hh₂ (isRootOp_of_nanRoot hroot₂)
  refine ⟨k₃, by simpa [hc] using hrun, hF₃, hcast.of_buffers (hb₃.trans (hb₂.trans hb₁)),
    (k₂.op h₂').detached, ?_, nanRoot_congr hb₃ hroot₂⟩
  rw [hv₃]
  exact List.mem_map_of_mem (List.mem_filter.2 ⟨hh₂, by simpa using hneeded⟩)

end Kernel

/-! ### Rounds of simplification -/

/-- `k` reaches `k'` in `n` rounds of simplification, each reporting a change. -/
inductive SimplifyRounds : Kernel → Nat → Kernel → Prop
  | done (k : Kernel) : SimplifyRounds k 0 k
  | round {k k₁ k' : Kernel} {n : Nat} :
      simplify.run k = .ok (.ok true, k₁) → SimplifyRounds k₁ n k' → SimplifyRounds k (n + 1) k'

/-- One round from a formed kernel whose fills are cast: it meets a NaN fill, or it reports no
change, or it reports a change and lowers what is pending. -/
theorem simplify_round_settling {k : Kernel} (hF : k.Formed) (hcast : k.Castable) (hc : k.FillsCast) :
    k.HoldsNaNFill ∨ simplify.run k = .ok (.ok false, k) ∨
      ∃ k₁, simplify.run k = .ok (.ok true, k₁) ∧ k₁.Formed ∧ k₁.Castable ∧ k₁.FillsCast ∧
        k₁.pending < k.pending := by
  by_cases hn : k.HoldsNaNFill
  · exact .inl hn
  obtain ⟨c, k₁, hrun, hF₁, hb₁, hc₁, -, hsame, hfalls⟩ := Kernel.simplify_round hF hcast
  cases c with
  | false => exact .inr (.inl (hsame rfl ▸ hrun))
  | true =>
    -- With every fill settled, a round that changes something lowers what is pending.
    exact .inr (.inr ⟨k₁, hrun, hF₁, hcast.of_buffers hb₁, hc₁,
      hfalls (Kernel.fillsSettled_of_fillsCast hc hn) rfl⟩)

/-- From a kernel whose fills are normalized or cast, each round that reports a change lowers what
is pending, until a round reports no change or a live fill is a NaN. The recursion is on a bound of
what is pending. -/
theorem settles_of_fillsCast : ∀ (m : Nat) (k : Kernel), k.pending ≤ m → k.Formed → k.Castable →
    k.FillsCast → ∃ n k', n ≤ k.pending ∧ SimplifyRounds k n k' ∧
      (simplify.run k' = .ok (.ok false, k') ∨ k'.HoldsNaNFill)
  | 0, k, hm, hF, hcast, hc => by
    rcases simplify_round_settling hF hcast hc with hn | hfix | ⟨k₁, -, -, -, -, hlt⟩
    · exact ⟨0, k, Nat.zero_le _, .done k, .inr hn⟩
    · exact ⟨0, k, Nat.zero_le _, .done k, .inl hfix⟩
    · omega
  | m + 1, k, hm, hF, hcast, hc => by
    rcases simplify_round_settling hF hcast hc with hn | hfix | ⟨k₁, hrun, hF₁, hcast₁, hc₁, hlt⟩
    · exact ⟨0, k, Nat.zero_le _, .done k, .inr hn⟩
    · exact ⟨0, k, Nat.zero_le _, .done k, .inl hfix⟩
    · obtain ⟨n, k', hn', hrounds, hend⟩ := settles_of_fillsCast m k₁ (by omega) hF₁ hcast₁ hc₁
      exact ⟨n + 1, k', by omega, .round hrun hrounds, hend⟩

/-- From a formed kernel with a live fill of NaN into global memory, every number of rounds is
run and each reports a change: the rounds never reach a fixed point. -/
theorem simplify_never_settles {k : Kernel} (hF : k.Formed) (hcast : k.Castable) (hn : k.HoldsGlobalNaNFill)
    (n : Nat) : ∃ k', SimplifyRounds k n k' ∧ k'.Formed ∧ k'.Castable ∧ k'.HoldsGlobalNaNFill := by
  induction n generalizing k with
  | zero => exact ⟨k, .done k, hF, hcast, hn⟩
  | succ n ih =>
    obtain ⟨k₁, hrun, hF₁, hcast₁, hn₁⟩ := Kernel.simplify_keeps_globalNaNFill hF hcast hn
    obtain ⟨k', hrounds, hF', hcast', hn'⟩ := ih hF₁ hcast₁ hn₁
    exact ⟨k', .round hrun hrounds, hF', hcast', hn'⟩

/-- **Repeated simplification reaches a fixed point.** From a formed kernel with `n` live ops
whose buffers all have types a literal can be cast to, within `2 * n + 2` rounds some round reports
no change and leaves the kernel as it was, unless the rounds first meet a live fill that is a NaN
in its type: such a fill differs from its own cast and is replaced in every round. The first round
may only normalize fills; after it, every round that reports a change folds an op that is not a
fill or removes an op. -/
theorem simplify_reaches_fixed_point {k : Kernel} (hF : k.Formed) (hcast : k.Castable) :
    ∃ n k', n ≤ 2 * k.liveOps.length + 1 ∧ SimplifyRounds k n k' ∧
      (simplify.run k' = .ok (.ok false, k') ∨ k'.HoldsNaNFill) := by
  obtain ⟨c, k₁, hrun, hF₁, hb₁, hc₁, hle, hsame, -⟩ := Kernel.simplify_round hF hcast
  cases c with
  | false => exact ⟨0, k, Nat.zero_le _, .done k, .inl (hsame rfl ▸ hrun)⟩
  | true =>
    obtain ⟨n, k', hn, hrounds, hend⟩ :=
      settles_of_fillsCast k₁.pending k₁ le_rfl hF₁ (hcast.of_buffers hb₁) hc₁
    have hbound : k.pending ≤ 2 * k.liveOps.length := by
      have := Kernel.pendingOf_le k.liveView
      rwa [Kernel.liveView, List.length_map] at this
    exact ⟨n + 1, k', by omega, .round hrun hrounds, hend⟩

/-- One fill of NaN into a global f32 buffer. -/
def nanFill : Kernel where
  name := "k"
  buffers := #[{ name := "g", shape := [8, 8], dtype := .f32, scope := .global }]
  ops := #[TileOp.fill "init" (.float Binary64.nan) (.whole ⟨0⟩)]
  body := [.op ⟨0⟩]

theorem nanFill_built : nanFill.Built :=
  ⟨"k", .head (Kernel.Call.addBuffer (b := { name := "g", shape := [8, 8], dtype := .f32, scope := .global })
      (by with_unfolding_all rfl)) <|
    .head (Kernel.Call.addOp (o := TileOp.fill "init" (.float Binary64.nan) (.whole ⟨0⟩)) (by with_unfolding_all rfl)) <|
    .single (Kernel.Call.push (h := ⟨0⟩) (by with_unfolding_all rfl))⟩

/-- Simplifying the NaN fill, a kernel of one live op, reports a change in every one of its first
`2 * 1 + 2` rounds and in the round after them. -/
theorem nanFill_keeps_changing :
    nanFill.liveOps.length = 1 ∧ ∃ k', SimplifyRounds nanFill (2 * nanFill.liveOps.length + 2) k' ∧
      ∃ k'', simplify.run k' = .ok (.ok true, k'') := by
  have hn : nanFill.HoldsGlobalNaNFill :=
    ⟨TileOp.fill "init" (.float Binary64.nan) (.whole ⟨0⟩), by decide, .float Binary64.nan, .whole ⟨0⟩, [],
      rfl, rfl, rfl, by decide⟩
  obtain ⟨k', hrounds, hF', hcast', hn'⟩ :=
    simplify_never_settles nanFill_built.formed (by decide) hn (2 * nanFill.liveOps.length + 2)
  obtain ⟨k'', hrun, -⟩ := Kernel.simplify_keeps_globalNaNFill hF' hcast' hn'
  exact ⟨by decide, k', hrounds, k'', hrun⟩

/-- The round trip through shared memory reaches a fixed point of simplification. -/
theorem roundTrip_simplifies : Kernel.roundTrip.Castable ∧
    ∃ n k', n ≤ 2 * Kernel.roundTrip.liveOps.length + 1 ∧ SimplifyRounds Kernel.roundTrip n k' ∧
      (simplify.run k' = .ok (.ok false, k') ∨ k'.HoldsNaNFill) :=
  ⟨by decide, simplify_reaches_fixed_point Kernel.roundTrip_built.formed (by decide)⟩

end TileKernel
