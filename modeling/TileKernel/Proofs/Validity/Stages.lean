import TileKernel.Proofs.Validity.Edits
import TileKernel.Proofs.Passes
import TileKernel.Proofs.ConflictFree
import Mathlib.Data.List.ReduceOption

/-!
# Stages that keep a kernel sound

The rewrite passes, the swizzle stages and layout assignment each leave a sound kernel sound
when they succeed. Each is a fold of edits, and the fold carries soundness from edit to edit
(`run_foldlM_sound`, `run_forM_sound`); what each edit asks of the order of the placed ops is
read off where the stage puts what it adds.

* Store granularity and fill normalization replace an op by one with the same operands.
* Constant folding replaces an op by a fill of one of its outputs, decided on the kernel as the
  fold found it; the ops it replaces keep their operands until their turn.
* Removing dead ops removes placed ops.
* Type decoupling inserts the casts of one op right before it, each waiting for what the op
  waits for, and replaces the op by one reading the temporaries and waiting for the casts.
* A swizzle stage attaches swizzles only.
* Layout assignment inserts a materializing copy right before a reader or right after a writer,
  and attaches layouts.
-/

set_option autoImplicit false

namespace TileKernel

namespace Kernel

variable {k k' : Kernel}

/-! ### Edits that keep ops alike -/

theorem addDependency_alike {h on : OpId} (hd : k.addDependency h on = .ok k') :
    k.OpsAlike k' ∧ k'.body = k.body ∧ k'.loops = k.loops ∧ k'.removed = k.removed := by
  obtain ⟨-, -, rfl⟩ := addDependency_ok hd
  exact ⟨opsAlike_modifyOp fun _ => rfl, rfl, rfl, rfl⟩

theorem insertBefore_alike {a x : OpId} {o : TileOp} (h : k.insertBefore a o = .ok (x, k')) :
    k.OpsAlike k' := by
  obtain ⟨b, -, rfl, -, -, rfl⟩ := insertBefore_eq h
  exact opsAlike_push.trans (opsAlike_of_eq ops_modifyBlock)

theorem insertAfter_alike {a x : OpId} {o : TileOp} (h : k.insertAfter a o = .ok (x, k')) :
    k.OpsAlike k' := by
  obtain ⟨b, -, rfl, -, -, rfl⟩ := insertAfter_eq h
  exact opsAlike_push.trans (opsAlike_of_eq ops_modifyBlock)

theorem replaceOp_alike {old x : OpId} {o : TileOp} (h : k.replaceOp old o = .ok (x, k')) :
    k.OpsAlike k' := by
  obtain ⟨b, -, -, rfl, -, rfl⟩ := replaceOp_eq h
  exact opsAlike_push.trans ((redirectDependents_alike _ _).2.2.trans (opsAlike_of_eq ops_modifyBlock))

theorem removeOp_alike {h : OpId} (hr : k.removeOp h = .ok k') : k.OpsAlike k' := by
  obtain ⟨b, -, -, rfl⟩ := removeOp_eq hr
  exact bypass_alike.2.trans (opsAlike_of_eq ops_modifyBlock)

/-- Ops alike have the same operands. -/
theorem OpsAlike.operands (h : k.OpsAlike k') {x : OpId} (hx : x.idx < k.ops.size) :
    (k'.op x).operands = (k.op x).operands := by
  have same := h.detached x hx
  simp only [TileOp.detached, TileOp.mk.injEq] at same
  simp only [TileOp.operands, same.2.2.1, same.2.2.2]

end Kernel

/-- An op with the operands of another has its windows. -/
theorem TileOp.WindowsOf.of_operands {op a : TileOp} (h : op.operands = a.operands) :
    op.WindowsOf a := fun _ ho _ => h ▸ ho

theorem TileOp.WindowsOf.trans {op a b : TileOp} (h₁ : op.WindowsOf a) (h₂ : a.WindowsOf b) :
    op.WindowsOf b := fun o ho hw => h₂ o (h₁ o ho hw) hw

theorem KernelM.run_pure_eq_ok {ε β : Type} {a b : β} {k k' : Kernel} :
    (pure a : KernelM ε β).run k = .ok (.ok b, k') ↔ a = b ∧ k' = k := by
  rw [KernelM.run_pure]
  constructor
  · intro h
    obtain ⟨hb, rfl⟩ := Prod.mk.inj (Except.ok.inj h)
    exact ⟨Except.ok.inj hb, rfl⟩
  · rintro ⟨rfl, rfl⟩
    rfl

namespace Kernel

variable {k k' : Kernel}

/-! ### Folds of edits -/

theorem Sound.of_pure {ε β : Type} {a b : β} (hs : k.Sound)
    (h : (pure a : KernelM ε β).run k = .ok (.ok b, k')) : k'.Sound :=
  (KernelM.run_pure_eq_ok.1 h).2 ▸ hs

/-- A fold each of whose steps keeps a kernel sound keeps it sound. -/
theorem run_foldlM_sound {ε γ β : Type} {f : β → γ → KernelM ε β} {l : List γ} {b b' : β}
    (step : ∀ d ∈ l, ∀ {b₁ k₁ b₂ k₂}, k₁.Sound → (f b₁ d).run k₁ = .ok (.ok b₂, k₂) → k₂.Sound)
    (hs : k.Sound) (h : (l.foldlM f b).run k = .ok (.ok b', k')) : k'.Sound :=
  KernelM.run_foldlM_ok (fun _ _ kx => kx.Sound) [] (fun d hd _ _ _ _ _ h₁ h₂ => step d hd h₁ h₂)
    hs h

/-- A loop each of whose steps keeps a kernel sound keeps it sound. -/
theorem run_forM_sound {ε γ : Type} {f : γ → KernelM ε PUnit} {l : List γ}
    (step : ∀ d ∈ l, ∀ {k₁ k₂}, k₁.Sound → (f d).run k₁ = .ok (.ok (), k₂) → k₂.Sound)
    (hs : k.Sound) (h : (l.forM f).run k = .ok (.ok (), k')) : k'.Sound :=
  KernelM.run_forM_ok (fun _ kx => kx.Sound) [] (fun d hd _ _ _ h₁ h₂ => step d hd h₁ h₂) hs h

/-- In a sound kernel a placed op waits only for ops placed before it. -/
theorem Sound.dep_before (hs : k.Sound) {y z : OpId} (hw : k.Waits y z) (hy : y ∈ k.bodyOps)
    (hz : z ∈ k.bodyOps) : [z, y].Sublist k.bodyOps := by
  have dep := hs.depsEarlier
  rw [hs.liveOps_eq] at dep
  exact dep y z hw hy hz

/-- A list without repeats splits around a member in one way only. -/
theorem split_eq_of_nodup {x : OpId} {P Q P' Q' : List OpId} (hnd : (P ++ x :: Q).Nodup)
    (h : P ++ x :: Q = P' ++ x :: Q') : P = P' ∧ Q = Q' := by
  have hx : x ∉ P ++ Q := (List.nodup_cons.1 (List.nodup_middle.1 hnd)).1
  obtain ⟨hP, -, hQ⟩ := (List.append_cons_inj_of_notMem (fun h => hx (List.mem_append_left _ h))
    (fun h => hx (List.mem_append_right _ h))).1 h
  exact ⟨hP, hQ⟩

/-- Declaring a buffer changes no op and no place. -/
theorem addBuffer_frame {b : Buffer} {x : BufferId} (h : k.addBuffer b = .ok (x, k')) :
    k'.ops = k.ops ∧ k'.body = k.body ∧ k'.loops = k.loops ∧ k'.removed = k.removed := by
  unfold addBuffer at h
  split_ifs at h
  obtain ⟨-, rfl⟩ := Prod.mk.inj (Except.ok.inj h)
  exact ⟨rfl, rfl, rfl, rfl⟩

/-- Dependencies of `c` on ops placed before it keep a kernel sound, and keep its places. -/
theorem Sound.forM_addDependency (hs : k.Sound) {c : OpId} {ds : List OpId}
    (hord : ∀ d ∈ ds, c ∈ k.bodyOps → d ∈ k.bodyOps → [d, c].Sublist k.bodyOps)
    (h : (ds.forM fun d => KernelM.update (·.addDependency c d)).run k = .ok (.ok (), k')) :
    k'.Sound ∧ k'.bodyOps = k.bodyOps ∧ k.OpsAlike k' := by
  refine KernelM.run_forM_ok (fun _ kx => kx.Sound ∧ kx.bodyOps = k.bodyOps ∧ k.OpsAlike kx) []
    (fun d hd _ k₁ k₂ hI hstep => ?_) ⟨hs, rfl, .refl k⟩ h
  obtain ⟨hs₁, hb₁, alike₁⟩ := hI
  have hd₁ := KernelM.run_update.1 hstep
  obtain ⟨alike, hb, hl, -⟩ := addDependency_alike hd₁
  exact ⟨hs₁.addDependency hd₁ (by rw [hb₁]; exact hord d hd), (bodyOps_congr hb hl).trans hb₁,
    alike₁.trans alike⟩

/-- An op with no dependencies inserted right before `x`, then made to wait for ops of the arena
that stand before `x` where they are placed, keeps a kernel sound; it stands right before `x`. -/
theorem Sound.insertWaiting (hs : k.Sound) {x c : OpId} {o : TileOp} {ds : List OpId}
    {k₁ : Kernel} (hins : k.insertBefore x o = .ok (c, k₁)) (hnodeps : o.deps = [])
    (hwin : o.WindowsOf (k.op x)) (hold : ∀ d ∈ ds, d.idx < k.ops.size)
    (hds : ∀ P Q, k.bodyOps = P ++ x :: Q → ∀ d ∈ ds, d ∈ k.bodyOps → d ∈ P)
    (h : (ds.forM fun d => KernelM.update (·.addDependency c d)).run k₁ = .ok (.ok (), k')) :
    k'.Sound ∧ k.OpsAlike k' ∧ c = ⟨k.ops.size⟩ ∧
      ∃ P Q, k.bodyOps = P ++ x :: Q ∧ k'.bodyOps = P ++ c :: x :: Q := by
  have hs₁ := hs.insertBefore hins (by simp [hnodeps]) hwin
  obtain ⟨P, Q, hk, hk₁⟩ := bodyOps_insertBefore hins hs.loops_nodup hs.placedOnce
  obtain ⟨-, -, hc, -, -, -⟩ := insertBefore_eq hins
  -- The ops waited for are older than `c`, so they keep their places, all before `x`.
  have before : ∀ d ∈ ds, c ∈ k₁.bodyOps → d ∈ k₁.bodyOps → [d, c].Sublist k₁.bodyOps := by
    intro d hd _ hd₁
    rw [hk₁] at hd₁ ⊢
    have hne : d ≠ c := hc ▸ ne_fresh (hold d hd)
    have hdP := hds P Q hk d hd (hk ▸ (mem_insert_mid.1 hd₁).resolve_left hne)
    exact pair_sublist_append hdP List.mem_cons_self
  obtain ⟨hs', hb', alike'⟩ := hs₁.forM_addDependency before h
  exact ⟨hs', (insertBefore_alike hins).trans alike', hc, P, Q, hk, hb'.trans hk₁⟩

/-- A replacement, as an edit, keeps a kernel sound when the new op's windows are the old op's. -/
theorem Sound.editReplace (hs : k.Sound) {old x : OpId} {o : TileOp}
    (h : (KernelM.edit (·.replaceOp old o)).run k = .ok (.ok x, k'))
    (hwin : o.WindowsOf (k.op old)) : k'.Sound :=
  hs.replaceOp (KernelM.run_edit.1 h) hwin

end Kernel

/-! ### The rewrite passes -/

section Passes

variable {k k' : Kernel}

open Kernel in
/-- Store granularity replaces copies and atomics by the same ops with another chunk width. -/
theorem storeGranularity_keeps_sound {t : Target} {c : Bool} (hs : k.Sound)
    (h : (storeGranularity t).run k = .ok (.ok c, k')) : k'.Sound := by
  unfold storeGranularity at h
  rw [KernelM.run_get_bind] at h
  refine run_foldlM_sound (fun d _ b₁ k₁ b₂ k₂ hs₁ hstep => ?_) hs h
  rw [KernelM.run_get_bind] at hstep
  dsimp only at hstep
  obtain ⟨legal, k₃, h₃, hstep⟩ := KernelM.run_bind_eq_ok.1 hstep
  obtain ⟨-, rfl⟩ := KernelM.run_liftM_eq_ok.1 h₃
  split at hstep
  · exact hs₁.of_pure hstep
  split at hstep
  · exact hs₁.of_pure hstep
  obtain ⟨_, k₄, h₄, hstep⟩ := KernelM.run_bind_eq_ok.1 hstep
  exact (hs₁.editReplace h₄ (.of_operands rfl)).of_pure hstep

open Kernel in
/-- Normalizing fills replaces fills by fills of the same operands. -/
theorem normalizeFills_keeps_sound {c : Bool} (hs : k.Sound) (h : normalizeFills.run k = .ok (.ok c, k')) :
    k'.Sound := by
  unfold normalizeFills at h
  rw [KernelM.run_get_bind] at h
  refine run_foldlM_sound (fun d _ b₁ k₁ b₂ k₂ hs₁ hstep => ?_) hs h
  rw [KernelM.run_get_bind] at hstep
  dsimp only at hstep
  split at hstep
  · obtain ⟨_, k₃, h₃, hstep⟩ := KernelM.run_bind_eq_ok.1 hstep
    obtain ⟨-, rfl⟩ := KernelM.run_liftM_eq_ok.1 h₃
    split at hstep
    · exact hs₁.of_pure hstep
    obtain ⟨_, k₄, h₄, hstep⟩ := KernelM.run_bind_eq_ok.1 hstep
    exact (hs₁.editReplace h₄ (.of_operands rfl)).of_pure hstep
  · exact hs₁.of_pure hstep

/-- An op folds into a fill of its first output. -/
theorem foldSource_output {d : DefUse} {x : OpId} {v : Literal} {out : Operand}
    (h : foldSource k d x = some (v, out)) : ∃ rest, (k.op x).outputs = out :: rest := by
  unfold foldSource at h
  dsimp only at h
  split at h
  · cases h
  · rename_i out' rest hout
    split at h
    · cases h
    split at h
    · obtain ⟨-, rfl⟩ := Prod.mk.inj (Option.some.inj h)
      exact ⟨rest, hout⟩
    · obtain ⟨-, rfl⟩ := Prod.mk.inj (Option.some.inj h)
      exact ⟨rest, hout⟩
    · cases h

/-- A fold that answers a fill cast the folded literal to the type of the op's output. -/
theorem foldedFill_eq_ok_some {d : DefUse} {x : OpId} {f : TileOp} (hf : foldedFill k d x = .ok (some f)) :
    ∃ v out w, foldSource k d x = some (v, out) ∧ v.cast (k.buffer out.buffer).dtype = .ok w ∧
      f = TileOp.fill (k.op x).name w out := by
  unfold foldedFill at hf
  split at hf
  · cases hf
  · rename_i v out hsource
    rcases hc : v.cast (k.buffer out.buffer).dtype with e | w
    · simp [hc, bind, Except.bind] at hf
    · simp only [hc, bind, Except.bind, pure, Except.pure, Except.ok.injEq, Option.some.injEq] at hf
      exact ⟨v, out, w, hsource, hc, hf.symm⟩

/-- The fill an op folds to writes the op's first output, so its windows are the op's. -/
theorem foldedFill_windowsOf {d : DefUse} {x : OpId} {f : TileOp} (hf : foldedFill k d x = .ok (some f)) :
    f.WindowsOf (k.op x) := by
  obtain ⟨v, out, w, hsource, -, rfl⟩ := foldedFill_eq_ok_some hf
  obtain ⟨rest, hout⟩ := foldSource_output hsource
  intro o ho _
  simp only [TileOp.fill, TileOp.operands, List.nil_append, List.mem_singleton] at ho
  subst ho
  simp [TileOp.operands, hout]

/-- Each fold the fold step lists is the fill of a live op it was computed for. -/
theorem mem_folds {d : DefUse} {L : List (Option (OpId × TileOp))} {x : OpId} {f : TileOp}
    (hL : k.liveOps.mapM (fun h => do return (← foldedFill k d h).map fun f => (h, f)) = .ok L)
    (hp : (x, f) ∈ L.reduceOption) : x ∈ k.liveOps ∧ foldedFill k d x = .ok (some f) := by
  obtain ⟨y, hy, hg⟩ := forall₂_exists_of_mem_right (mapM_eq_ok hL) (List.reduceOption_mem_iff.1 hp)
  rcases hfold : foldedFill k d y with e | _ | f'
  · simp [hfold, bind, Except.bind] at hg
  · simp [hfold, bind, Except.bind, pure, Except.pure] at hg
  · simp only [hfold, bind, Except.bind, pure, Except.pure, Except.ok.injEq, Option.map_some,
      Option.some.injEq, Prod.mk.injEq] at hg
    obtain ⟨rfl, rfl⟩ := hg
    exact ⟨hy, hfold⟩

open Kernel in
/-- Constant folding replaces ops by fills of their outputs. Every fill is decided on the kernel
as the fold found it: an op the fold replaces later keeps its operands until its turn, since
replacing another op leaves it alike. -/
theorem foldConstants_keeps_sound {c : Bool} (hs : k.Sound) (h : foldConstants.run k = .ok (.ok c, k')) :
    k'.Sound := by
  unfold foldConstants at h
  rw [KernelM.run_get_bind] at h
  obtain ⟨L, k₀, h₀, h⟩ := KernelM.run_bind_eq_ok.1 h
  obtain ⟨hL, rfl⟩ := KernelM.run_liftM_eq_ok.1 h₀
  obtain ⟨_, k₁, h₁, h⟩ := KernelM.run_bind_eq_ok.1 h
  refine Sound.of_pure ?_ h
  refine (KernelM.run_forM_ok (fun _ kx => kx.Sound ∧ k.OpsAlike kx) []
    (fun ⟨y, f⟩ hp _ k₂ k₃ hI hstep => ?_) ⟨hs, .refl k⟩ h₁).1
  obtain ⟨hs₂, alike⟩ := hI
  obtain ⟨hy, hf⟩ := mem_folds hL hp
  have hsize : y.idx < k.ops.size := hs.placedExist y (hs.liveOps_eq ▸ hy)
  obtain ⟨_, k₄, h₄, hstep⟩ := KernelM.run_bind_eq_ok.1 hstep
  have hr := KernelM.run_edit.1 h₄
  obtain ⟨-, rfl⟩ := KernelM.run_pure_eq_ok.1 hstep
  exact ⟨hs₂.replaceOp hr ((foldedFill_windowsOf hf).trans (.of_operands (alike.operands hsize).symm)),
    alike.trans (replaceOp_alike hr)⟩

open Kernel in
/-- Removing dead ops removes placed ops. -/
theorem removeDead_keeps_sound {c : Bool} (hs : k.Sound) (h : removeDead.run k = .ok (.ok c, k')) :
    k'.Sound := by
  unfold removeDead at h
  rw [KernelM.run_get_bind] at h
  obtain ⟨_, k₁, h₁, h⟩ := KernelM.run_bind_eq_ok.1 h
  exact (run_forM_sound (fun _ _ _ _ hs₁ hstep => hs₁.removeOp (KernelM.run_update.1 hstep)) hs
    h₁).of_pure h

theorem simplify_keeps_sound {c : Bool} (hs : k.Sound) (h : simplify.run k = .ok (.ok c, k')) :
    k'.Sound := by
  unfold simplify at h
  obtain ⟨_, k₁, h₁, h⟩ := KernelM.run_bind_eq_ok.1 h
  obtain ⟨_, k₂, h₂, h⟩ := KernelM.run_bind_eq_ok.1 h
  obtain ⟨_, k₃, h₃, h⟩ := KernelM.run_bind_eq_ok.1 h
  exact (removeDead_keeps_sound (foldConstants_keeps_sound (normalizeFills_keeps_sound hs h₁) h₂) h₃).of_pure h

end Passes

/-! ### Type decoupling -/

section Decoupling

variable {k k' : Kernel}

/-- The inputs `conversions` picks are inputs of the op. -/
theorem mem_conversions {op : TileOp} {c : Nat × Operand × Scalar} (hc : c ∈ conversions k op) :
    c.2.1 ∈ op.inputs := by
  unfold conversions at hc
  dsimp only at hc
  split at hc
  -- Elementwise ops, reductions and atomics convert inputs toward the type of their output.
  case h_1 | h_2 | h_3 =>
    split at hc
    · obtain ⟨⟨o, i⟩, hm, he⟩ := List.mem_filterMap.1 hc
      split at he
      · cases he
        exact List.fst_mem_of_mem_zipIdx hm
      · cases he
    · cases hc
  -- A matrix product converts its two factors.
  case h_4 =>
    split at hc
    · rename_i a b rest hin
      split at hc
      · cases hc
      · obtain ⟨⟨o, i⟩, hm, he⟩ := List.mem_filterMap.1 hc
        split at he
        · cases he
          rw [hin]
          simp only [List.mem_cons, Prod.mk.injEq, List.not_mem_nil, or_false] at hm
          rcases hm with ⟨rfl, -⟩ | ⟨rfl, -⟩ <;> simp
        · cases he
    · cases hc
  case h_5 => cases hc

namespace Kernel

/-- The casts of `x` inserted so far: fresh ops standing right before `x`, in order, in a kernel
whose other places are those of `k`. -/
structure CastsBefore (k kx : Kernel) (x : OpId) (casts : List OpId) : Prop where
  fresh : ∀ c ∈ casts, k.ops.size ≤ c.idx
  placed : ∀ y ∈ kx.bodyOps, y ∈ k.bodyOps ∨ y ∈ casts
  split : ∀ P Q, k.bodyOps = P ++ x :: Q → kx.bodyOps = P ++ casts ++ x :: Q

namespace CastsBefore

variable {kx ky : Kernel} {x : OpId} {casts : List OpId}

theorem refl (k : Kernel) (x : OpId) : CastsBefore k k x [] where
  fresh _ h := absurd h List.not_mem_nil
  placed _ h := .inl h
  split _ _ h := by simpa using h

/-- An op of `k` placed among the casts is placed in `k`. -/
theorem mem_old (h : CastsBefore k kx x casts) {y : OpId} (hy : y.idx < k.ops.size)
    (hm : y ∈ kx.bodyOps) : y ∈ k.bodyOps :=
  (h.placed y hm).resolve_right fun hc => absurd (h.fresh y hc) (Nat.not_le_of_lt hy)

/-- What `x` waits for stands, where placed, before the casts. -/
theorem dep_before (h : CastsBefore k kx x casts) (hs : k.Sound) (hnd : kx.bodyOps.Nodup)
    (hx : x.idx < k.ops.size) {d : OpId} (hd : d ∈ (k.op x).deps) :
    ∀ P Q, kx.bodyOps = P ++ x :: Q → d ∈ kx.bodyOps → d ∈ P := by
  intro P Q hkx hdm
  have hxk := h.mem_old hx (hkx ▸ List.mem_append_right _ List.mem_cons_self)
  have hdk := h.mem_old (hs.depsExist x d hd) hdm
  obtain ⟨P₀, Q₀, hk⟩ := List.append_of_mem hxk
  obtain ⟨rfl, -⟩ := split_eq_of_nodup (hkx ▸ hnd) (hkx.symm.trans (h.split P₀ Q₀ hk))
  have back := hs.dep_before hd hxk hdk
  rw [hk] at back
  exact List.mem_append_left _ (mem_left_of_pair_sublist (hk ▸ hs.placedOnce) back)

/-- One more cast, inserted right before `x`. -/
theorem snoc (h : CastsBefore k kx x casts) (hnd : kx.bodyOps.Nodup) {c : OpId}
    (hc : k.ops.size ≤ c.idx) {P Q : List OpId} (hkx : kx.bodyOps = P ++ x :: Q)
    (hky : ky.bodyOps = P ++ c :: x :: Q) : CastsBefore k ky x (casts ++ [c]) where
  fresh y hy := by
    rcases List.mem_append.1 hy with hy | hy
    · exact h.fresh y hy
    · rw [List.mem_singleton.1 hy]
      exact hc
  placed y hy := by
    rw [hky] at hy
    rcases mem_insert_mid.1 hy with rfl | hy
    · exact .inr (List.mem_append_right _ (List.mem_singleton_self _))
    · rw [← hkx] at hy
      exact (h.placed y hy).imp_right (List.mem_append_left _)
  split P₀ Q₀ hk := by
    obtain ⟨rfl, rfl⟩ := split_eq_of_nodup (hkx ▸ hnd) (hkx.symm.trans (h.split P₀ Q₀ hk))
    simp [hky]

end CastsBefore

end Kernel

open Kernel in
/-- Decoupling an op inserts its casts right before it, each waiting for what the op waits for,
and replaces the op by one that reads the temporaries and waits for the casts: the casts and the
replacement, all fresh, take the op's place. -/
theorem decouple_keeps_sound {x : OpId} {wanted : List (Nat × Operand × Scalar)} (hs : k.Sound)
    (hx : x.idx < k.ops.size) (hwanted : ∀ c ∈ wanted, c.2.1 ∈ (k.op x).inputs)
    (h : (decouple x wanted).run k = .ok (.ok (), k')) :
    k'.Sound ∧ k.OpsAlike k' := by
  unfold decouple at h
  rw [KernelM.run_get_bind] at h
  dsimp only at h
  obtain ⟨temps, k₁, h₁, h⟩ := KernelM.run_bind_eq_ok.1 h
  -- Planning reads the kernel only, and plans a temporary for each wanted input.
  obtain ⟨hk₁, planned⟩ := KernelM.run_mapM_ok (fun a b => b = a)
    (fun (c : Nat × Operand × Scalar) (t : Nat × Operand × Buffer × Layout) (_ : Kernel) =>
      t.2.1 = c.2.1)
    (fun _ => rfl) (fun h₁ h₂ => h₂.trans h₁) (fun h _ => h)
    (fun _ _ _ _ _ hs => ⟨(plan_temp hs).1, (plan_temp hs).2.1⟩) h₁
  rw [hk₁] at h
  have hinputs : ∀ t ∈ temps, t.2.1 ∈ (k.op x).inputs := fun t ht => by
    obtain ⟨c, hc, he⟩ := forall₂_exists_of_mem_right planned ht
    exact he ▸ hwanted c hc
  obtain ⟨acc, k₂, h₂, h⟩ := KernelM.run_bind_eq_ok.1 h
  obtain ⟨replaced, k₃, h₃, h⟩ := KernelM.run_bind_eq_ok.1 h
  -- The fold keeps the casts right before `x` and the new inputs among the op's inputs.
  have fold := KernelM.run_foldlM_ok
    (fun _ (acc : List Operand × List OpId) kx => kx.Sound ∧ k.OpsAlike kx ∧
      CastsBefore k kx x acc.2 ∧ ∀ o ∈ acc.1, o.step.isSome → o ∈ (k.op x).inputs) []
    (fun t ht _ acc₁ kx acc₂ ky hI hstep => ?_) ⟨hs, .refl k, .refl k x, fun o ho _ => ho⟩ h₂
  · obtain ⟨hs₂, alike₂, casts₂, win₂⟩ := fold
    have hr := KernelM.run_edit.1 h₃
    obtain ⟨P', Q', hk₂, hk₃⟩ := bodyOps_replaceOp hr hs₂.loops_nodup hs₂.placedOnce
    have hxk := casts₂.mem_old hx (hk₂ ▸ List.mem_append_right _ List.mem_cons_self)
    obtain ⟨P, Q, hk⟩ := List.append_of_mem hxk
    obtain ⟨rfl, rfl⟩ := split_eq_of_nodup (hk₂ ▸ hs₂.placedOnce) (hk₂.symm.trans (casts₂.split P Q hk))
    have hs₃ := hs₂.replaceOp hr fun o ho hw => by
      rw [alike₂.operands hx]
      simp only [TileOp.operands, TileOp.detached, List.mem_append] at ho ⊢
      exact ho.imp_left fun ho => win₂ o ho hw
    obtain ⟨hs', -, alike'⟩ := hs₃.forM_addDependency (fun c hc _ _ => by
      rw [hk₃]
      exact pair_sublist_append (List.mem_append_right _ hc) List.mem_cons_self) h
    exact ⟨hs', alike₂.trans ((replaceOp_alike hr).trans alike')⟩
  · obtain ⟨hs₁, alike₁, casts₁, win₁⟩ := hI
    rw [KernelM.run_get_bind] at hstep
    obtain ⟨temp, k₆, h₆, hstep⟩ := KernelM.run_bind_eq_ok.1 hstep
    obtain ⟨_, k₇, h₇, hstep⟩ := KernelM.run_bind_eq_ok.1 hstep
    obtain ⟨c, k₈, h₈, hstep⟩ := KernelM.run_bind_eq_ok.1 hstep
    obtain ⟨_, k₉, h₉, hstep⟩ := KernelM.run_bind_eq_ok.1 hstep
    obtain ⟨rfl, rfl⟩ := KernelM.run_pure_eq_ok.1 hstep
    -- Declaring and laying out the temporary changes no op and no place.
    have hb₆ := KernelM.run_edit.1 h₆
    obtain ⟨ho₆, hb₆', hl₆, -⟩ := addBuffer_frame hb₆
    have hl₇ := KernelM.run_update.1 h₇
    obtain ⟨-, rfl⟩ := attachLayout_ok hl₇
    have hs₇ := (hs₁.addBuffer hb₆).attachLayout hl₇
    have hbody : (k₆.modifyBuffer temp fun b => { b with layout := some t.2.2.2 }).bodyOps =
        kx.bodyOps := bodyOps_congr hb₆' hl₆
    have hop : ∀ y, (k₆.modifyBuffer temp fun b => { b with layout := some t.2.2.2 }).op y =
        kx.op y := fun y => by simp only [Kernel.op, Kernel.op?, Kernel.modifyBuffer, ho₆]
    have hsize : kx.ops.size = (k₆.modifyBuffer temp fun b => { b with layout := some t.2.2.2 }).ops.size := by
      simp only [Kernel.modifyBuffer, ho₆]
    -- The cast reads the input, a window of the op, and writes the whole temporary.
    obtain ⟨hs₉, alike₉, rfl, P, Q, hk₇, hk₉⟩ := hs₇.insertWaiting (KernelM.run_edit.1 h₈) rfl
      (fun o ho hw => by
        simp only [TileOp.operands, List.cons_append, List.nil_append, List.mem_cons,
          List.not_mem_nil, or_false] at ho
        rcases ho with rfl | rfl
        · rw [hop, alike₁.operands hx]
          exact List.mem_append_left _ (hinputs t ht)
        · simp [Operand.whole] at hw)
      (fun d hd => hsize ▸ Nat.lt_of_lt_of_le (hs.depsExist x d hd) alike₁.size)
      (fun P Q hk d hd hdm => casts₁.dep_before hs hs₁.placedOnce hx hd P Q (hbody ▸ hk) (hbody ▸ hdm)) h₉
    refine ⟨hs₉, alike₁.trans ((opsAlike_of_eq ?_).trans alike₉),
      casts₁.snoc hs₁.placedOnce (hsize ▸ alike₁.size) (hbody ▸ hk₇) hk₉, fun o ho hw => ?_⟩
    · simp only [Kernel.modifyBuffer, ho₆]
    · rcases List.mem_or_eq_of_mem_set ho with ho | rfl
      · exact win₁ o ho hw
      · simp [Operand.whole] at hw

theorem typeDecoupling_keeps_sound {c : Bool} (hs : k.Sound) (h : typeDecoupling.run k = .ok (.ok c, k')) :
    k'.Sound := by
  unfold typeDecoupling at h
  rw [KernelM.run_get_bind] at h
  -- Every op the fold visits was live at the start, so it is in the arena all along.
  refine (KernelM.run_foldlM_ok (fun _ _ kx => kx.Sound ∧ k.OpsAlike kx) []
    (fun x hx _ b₁ k₁ b₂ k₂ hI hstep => ?_) ⟨hs, .refl k⟩ h).1
  obtain ⟨hs₁, alike₁⟩ := hI
  rw [KernelM.run_get_bind] at hstep
  dsimp only at hstep
  split at hstep
  · obtain ⟨-, rfl⟩ := KernelM.run_pure_eq_ok.1 hstep
    exact ⟨hs₁, alike₁⟩
  obtain ⟨_, k₃, h₃, hstep⟩ := KernelM.run_bind_eq_ok.1 hstep
  obtain ⟨-, rfl⟩ := KernelM.run_pure_eq_ok.1 hstep
  have hx₁ : x.idx < k₁.ops.size :=
    Nat.lt_of_lt_of_le (hs.placedExist x (hs.liveOps_eq ▸ hx)) alike₁.size
  obtain ⟨hs₃, alike₃⟩ := decouple_keeps_sound hs₁ hx₁ (fun _ hc => mem_conversions hc) h₃
  exact ⟨hs₃, alike₁.trans alike₃⟩

theorem Pass.run_keeps_sound {p : Pass} {c : Bool} (hs : k.Sound) (h : p.run.run k = .ok (.ok c, k')) :
    k'.Sound := by
  cases p with
  | storeGranularity t => exact storeGranularity_keeps_sound hs h
  | typeDecoupling => exact typeDecoupling_keeps_sound hs h
  | simplify => exact simplify_keeps_sound hs h

end Decoupling

/-! ### Swizzles -/

namespace Kernel.Reswizzled

variable {k k' : Kernel} {hs : List BufferId}

theorem buffersAlike (h : Reswizzled hs k k') : k.BuffersAlike k' := by
  intro b x hx
  have hlt := (Array.getElem?_eq_some_iff.1 hx).1
  obtain ⟨y, hy⟩ : ∃ y, k'.buffer? b = some y :=
    ⟨_, Array.getElem?_eq_getElem (h.size ▸ hlt)⟩
  have same := h.buffer b
  simp only [Kernel.buffer, hx, hy, Option.getD_some] at same
  exact ⟨y, hy, by rw [same]; exact ⟨rfl, rfl, rfl, rfl⟩⟩

/-- Attaching swizzles keeps a kernel sound: the checks never read a swizzle. -/
theorem sound (h : Reswizzled hs k k') (hsd : k.Sound) : k'.Sound := by
  have hops := opsAlike_of_eq h.ops
  have hdeps : k'.DepsExist := fun x d hd => by
    rw [h.op] at hd
    rw [h.ops]
    exact hsd.depsExist x d hd
  have hF := hsd.toFormed.of_frame h.body h.loops h.removed h.buffersAlike hops
    (fun _ h₁ h₂ => absurd h₂ (by rw [h.ops]; exact Nat.not_lt_of_le h₁)) hdeps
  exact hsd.of_frame hF h.body h.loops h.buffersAlike hops fun y z hyz _ _ =>
    .inl (show z ∈ (k.op y).deps from h.op y ▸ hyz)

end Kernel.Reswizzled

theorem swizzleWhere_keeps_sound {o : CompileOptions} {wanted : BufferId → Bool}
    {chosen : List (BufferId × Swizzle)} {k k' : Kernel} (hs : k.Sound)
    (h : (swizzleWhere o wanted).run k = .ok (.ok chosen, k')) : k'.Sound := by
  obtain ⟨⟨_, hr⟩, -⟩ := swizzleWhere_conflictFree h
  exact hr.sound hs

/-! ### Layout assignment -/

section Pairs

variable {α : Type} [DecidableEq α] {a b : α}

/-- In a list without repeats split at `a`, what stands after `a` is in the second part. -/
theorem mem_right_of_pair_sublist {P Q : List α} (hl : (P ++ a :: Q).Nodup)
    (h : [a, b].Sublist (P ++ a :: Q)) : b ∈ Q := by
  rcases mem_insert_mid.1 (h.subset (List.mem_cons_of_mem _ List.mem_cons_self)) with rfl | hb
  · exact absurd h (not_pair_sublist_self hl)
  rcases List.mem_append.1 hb with hb | hb
  · have hba : [b, a].Sublist (P ++ a :: Q) := pair_sublist_append hb List.mem_cons_self
    exact absurd (pair_sublist_trans hl h hba) (not_pair_sublist_self hl)
  · exact hb

end Pairs

section Assignment

variable {k k' : Kernel}

/-- A copy site separates an op from a buffer it touches only whole. -/
theorem copySite_whole {h : OpId} {b : BufferId} {s : CopySite} (hs : copySite k h b = some s) :
    (s = .reader h b ∨ s = .writer h b) ∧
      ∀ o ∈ (k.op h).operands, o.buffer = b → o.step = none := by
  unfold copySite at hs
  dsimp only at hs
  have hreads : ∀ o ∈ (k.op h).inputs, o ∈ (k.op h).reads := fun o ho => by
    unfold TileOp.reads
    split_ifs
    · exact List.mem_append_left _ ho
    · exact ho
  split_ifs at hs with hg hr hw
  · cases hs
    refine ⟨.inl rfl, fun o ho hob => ?_⟩
    simp only [Bool.and_eq_true, Bool.not_eq_eq_eq_not, Bool.not_true, List.any_eq_false,
      List.all_eq_true] at hr
    rcases List.mem_append.1 ho with ho | ho
    · have whole := hr.2 o ho
      simp only [hob, bne_self_eq_false, Bool.false_or, Bool.and_eq_true,
        Option.isNone_iff_eq_none] at whole
      exact whole.1
    · exact absurd hob (by simpa using hr.1.2 o ho)
  · cases hs
    refine ⟨.inr rfl, fun o ho hob => ?_⟩
    simp only [Bool.and_eq_true, Bool.not_eq_eq_eq_not, Bool.not_true, List.any_eq_false,
      List.all_eq_true] at hw
    rcases List.mem_append.1 ho with ho | ho
    · exact absurd hob (by simpa using hw.1.2 o (hreads o ho))
    · have whole := hw.2 o ho
      simp only [hob, bne_self_eq_false, Bool.false_or, Bool.and_eq_true,
        Option.isNone_iff_eq_none] at whole
      exact whole.1

/-- The sites `copySiteFor` offers are copy sites of the kernel. -/
theorem copySiteFor_site {o : CompileOptions} {c : Conflict} {s : CopySite}
    (hs : copySiteFor o k c = some s) : ∃ h b, copySite k h b = some s := by
  unfold copySiteFor at hs
  obtain ⟨⟨op, b⟩, -, hs⟩ := List.exists_of_findSome?_eq_some hs
  dsimp only at hs
  split_ifs at hs
  obtain ⟨h, -, hs⟩ := Option.bind_eq_some_iff.1 hs
  exact ⟨h, b, hs⟩

/-- Moving an op's operands off a buffer it touches only whole keeps its windows. -/
theorem retarget_windowsOf {op : TileOp} {src dst : BufferId}
    (hwhole : ∀ o ∈ op.operands, o.buffer = src → o.step = none) :
    (retarget op src dst).WindowsOf op := by
  have moved : ∀ o ∈ op.operands, (if o.buffer == src then { o with buffer := dst } else o).step.isSome →
      (if o.buffer == src then { o with buffer := dst } else o) ∈ op.operands := by
    intro o ho hw
    by_cases hb : o.buffer = src
    · simp [hb, hwhole o ho hb] at hw
    · simpa [hb] using ho
  intro o ho hw
  simp only [retarget, TileOp.detached, TileOp.operands, List.mem_append, List.mem_map] at ho
  rcases ho with ⟨o', ho', rfl⟩ | ⟨o', ho', rfl⟩
  · exact moved o' (List.mem_append_left _ ho') hw
  · exact moved o' (List.mem_append_right _ ho') hw

theorem Kernel.insertBefore_op {a x y : OpId} {o : TileOp} (h : k.insertBefore a o = .ok (x, k'))
    (hy : y.idx < k.ops.size) : k'.op y = k.op y := by
  obtain ⟨b, -, -, -, -, rfl⟩ := Kernel.insertBefore_eq h
  rw [Kernel.op_modifyBlock, Kernel.op_push hy]

open Kernel in
/-- A materializing copy keeps a kernel sound. A reader's copy stands right before the reader and
waits for what the reader waits for; a writer's copy stands right after the writer and takes over
its dependents, which all stand after it. -/
theorem materialize_keeps_sound {site : CopySite} {h : OpId} {b : BufferId} {copy : OpId}
    (hs : k.Sound) (hsite : copySite k h b = some site)
    (hm : (materialize site).run k = .ok (.ok copy, k')) : k'.Sound := by
  obtain ⟨hcase, hwhole⟩ := copySite_whole hsite
  rcases hcase with rfl | rfl
  · simp only [materialize] at hm
    rw [KernelM.run_get_bind] at hm
    obtain ⟨fresh, k₁, h₁, hm⟩ := KernelM.run_bind_eq_ok.1 hm
    rw [KernelM.run_get_bind] at hm
    obtain ⟨copy', k₂, h₂, hm⟩ := KernelM.run_bind_eq_ok.1 hm
    rw [KernelM.run_get_bind] at hm
    obtain ⟨_, k₃, h₃, hm⟩ := KernelM.run_bind_eq_ok.1 hm
    obtain ⟨new, k₄, h₄, hm⟩ := KernelM.run_bind_eq_ok.1 hm
    obtain ⟨_, k₅, h₅, hm⟩ := KernelM.run_bind_eq_ok.1 hm
    obtain ⟨-, rfl⟩ := KernelM.run_pure_eq_ok.1 hm
    have hb₁ := KernelM.run_edit.1 h₁
    have hs₁ := hs.addBuffer hb₁
    have hop₁ : ∀ y, k₁.op y = k.op y := fun y => by
      simp only [Kernel.op, Kernel.op?, (addBuffer_frame hb₁).1]
    have hins := KernelM.run_edit.1 h₂
    obtain ⟨P₀, Q₀, hk₀, -⟩ := bodyOps_insertBefore hins hs₁.loops_nodup hs₁.placedOnce
    have hx : h.idx < k₁.ops.size := hs₁.placedExist h (hk₀ ▸ List.mem_append_right _ List.mem_cons_self)
    -- The copy waits for what the reader waits for, all placed before the reader.
    rw [insertBefore_op hins hx] at h₃
    obtain ⟨hs₃, alike₃, -, P, Q, hk₁, hk₃⟩ := hs₁.insertWaiting hins rfl
      (fun o ho hw => by
        simp only [relayoutOp, TileOp.operands, List.cons_append, List.nil_append, List.mem_cons,
          List.not_mem_nil, or_false] at ho
        rcases ho with rfl | rfl <;> simp [Operand.whole] at hw)
      (fun d hd => hs₁.depsExist h d hd)
      (fun P Q hk d hd hdm => by
        have back := hs₁.dep_before hd (hk ▸ List.mem_append_right _ List.mem_cons_self) hdm
        rw [hk] at back
        exact mem_left_of_pair_sublist (hk ▸ hs₁.placedOnce) back) h₃
    -- The reader, rewritten to read the fresh buffer, takes its own place after the copy.
    have hr := KernelM.run_edit.1 h₄
    have hs₄ := hs₃.replaceOp hr ((retarget_windowsOf fun o ho hob => hwhole o (hop₁ h ▸ ho) hob).trans
      (.of_operands (alike₃.operands hx).symm))
    obtain ⟨P', Q', hk₃', hk₄⟩ := bodyOps_replaceOp hr hs₃.loops_nodup hs₃.placedOnce
    obtain ⟨rfl, rfl⟩ := split_eq_of_nodup (hk₃' ▸ hs₃.placedOnce)
      (hk₃'.symm.trans (show k₃.bodyOps = (P ++ [copy']) ++ h :: Q by rw [hk₃]; simp))
    exact hs₄.addDependency (KernelM.run_update.1 h₅) fun _ _ => by
      rw [hk₄]
      exact pair_sublist_append (by simp) List.mem_cons_self
  · simp only [materialize] at hm
    rw [KernelM.run_get_bind] at hm
    obtain ⟨fresh, k₁, h₁, hm⟩ := KernelM.run_bind_eq_ok.1 hm
    rw [KernelM.run_get_bind] at hm
    obtain ⟨new, k₂, h₂, hm⟩ := KernelM.run_bind_eq_ok.1 hm
    obtain ⟨copy', k₃, h₃, hm⟩ := KernelM.run_bind_eq_ok.1 hm
    obtain ⟨_, k₄, h₄, hm⟩ := KernelM.run_bind_eq_ok.1 hm
    obtain ⟨_, k₅, h₅, hm⟩ := KernelM.run_bind_eq_ok.1 hm
    obtain ⟨-, rfl⟩ := KernelM.run_pure_eq_ok.1 hm
    rw [KernelM.run_modify] at h₄
    obtain ⟨-, rfl⟩ := Prod.mk.inj (Except.ok.inj h₄)
    have hb₁ := KernelM.run_edit.1 h₁
    have hs₁ := hs.addBuffer hb₁
    have hop₁ : ∀ y, k₁.op y = k.op y := fun y => by
      simp only [Kernel.op, Kernel.op?, (addBuffer_frame hb₁).1]
    -- The writer, rewritten to write the fresh buffer, keeps its place.
    have hr := KernelM.run_edit.1 h₂
    have hs₂ := hs₁.replaceOp hr (retarget_windowsOf fun o ho hob => hwhole o (hop₁ h ▸ ho) hob)
    obtain ⟨P, Q, -, hk₂⟩ := bodyOps_replaceOp hr hs₁.loops_nodup hs₁.placedOnce
    -- The copy stands right after it.
    have hia := KernelM.run_edit.1 h₃
    have hs₃ := hs₂.insertAfter hia (fun d hd => by simp [relayoutOp] at hd) fun o ho hw => by
      simp only [relayoutOp, TileOp.operands, List.cons_append, List.nil_append, List.mem_cons,
        List.not_mem_nil, or_false] at ho
      rcases ho with rfl | rfl <;> simp [Operand.whole] at hw
    obtain ⟨P', Q', hk₂', hk₃⟩ := bodyOps_insertAfter hia hs₂.loops_nodup hs₂.placedOnce
    obtain ⟨rfl, rfl⟩ := split_eq_of_nodup (hk₂' ▸ hs₂.placedOnce) (hk₂'.symm.trans hk₂)
    have hnd₃ := hk₃ ▸ hs₃.placedOnce
    have hsplit : P' ++ new :: copy' :: Q' = (P' ++ [new, copy']) ++ Q' := by simp
    -- The writer's dependents stand after the writer and are not the copy, so after the copy.
    have hcopy : copy'.idx < k₃.ops.size :=
      hs₃.placedExist copy' (hk₃ ▸ List.mem_append_right _ (List.mem_cons_of_mem _ List.mem_cons_self))
    have hs₄ := hs₃.redirectDependents hcopy fun y hy hw hne _ => by
      have back := hs₃.dep_before hw hy (hk₃ ▸ List.mem_append_right _ List.mem_cons_self)
      rw [hk₃] at back ⊢
      have hy' := mem_right_of_pair_sublist hnd₃ back
      rcases List.mem_cons.1 hy' with rfl | hy'
      · exact absurd rfl hne
      · rw [hsplit]
        exact pair_sublist_append (by simp) hy'
    have hbody : (k₃.redirectDependents new copy').bodyOps = k₃.bodyOps :=
      bodyOps_congr redirectDependents_frame.1 redirectDependents_frame.2.1
    exact hs₄.addDependency (KernelM.run_update.1 h₅) fun _ _ => by
      rw [hbody, hk₃]
      exact ((List.nil_sublist Q').cons_cons copy' |>.cons_cons new).trans (List.sublist_append_right P' _)

/-- Every round that inserts a copy keeps the kernel sound. -/
theorem solveWithCopies_keeps_sound {o : CompileOptions} {r : List (BufferId × Layout) × List OpId} :
    ∀ {budget : Nat} {copies : List OpId} {k k' : Kernel}, k.Sound →
      (solveWithCopies o budget copies).run k = .ok (.ok r, k') → k'.Sound
  | budget, copies, k, k', hs, h => by
    rw [solveWithCopies, KernelM.run_get_bind] at h
    obtain ⟨res, k₁, hr, h⟩ := KernelM.run_bind_eq_ok.1 h
    obtain ⟨hk, -⟩ := solveRound_ok hr
    rw [hk] at h
    rcases res with c | a
    · cases budget with
      | zero => cases Except.ok.inj h
      | succ fuel =>
        simp only at h
        split at h
        · rename_i s hsite
          obtain ⟨copy, k₂, hm, h⟩ := KernelM.run_bind_eq_ok.1 h
          rw [KernelM.run_lift_eq_ok] at hm
          obtain ⟨x, b, hxb⟩ := copySiteFor_site hsite
          exact solveWithCopies_keeps_sound (materialize_keeps_sound hs hxb hm) h
        · cases Except.ok.inj h
    · exact hs.of_pure h

theorem assignLayouts_keeps_sound {o : CompileOptions} {copies : List OpId} (hs : k.Sound)
    (h : (assignLayouts o).run k = .ok (.ok copies, k')) : k'.Sound := by
  unfold assignLayouts at h
  rw [KernelM.run_get_bind] at h
  obtain ⟨_, kr, hsolve, h⟩ := KernelM.run_bind_eq_ok.1 h
  obtain ⟨_, kx, hattach, h⟩ := KernelM.run_bind_eq_ok.1 h
  -- Attaching the answer only lays buffers out.
  refine Kernel.Sound.of_pure (Kernel.run_forM_sound (fun _ _ k₁ k₂ hs₁ hstep => ?_)
    (solveWithCopies_keeps_sound hs hsolve) hattach) h
  rw [KernelM.run_get_bind] at hstep
  split at hstep
  · rw [KernelM.run_lift_eq_ok, KernelM.run_update] at hstep
    exact hs₁.attachLayout hstep
  · exact hs₁.of_pure hstep

end Assignment

end TileKernel
