import TileKernel.Pass.Manager
import TileKernel.Proofs.DepthOne
import TileKernel.Proofs.Assignment

/-!
# What the rewrite passes keep

Store granularity, type decoupling and simplification rewrite ops: they replace, insert and remove
ops and add dependencies. Type decoupling also declares temporaries, each with a layout and no
swizzle. A relation between kernels that each of these edits keeps (`EditsKeep`) is kept by every
run of the passes (`EditsKeep.of_runPasses`). None of the edits attaches, changes or drops a
swizzle, so every buffer handle reads the same swizzle before and after any run of the passes
(`runPasses_keeps_swizzles`), and a buffer the passes declared carries none.
-/

set_option autoImplicit false

namespace TileKernel

namespace Kernel

variable {k k₁ k' : Kernel}

/-- Every buffer handle reads the same swizzle in both kernels; past the end of the arena both
read none. -/
def SwizzlesKept (k k' : Kernel) : Prop := ∀ b, (k'.buffer b).swizzle = (k.buffer b).swizzle

theorem SwizzlesKept.refl (k : Kernel) : k.SwizzlesKept k := fun _ => rfl

theorem SwizzlesKept.trans (h₁ : k.SwizzlesKept k₁) (h₂ : k₁.SwizzlesKept k') : k.SwizzlesKept k' :=
  fun b => (h₂ b).trans (h₁ b)

theorem swizzlesKept_of_buffers (h : k'.buffers = k.buffers) : k.SwizzlesKept k' := fun b => by
  simp only [Kernel.buffer, Kernel.buffer?, h]

/-! ### Edits -/

theorem replaceOp_buffers {old x : OpId} {o : TileOp} (h : k.replaceOp old o = .ok (x, k')) :
    k'.buffers = k.buffers := by
  obtain ⟨b, -, -, -, -, rfl⟩ := replaceOp_eq h
  exact buffers_modifyBlock.trans (redirectDependents_alike _ _).1

theorem insertBefore_buffers {a x : OpId} {o : TileOp} (h : k.insertBefore a o = .ok (x, k')) :
    k'.buffers = k.buffers := by
  obtain ⟨b, -, -, -, -, rfl⟩ := insertBefore_eq h
  exact buffers_modifyBlock

theorem removeOp_buffers {h : OpId} (hr : k.removeOp h = .ok k') : k'.buffers = k.buffers := by
  obtain ⟨b, -, -, rfl⟩ := removeOp_eq hr
  exact buffers_modifyBlock.trans bypass_alike.1

theorem addDependency_buffers {h on : OpId} (hd : k.addDependency h on = .ok k') :
    k'.buffers = k.buffers := by
  obtain ⟨-, -, rfl⟩ := addDependency_ok hd
  rfl

/-- Declaring a buffer without a swizzle keeps every swizzle: its handle read none before. -/
theorem swizzlesKept_addBuffer {b : Buffer} {x : BufferId} (hb : b.swizzle = none)
    (h : k.addBuffer b = .ok (x, k')) : k.SwizzlesKept k' := by
  unfold Kernel.addBuffer at h
  split_ifs at h
  obtain ⟨-, rfl⟩ := Prod.mk.inj (Except.ok.inj h)
  intro b'
  simp only [Kernel.buffer, Kernel.buffer?, Array.getElem?_push]
  split_ifs with hend
  · -- The new handle read the default buffer, which has no swizzle.
    simp only [hend, Array.getElem?_eq_none (Nat.le_refl _), Option.getD_some, Option.getD_none, hb]
    rfl
  · rfl

theorem swizzlesKept_attachLayout {b : BufferId} {l : Layout} (h : k.attachLayout b l = .ok k') :
    k.SwizzlesKept k' := by
  obtain ⟨hb, rfl⟩ := attachLayout_ok h
  intro b'
  rw [buffer_modifyBuffer hb]
  split_ifs <;> rfl

end Kernel

/-! ### Passes -/

namespace KernelM

variable {ε α β : Type} {k k' : Kernel}

theorem run_liftM_eq_ok {x : Checked α} {a : α} :
    (liftM x : KernelM ε α).run k = .ok (.ok a, k') ↔ x = .ok a ∧ k = k' := by
  rw [run_liftM]
  rcases x with fault | b
  · simp
  · simp

theorem run_throw_bind_ne_ok {e : ε} {f : α → KernelM ε β} {b : β} :
    (throw e >>= f).run k ≠ .ok (.ok b, k') := by
  rw [run_bind, run_throw]
  simp

end KernelM

section Passes

variable {k k' : Kernel}

/-- A temporary for a cast is declared without a swizzle. -/
theorem tempFor_swizzle {o : Operand} {dtype : Scalar} {b : Buffer} {l : Layout}
    (h : tempFor k o dtype = .ok (some (b, l))) : b.swizzle = none := by
  unfold tempFor at h
  dsimp only at h
  split at h
  · split at h
    · rcases hn : dtype.name with fault | name
      · simp [hn, bind, Except.bind] at h
      · simp only [hn, bind, Except.bind, pure, Except.pure, Except.ok.injEq, Option.some.injEq,
          Prod.mk.injEq] at h
        rw [← h.1]
    · cases h
  · cases h

/-- Planning one temporary reads the kernel only, and answers the temporary `tempFor` gives for
the operand asked for, at its position. -/
theorem plan_temp_eq {x : OpId} {c : Nat × Operand × Scalar} {t : Nat × Operand × Buffer × Layout}
    {k₀ : Kernel}
    (hs : (do
        match ← liftM (tempFor k₀ c.2.1 c.2.2) with
        | some t => pure (c.1, c.2.1, t)
        | none => do
          let source ← liftM (k₀.buffer c.2.1.buffer).dtype.name
          throw (KernelError.implicitConversion (k₀.op x).name c.1 source (← liftM c.2.2.name)) :
        KernelM KernelError (Nat × Operand × Buffer × Layout)).run k = .ok (.ok t, k')) :
    k' = k ∧ ∃ b l, tempFor k₀ c.2.1 c.2.2 = .ok (some (b, l)) ∧ t = (c.1, c.2.1, b, l) := by
  obtain ⟨r, k₁, h₁, hs⟩ := KernelM.run_bind_eq_ok.1 hs
  obtain ⟨hr, rfl⟩ := KernelM.run_liftM_eq_ok.1 h₁
  split at hs
  · obtain ⟨ht, rfl⟩ := Prod.mk.inj (Except.ok.inj hs)
    obtain rfl := Except.ok.inj ht
    exact ⟨rfl, _, _, hr, rfl⟩
  · obtain ⟨_, k₂, h₂, hs⟩ := KernelM.run_bind_eq_ok.1 hs
    obtain ⟨_, k₃, h₃, hs⟩ := KernelM.run_bind_eq_ok.1 hs
    rw [KernelM.run_throw] at hs
    cases hs

/-- Planning one temporary reads the kernel only, and plans a buffer with no swizzle for the
operand asked for. -/
theorem plan_temp {x : OpId} {c : Nat × Operand × Scalar} {t : Nat × Operand × Buffer × Layout}
    {k₀ : Kernel}
    (hs : (do
        match ← liftM (tempFor k₀ c.2.1 c.2.2) with
        | some t => pure (c.1, c.2.1, t)
        | none => do
          let source ← liftM (k₀.buffer c.2.1.buffer).dtype.name
          throw (KernelError.implicitConversion (k₀.op x).name c.1 source (← liftM c.2.2.name)) :
        KernelM KernelError (Nat × Operand × Buffer × Layout)).run k = .ok (.ok t, k')) :
    k' = k ∧ t.2.1 = c.2.1 ∧ t.2.2.1.swizzle = none := by
  obtain ⟨rfl, b, l, hb, rfl⟩ := plan_temp_eq hs
  exact ⟨rfl, rfl, tempFor_swizzle hb⟩

/-! ### Relations every edit of the passes keeps -/

/-- A preorder on kernels that every edit of the rewrite passes keeps: replacing, inserting and
removing an op, adding a dependency, and declaring a temporary without a swizzle and laying it
out. Whatever such a relation asks, every run of the passes keeps (`EditsKeep.of_runPasses`). -/
structure EditsKeep (R : Kernel → Kernel → Prop) : Prop where
  refl : ∀ k, R k k
  trans : ∀ {k₁ k₂ k₃ : Kernel}, R k₁ k₂ → R k₂ k₃ → R k₁ k₃
  replaceOp : ∀ {k k' : Kernel} {old x : OpId} {o : TileOp},
    k.replaceOp old o = .ok (x, k') → R k k'
  insertBefore : ∀ {k k' : Kernel} {a x : OpId} {o : TileOp},
    k.insertBefore a o = .ok (x, k') → R k k'
  removeOp : ∀ {k k' : Kernel} {h : OpId}, k.removeOp h = .ok k' → R k k'
  addDependency : ∀ {k k' : Kernel} {h on : OpId}, k.addDependency h on = .ok k' → R k k'
  addBuffer : ∀ {k k' : Kernel} {b : Buffer} {x : BufferId}, b.swizzle = none →
    k.addBuffer b = .ok (x, k') → R k k'
  attachLayout : ∀ {k k' : Kernel} {b : BufferId} {l : Layout},
    k.attachLayout b l = .ok k' → R k k'

namespace EditsKeep

variable {R : Kernel → Kernel → Prop}

theorem of_pure (hR : EditsKeep R) {β : Type} {a b : β}
    (h : (pure a : KernelM KernelError β).run k = .ok (.ok b, k')) : R k k' := by
  obtain ⟨-, rfl⟩ := Prod.mk.inj (Except.ok.inj h)
  exact hR.refl k

/-- A fold each of whose steps keeps the relation keeps it. -/
theorem of_foldlM (hR : EditsKeep R) {γ β : Type} {f : β → γ → KernelM KernelError β}
    {l : List γ} {b b' : β}
    (step : ∀ d ∈ l, ∀ {b₁ k₁ b₂ k₂}, (f b₁ d).run k₁ = .ok (.ok b₂, k₂) → R k₁ k₂)
    (h : (l.foldlM f b).run k = .ok (.ok b', k')) : R k k' :=
  KernelM.run_foldlM_ok (fun _ _ kx => R k kx) []
    (fun d hd _ _ _ _ _ keep hs => hR.trans keep (step d hd hs)) (hR.refl k) h

/-- A loop each of whose steps keeps the relation keeps it. -/
theorem of_forM (hR : EditsKeep R) {γ : Type} {f : γ → KernelM KernelError PUnit} {l : List γ}
    (step : ∀ d ∈ l, ∀ {k₁ k₂}, (f d).run k₁ = .ok (.ok (), k₂) → R k₁ k₂)
    (h : (l.forM f).run k = .ok (.ok (), k')) : R k k' :=
  KernelM.run_forM_ok (fun _ kx => R k kx) []
    (fun d hd _ _ _ keep hs => hR.trans keep (step d hd hs)) (hR.refl k) h

theorem of_dependencies (hR : EditsKeep R) {c : OpId} {ds : List OpId}
    (h : (ds.forM fun d => KernelM.update (·.addDependency c d)).run k = .ok (.ok (), k')) :
    R k k' :=
  hR.of_forM (fun _ _ _ _ hs => hR.addDependency (KernelM.run_update.1 hs)) h

theorem of_storeGranularity (hR : EditsKeep R) {t : Target} {c : Bool}
    (h : (storeGranularity t).run k = .ok (.ok c, k')) : R k k' := by
  unfold storeGranularity at h
  rw [KernelM.run_get_bind] at h
  refine hR.of_foldlM (fun d _ b₁ k₁ b₂ k₂ hs => ?_) h
  rw [KernelM.run_get_bind] at hs
  dsimp only at hs
  obtain ⟨legal, k₃, h₃, hs⟩ := KernelM.run_bind_eq_ok.1 hs
  obtain ⟨-, rfl⟩ := KernelM.run_liftM_eq_ok.1 h₃
  -- Only a copy or atomic whose chunk does not fit is replaced.
  split at hs
  · exact hR.of_pure hs
  split at hs
  · exact hR.of_pure hs
  obtain ⟨_, k₄, h₄, hs⟩ := KernelM.run_bind_eq_ok.1 hs
  exact hR.trans (hR.replaceOp (KernelM.run_edit.1 h₄)) (hR.of_pure hs)

theorem of_decouple (hR : EditsKeep R) {x : OpId} {wanted : List (Nat × Operand × Scalar)}
    (h : (decouple x wanted).run k = .ok (.ok (), k')) : R k k' := by
  unfold decouple at h
  rw [KernelM.run_get_bind] at h
  dsimp only at h
  obtain ⟨temps, k₁, h₁, h⟩ := KernelM.run_bind_eq_ok.1 h
  -- Planning the temporaries reads the kernel only, and none of them has a swizzle.
  obtain ⟨rfl, planned⟩ := KernelM.run_mapM_ok (fun a b => b = a)
    (fun _ (t : Nat × Operand × Buffer × Layout) _ => t.2.2.1.swizzle = none)
    (fun _ => rfl) (fun h₁ h₂ => h₂.trans h₁) (fun h _ => h)
    (fun _ _ _ _ _ hs => ⟨(plan_temp hs).1, (plan_temp hs).2.2⟩) h₁
  have fresh := forall_mem_of_forall₂ planned fun _ _ h => h
  obtain ⟨acc, k₂, h₂, h⟩ := KernelM.run_bind_eq_ok.1 h
  obtain ⟨replaced, k₃, h₃, h⟩ := KernelM.run_bind_eq_ok.1 h
  refine hR.trans (hR.of_foldlM (fun t ht b₁ k₄ b₂ k₅ hs => ?_) h₂)
    (hR.trans (hR.replaceOp (KernelM.run_edit.1 h₃)) (hR.of_dependencies h))
  -- Each cast declares its temporary, lays it out, and inserts and links the cast.
  rw [KernelM.run_get_bind] at hs
  obtain ⟨temp, k₆, h₆, hs⟩ := KernelM.run_bind_eq_ok.1 hs
  obtain ⟨_, k₇, h₇, hs⟩ := KernelM.run_bind_eq_ok.1 hs
  obtain ⟨cast, k₈, h₈, hs⟩ := KernelM.run_bind_eq_ok.1 hs
  obtain ⟨_, k₉, h₉, hs⟩ := KernelM.run_bind_eq_ok.1 hs
  have declared := hR.addBuffer (by exact fresh t ht) (KernelM.run_edit.1 h₆)
  have laid := hR.attachLayout (KernelM.run_update.1 h₇)
  have inserted := hR.insertBefore (KernelM.run_edit.1 h₈)
  exact hR.trans declared (hR.trans laid (hR.trans inserted
    (hR.trans (hR.of_dependencies h₉) (hR.of_pure hs))))

theorem of_typeDecoupling (hR : EditsKeep R) {c : Bool}
    (h : typeDecoupling.run k = .ok (.ok c, k')) : R k k' := by
  unfold typeDecoupling at h
  rw [KernelM.run_get_bind] at h
  refine hR.of_foldlM (fun d _ b₁ k₁ b₂ k₂ hs => ?_) h
  rw [KernelM.run_get_bind] at hs
  dsimp only at hs
  split at hs
  · exact hR.of_pure hs
  obtain ⟨_, k₃, h₃, hs⟩ := KernelM.run_bind_eq_ok.1 hs
  exact hR.trans (hR.of_decouple h₃) (hR.of_pure hs)

theorem of_simplify (hR : EditsKeep R) {c : Bool} (h : simplify.run k = .ok (.ok c, k')) :
    R k k' := by
  unfold simplify at h
  obtain ⟨_, k₁, h₁, h⟩ := KernelM.run_bind_eq_ok.1 h
  obtain ⟨_, k₂, h₂, h⟩ := KernelM.run_bind_eq_ok.1 h
  obtain ⟨_, k₃, h₃, h⟩ := KernelM.run_bind_eq_ok.1 h
  have normalized : R k k₁ := by
    -- Normalizing fills replaces fills.
    unfold normalizeFills at h₁
    rw [KernelM.run_get_bind] at h₁
    refine hR.of_foldlM (fun d _ b₁ k₄ b₂ k₅ hs => ?_) h₁
    rw [KernelM.run_get_bind] at hs
    dsimp only at hs
    split at hs
    · obtain ⟨_, k₆, h₆, hs⟩ := KernelM.run_bind_eq_ok.1 hs
      obtain ⟨-, rfl⟩ := KernelM.run_liftM_eq_ok.1 h₆
      split at hs
      · exact hR.of_pure hs
      obtain ⟨_, k₇, h₇, hs⟩ := KernelM.run_bind_eq_ok.1 hs
      exact hR.trans (hR.replaceOp (KernelM.run_edit.1 h₇)) (hR.of_pure hs)
    · exact hR.of_pure hs
  have folded : R k₁ k₂ := by
    -- Folding replaces ops by fills.
    unfold foldConstants at h₂
    rw [KernelM.run_get_bind] at h₂
    obtain ⟨_, k₄, h₄, h₂⟩ := KernelM.run_bind_eq_ok.1 h₂
    obtain ⟨-, rfl⟩ := KernelM.run_liftM_eq_ok.1 h₄
    obtain ⟨_, k₄, h₄, h₂⟩ := KernelM.run_bind_eq_ok.1 h₂
    refine hR.trans (hR.of_forM (fun d _ k₅ k₆ hs => ?_) h₄) (hR.of_pure h₂)
    obtain ⟨_, k₇, h₇, hs⟩ := KernelM.run_bind_eq_ok.1 hs
    exact hR.trans (hR.replaceOp (KernelM.run_edit.1 h₇)) (hR.of_pure hs)
  have removed : R k₂ k₃ := by
    -- Dead ops are removed.
    unfold removeDead at h₃
    rw [KernelM.run_get_bind] at h₃
    obtain ⟨_, k₄, h₄, h₃⟩ := KernelM.run_bind_eq_ok.1 h₃
    exact hR.trans (hR.of_forM (fun d _ k₅ k₆ hs => hR.removeOp (KernelM.run_update.1 hs)) h₄)
      (hR.of_pure h₃)
  exact hR.trans normalized (hR.trans folded (hR.trans removed (hR.of_pure h)))

theorem of_pass (hR : EditsKeep R) {p : Pass} {c : Bool} (h : p.run.run k = .ok (.ok c, k')) :
    R k k' := by
  cases p with
  | storeGranularity t => exact hR.of_storeGranularity h
  | typeDecoupling => exact hR.of_typeDecoupling h
  | simplify => exact hR.of_simplify h

theorem of_repeatRounds (hR : EditsKeep R) {p : Pass} {c : Bool} :
    ∀ {n : Nat} {k k' : Kernel}, (p.repeatRounds n).run k = .ok (.ok c, k') → R k k'
  | 0, k, k', h => hR.of_pure h
  | n + 1, k, k', h => by
    rw [Pass.repeatRounds] at h
    obtain ⟨changed, k₁, h₁, h⟩ := KernelM.run_bind_eq_ok.1 h
    refine hR.trans (hR.of_pass h₁) ?_
    split at h
    · obtain ⟨_, k₂, h₂, h⟩ := KernelM.run_bind_eq_ok.1 h
      exact hR.trans (hR.of_repeatRounds h₂) (hR.of_pure h)
    · exact hR.of_pure h

/-- Whatever the edits of the passes keep, every run of the passes keeps. -/
theorem of_runPasses (hR : EditsKeep R) {ps : List Pass} {c : Bool}
    (h : (runPasses ps).run k = .ok (.ok c, k')) : R k k' := by
  unfold runPasses at h
  refine hR.of_foldlM (fun p _ b₁ k₁ b₂ k₂ hs => ?_) h
  obtain ⟨_, k₃, h₃, hs⟩ := KernelM.run_bind_eq_ok.1 hs
  exact hR.trans (hR.of_repeatRounds h₃) (hR.of_pure hs)

end EditsKeep

/-- No edit of the passes attaches, changes or drops a swizzle. -/
theorem swizzlesKept_edits : EditsKeep Kernel.SwizzlesKept where
  refl := .refl
  trans := .trans
  replaceOp h := Kernel.swizzlesKept_of_buffers (Kernel.replaceOp_buffers h)
  insertBefore h := Kernel.swizzlesKept_of_buffers (Kernel.insertBefore_buffers h)
  removeOp h := Kernel.swizzlesKept_of_buffers (Kernel.removeOp_buffers h)
  addDependency h := Kernel.swizzlesKept_of_buffers (Kernel.addDependency_buffers h)
  addBuffer hb h := Kernel.swizzlesKept_addBuffer hb h
  attachLayout h := Kernel.swizzlesKept_attachLayout h

/-- No run of the passes attaches, changes or drops a swizzle. -/
theorem runPasses_keeps_swizzles {ps : List Pass} {c : Bool}
    (h : (runPasses ps).run k = .ok (.ok c, k')) : k.SwizzlesKept k' :=
  swizzlesKept_edits.of_runPasses h

end Passes

end TileKernel
