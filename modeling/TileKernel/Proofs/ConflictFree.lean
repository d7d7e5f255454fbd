import TileKernel.Lower
import TileKernel.Proofs.Passes
import Mathlib.Data.List.Sort

/-!
# Bank conflicts after lowering

A swizzle stage looks at the access patterns of every shared buffer it treats and attaches the
first swizzle of the family under which all of them are conflict-free, or none when they already
are. So when a stage succeeds, each buffer it treated is conflict-free against the accessors
present when it ran (`swizzleWhere_conflictFree`).

The standard passes run between the two swizzle stages of `lower`. They may widen a copy's
vector or add casts reading a swizzled buffer, which changes patterns the first stage already
judged, and the second stage treats only the buffers the passes declared. The passes never touch
a swizzle (`runPasses_keeps_swizzles`), so what `lower` guarantees is that every shared buffer
the passes added is conflict-free in the lowered kernel (`lower_added_buffers_conflictFree`);
`lower_leaves_widened_conflict` is a kernel where an older buffer is not.
-/

set_option autoImplicit false

namespace TileKernel

/-! ### Running maxima and searches that succeed -/

section Folds

variable {α β : Type} {f : α → Checked β} {g : β → Nat}

/-- A running maximum that succeeds took every value, each at most the result, and started at
most there. -/
theorem foldlM_max_ok : ∀ {xs : List α} {init w : Nat},
    xs.foldlM (fun w x => do return max w (g (← f x))) init = .ok w →
      init ≤ w ∧ ∀ x ∈ xs, ∃ b, f x = .ok b ∧ g b ≤ w
  | [], init, w, h => by
    obtain rfl : init = w := Except.ok.inj h
    simp
  | x :: xs, init, w, h => by
    rw [List.foldlM_cons] at h
    rcases hx : f x with fault | b
    · simp [hx, bind, Except.bind] at h
    simp only [hx, bind, Except.bind, pure, Except.pure] at h
    obtain ⟨hle, hrest⟩ := foldlM_max_ok h
    refine ⟨le_of_max_le_left hle, ?_⟩
    rintro y (_ | ⟨_, hy⟩)
    · exact ⟨b, hx, le_of_max_le_right hle⟩
    · exact hrest y hy

/-- A running maximum over values that are all at most the start is the start. -/
theorem foldlM_max_of_le : ∀ {xs : List α} {init : Nat}, (∀ x ∈ xs, ∃ b, f x = .ok b ∧ g b ≤ init) →
    xs.foldlM (fun w x => do return max w (g (← f x))) init = .ok init
  | [], _, _ => rfl
  | x :: xs, init, h => by
    obtain ⟨b, hx, hle⟩ := h x List.mem_cons_self
    rw [List.foldlM_cons]
    simp only [hx, bind, Except.bind, pure, Except.pure, Nat.max_eq_left hle]
    exact foldlM_max_of_le fun y hy => h y (List.mem_cons_of_mem _ hy)

/-- A search that finds an element found one of the list that passes the test. -/
theorem findM?_eq_ok_some {p : α → Checked Bool} : ∀ {l : List α} {a : α},
    l.findM? p = .ok (some a) → a ∈ l ∧ p a = .ok true
  | [], a, h => by cases h
  | x :: xs, a, h => by
    rw [List.findM?] at h
    rcases hx : p x with fault | _ | _
    · simp [hx, bind, Except.bind] at h
    · simp only [hx, bind, Except.bind] at h
      obtain ⟨hmem, hp⟩ := findM?_eq_ok_some h
      exact ⟨List.mem_cons_of_mem _ hmem, hp⟩
    · simp only [hx, bind, Except.bind, pure, Except.pure, Except.ok.injEq, Option.some.injEq] at h
      subst h
      exact ⟨List.mem_cons_self, hx⟩

end Folds

/-! ### The bank model -/

namespace BankModel

variable {m : BankModel} {p : AccessPattern} {eb : Nat} {s : Option Swizzle}

/-- Every wavefront asks some bank for at least one word, so a degree is at least 1. -/
theorem one_le_conflictDegree {d : Nat} (h : m.conflictDegree p eb s = .ok d) : 1 ≤ d := by
  unfold conflictDegree at h
  split at h
  · obtain rfl := Except.ok.inj h
    exact Nat.le_refl 1
  · exact (foldlM_max_ok (g := m.busiestBank) h).1

/-- A pattern that `conflictFree` passes has conflict degree 1. -/
theorem conflictDegree_of_conflictFree (h : m.conflictFree p eb s = true) :
    m.conflictDegree p eb s = .ok 1 := by
  unfold conflictFree at h
  unfold conflictDegree
  split
  · rfl
  rename_i hbanks
  simp only [hbanks, decide_false, Bool.false_or, List.all_eq_true] at h
  refine foldlM_max_of_le fun wave hw => ?_
  have hwave := h wave hw
  split at hwave
  · rename_i words hwords
    exact ⟨words, hwords, of_decide_eq_true hwave⟩
  · cases hwave

/-- The order `busiestBank` sorts its (bank, word) keys by: bank first, then word. -/
def KeyLE (a b : Nat × Nat) : Prop := a.1 < b.1 ∨ a.1 = b.1 ∧ a.2 ≤ b.2

instance : DecidableRel KeyLE := fun a b =>
  inferInstanceAs (Decidable (a.1 < b.1 ∨ a.1 = b.1 ∧ a.2 ≤ b.2))

instance : Std.Total KeyLE := ⟨fun a b => by unfold KeyLE; omega⟩

instance : IsTrans (Nat × Nat) KeyLE := ⟨fun a b c => by unfold KeyLE; omega⟩

instance : Std.Antisymm KeyLE := ⟨fun a b hab hba => by
  unfold KeyLE at hab hba
  ext <;> omega⟩

/-- The busiest bank with its keys sorted by insertion, which the kernel can evaluate. -/
theorem busiestBank_eq_insertionSort (m : BankModel) (words : List Nat) :
    m.busiestBank words =
      (((words.map fun w => (w % m.banks, w)).insertionSort KeyLE).foldl busiestStep (none, 0, 1)).2.2 := by
  have order : (fun a b : Nat × Nat => a.1 < b.1 || (a.1 == b.1 && a.2 ≤ b.2)) =
      fun a b => decide (KeyLE a b) := by
    funext a b
    show _ = decide (a.1 < b.1 ∨ a.1 = b.1 ∧ a.2 ≤ b.2)
    simp [Bool.beq_eq_decide_eq]
  rw [busiestBank, order, List.mergeSort_eq_insertionSort]

end BankModel

/-- The worst degree of the patterns is at least each pattern's own. -/
theorem conflictDegree_of_worstDegree {t : Target} {ps : List AccessPattern} {eb w : Nat}
    {s : Option Swizzle} (h : worstDegree t ps eb s = .ok w) (hw : w ≤ 1) :
    ∀ p ∈ ps, conflictDegree t p eb s = .ok 1 := by
  intro p hp
  obtain ⟨d, hd, hle⟩ := (foldlM_max_ok (g := id) h).2 p hp
  have : 1 ≤ d := BankModel.one_le_conflictDegree hd
  obtain rfl : d = 1 := by simp only [id] at hle; omega
  exact hd

/-- A swizzle that `conflictFreeUnder` accepts makes every pattern conflict-free. -/
theorem conflictDegree_of_conflictFreeUnder {t : Target} {ps : List AccessPattern} {eb : Nat}
    {s : Swizzle} (h : conflictFreeUnder t ps eb s = .ok true) :
    ∀ p ∈ ps, conflictDegree t p eb (some s) = .ok 1 := by
  intro p hp
  unfold conflictFreeUnder at h
  rcases hc : ps.forM fun p => (BankModel.ofTarget t).checkAccesses p eb (some s) with fault | _
  · simp [hc, bind, Except.bind] at h
  simp only [hc, bind, Except.bind, pure, Except.pure, Except.ok.injEq, List.all_eq_true] at h
  exact BankModel.conflictDegree_of_conflictFree (h p hp)

/-! ### Kernels that differ only in swizzles -/

namespace Kernel

variable {k k₁ k' : Kernel} {hs hs' : List BufferId}

/-- `k'` is `k` with swizzles attached at most to the buffers `hs`: the same ops and placement,
and the same buffer declarations but for their swizzles. -/
structure Reswizzled (hs : List BufferId) (k k' : Kernel) : Prop where
  ops : k'.ops = k.ops
  body : k'.body = k.body
  loops : k'.loops = k.loops
  removed : k'.removed = k.removed
  size : k'.buffers.size = k.buffers.size
  buffer : ∀ b, k'.buffer b = { k.buffer b with swizzle := (k'.buffer b).swizzle }
  kept : ∀ b ∉ hs, (k'.buffer b).swizzle = (k.buffer b).swizzle

namespace Reswizzled

theorem refl (hs : List BufferId) (k : Kernel) : Reswizzled hs k k :=
  ⟨rfl, rfl, rfl, rfl, rfl, fun _ => rfl, fun _ _ => rfl⟩

theorem trans (h₁ : Reswizzled hs k k₁) (h₂ : Reswizzled hs' k₁ k') : Reswizzled (hs ++ hs') k k' where
  ops := h₂.ops.trans h₁.ops
  body := h₂.body.trans h₁.body
  loops := h₂.loops.trans h₁.loops
  removed := h₂.removed.trans h₁.removed
  size := h₂.size.trans h₁.size
  buffer b := by rw [h₂.buffer b, h₁.buffer b]
  kept b hb := by
    rw [List.mem_append, not_or] at hb
    rw [h₂.kept b hb.2, h₁.kept b hb.1]

/-- What a buffer declares besides its swizzle is the same in both kernels. -/
theorem field {α : Type} (h : Reswizzled hs k k') (F : Buffer → α)
    (hF : ∀ x s, F { x with swizzle := s } = F x) (b : BufferId) : F (k'.buffer b) = F (k.buffer b) := by
  rw [h.buffer b, hF]

theorem op (h : Reswizzled hs k k') (x : OpId) : k'.op x = k.op x := by
  simp only [Kernel.op, Kernel.op?, h.ops]

theorem defUse (h : Reswizzled hs k k') : DefUse.build k' = DefUse.build k := by
  have uses : DefUse.opUses k' = DefUse.opUses k := funext fun x => by simp only [DefUse.opUses, h.op]
  simp only [DefUse.build, uses, liveOps_congr h.body h.loops h.removed]

/-- Access patterns read the ops and the buffers' layouts, shapes and element types, never a
swizzle. -/
theorem accessPatterns (h : Reswizzled hs k k') (t : Target) (d : DefUse) (b : BufferId) :
    TileKernel.accessPatterns k' t d b = TileKernel.accessPatterns k t d b := by
  have hlayout := h.field Buffer.layout fun _ _ => rfl
  have hshape := h.field Buffer.shape fun _ _ => rfl
  have hdtype := h.field Buffer.dtype fun _ _ => rfl
  simp only [TileKernel.accessPatterns, accessPattern, h.op, hlayout, hshape, hdtype]

/-- Attaching a swizzle to one buffer reswizzles it. -/
theorem attach {b : BufferId} {s : Swizzle} (hb : b.idx < k.buffers.size) :
    Reswizzled [b] k (k.modifyBuffer b ({ · with swizzle := some s })) where
  ops := rfl
  body := rfl
  loops := rfl
  removed := rfl
  size := by simp [Kernel.modifyBuffer]
  buffer b' := by
    rw [buffer_modifyBuffer hb]
    split_ifs <;> rfl
  kept b' hb' := by
    have hne : b ≠ b' := by
      rintro rfl
      exact hb' (List.mem_singleton_self b)
    rw [buffer_modifyBuffer hb, if_neg hne]

end Reswizzled

/-- Every access pattern of the buffer is available and has conflict degree 1 under the buffer's
swizzle. -/
def ConflictFree (k : Kernel) (t : Target) (b : BufferId) : Prop :=
  ∃ ps, accessPatterns k t (DefUse.build k) b = .ok ps ∧
    ∀ p ∈ ps, conflictDegree t p (k.buffer b).dtype.bytes (k.buffer b).swizzle = .ok 1

/-- Swizzling other buffers keeps a buffer conflict-free. -/
theorem ConflictFree.reswizzled {t : Target} {b : BufferId} (hc : k.ConflictFree t b)
    (h : Reswizzled hs k k') (hb : b ∉ hs) : k'.ConflictFree t b := by
  obtain ⟨ps, hps, hdeg⟩ := hc
  refine ⟨ps, by rw [h.defUse, h.accessPatterns, hps], fun p hp => ?_⟩
  rw [h.kept b hb, h.field Buffer.dtype (fun _ _ => rfl) b]
  exact hdeg p hp

/-- A buffer is conflict-free after a reswizzling when its patterns before it all have degree 1
under the swizzle it has after. -/
theorem Reswizzled.conflictFree {t : Target} {b : BufferId} {ps : List AccessPattern}
    (h : Reswizzled hs k k') (hps : TileKernel.accessPatterns k t (DefUse.build k) b = .ok ps)
    (hdeg : ∀ p ∈ ps, conflictDegree t p (k.buffer b).dtype.bytes (k'.buffer b).swizzle = .ok 1) :
    k'.ConflictFree t b := by
  refine ⟨ps, by rw [h.defUse, h.accessPatterns, hps], fun p hp => ?_⟩
  rw [h.field Buffer.dtype (fun _ _ => rfl) b]
  exact hdeg p hp

end Kernel

/-! ### One swizzle stage -/

theorem Kernel.attachSwizzle_lt {k k' : Kernel} {b : BufferId} {s : Swizzle}
    (h : (k.attachSwizzle b s).run = .ok (.ok k')) : b.idx < k.buffers.size := by
  unfold Kernel.attachSwizzle at h
  obtain ⟨bf, hb, -⟩ := run_bind_eq_ok.1 h
  exact (tryBuffer_ok (Except.ok.inj hb)).1

section Stage

variable {k k' : Kernel} {o : CompileOptions}

/-- Swizzling one buffer that carries no swizzle attaches one to it at most, and leaves it
conflict-free against its accessors: it is already, or the search found a swizzle making it so. -/
theorem swizzleBuffer_ok {h : BufferId} {r : Option Swizzle} (hnone : (k.buffer h).swizzle = none)
    (hrun : (swizzleBuffer o (DefUse.build k) h).run k = .ok (.ok r, k')) :
    Kernel.Reswizzled [h] k k' ∧ k'.ConflictFree o.target h := by
  unfold swizzleBuffer at hrun
  rw [KernelM.run_get_bind] at hrun
  dsimp only at hrun
  split at hrun
  · exact absurd hrun KernelM.run_throw_bind_ne_ok
  obtain ⟨ps, k₁, h₁, hrun⟩ := KernelM.run_bind_eq_ok.1 hrun
  obtain ⟨hps, rfl⟩ := KernelM.run_liftM_eq_ok.1 h₁
  have same := Kernel.Reswizzled.refl [h] k
  split at hrun
  · -- No accessor: nothing to check.
    rename_i hempty
    obtain ⟨-, rfl⟩ := Prod.mk.inj (Except.ok.inj hrun)
    refine ⟨same, same.conflictFree hps fun p hp => ?_⟩
    simp [List.isEmpty_iff.1 hempty] at hp
  obtain ⟨w, k₂, h₂, hrun⟩ := KernelM.run_bind_eq_ok.1 hrun
  obtain ⟨hw, rfl⟩ := KernelM.run_liftM_eq_ok.1 h₂
  split at hrun
  · -- Conflict-free already: no swizzle.
    rename_i hle
    obtain ⟨-, rfl⟩ := Prod.mk.inj (Except.ok.inj hrun)
    refine ⟨same, same.conflictFree hps ?_⟩
    rw [hnone]
    exact conflictDegree_of_worstDegree hw hle
  obtain ⟨_, k₃, h₃, hrun⟩ := KernelM.run_bind_eq_ok.1 hrun
  obtain ⟨-, rfl⟩ := KernelM.run_liftM_eq_ok.1 h₃
  obtain ⟨_, k₄, h₄, hrun⟩ := KernelM.run_bind_eq_ok.1 hrun
  obtain ⟨-, rfl⟩ := KernelM.run_liftM_eq_ok.1 h₄
  obtain ⟨_, k₅, h₅, hrun⟩ := KernelM.run_bind_eq_ok.1 hrun
  obtain ⟨-, rfl⟩ := KernelM.run_liftM_eq_ok.1 h₅
  obtain ⟨_, kc, hc, hrun⟩ := KernelM.run_bind_eq_ok.1 hrun
  obtain ⟨-, rfl⟩ := KernelM.run_liftM_eq_ok.1 hc
  obtain ⟨found, k₆, h₆, hrun⟩ := KernelM.run_bind_eq_ok.1 hrun
  obtain ⟨hfound, rfl⟩ := KernelM.run_liftM_eq_ok.1 h₆
  split at hrun
  · rw [KernelM.run_throw] at hrun
    cases hrun
  -- The search found a swizzle; attaching it is the only change.
  rename_i s
  obtain ⟨_, k₇, h₇, hrun⟩ := KernelM.run_bind_eq_ok.1 hrun
  obtain ⟨-, rfl⟩ := Prod.mk.inj (Except.ok.inj hrun)
  have attached := KernelM.run_updateChecked.1 (KernelM.run_lift_eq_ok.1 h₇)
  have hlt := Kernel.attachSwizzle_lt attached
  rw [attachSwizzle_ok attached]
  refine ⟨Kernel.Reswizzled.attach hlt, (Kernel.Reswizzled.attach hlt).conflictFree hps ?_⟩
  rw [buffer_modifyBuffer hlt, if_pos rfl]
  exact conflictDegree_of_conflictFreeUnder (findM?_eq_ok_some hfound).2

theorem Kernel.mem_bufferIds {b : BufferId} : b ∈ k.bufferIds ↔ b.idx < k.buffers.size := by
  simp only [Kernel.bufferIds, List.mem_map, List.mem_range]
  constructor
  · rintro ⟨i, hi, rfl⟩
    exact hi
  · exact fun hb => ⟨b.idx, hb, rfl⟩

theorem Kernel.nodup_bufferIds : k.bufferIds.Nodup :=
  (List.nodup_range ..).map fun _ _ h => BufferId.mk.inj h

/-- A map over distinct buffers whose step on a buffer swizzles at most that buffer and leaves a
fact about it that swizzling others keeps: the whole map swizzles at most those buffers and leaves
the fact about each. The step may assume a fact about its buffer that held at the start and that
swizzling others keeps too. -/
theorem run_mapM_reswizzled {ε β : Type} {f : BufferId → KernelM ε β}
    (Pre Post : BufferId → Kernel → Prop)
    (step : ∀ {c k₁ k₂ r}, Pre c k₁ → (f c).run k₁ = .ok (.ok r, k₂) →
      Kernel.Reswizzled [c] k₁ k₂ ∧ Post c k₂)
    (pre : ∀ {c hs k₁ k₂}, Pre c k₁ → Kernel.Reswizzled hs k₁ k₂ → c ∉ hs → Pre c k₂)
    (post : ∀ {c hs k₁ k₂}, Post c k₁ → Kernel.Reswizzled hs k₁ k₂ → c ∉ hs → Post c k₂) :
    ∀ {l : List BufferId} {k k' : Kernel} {rs : List β}, l.Nodup → (∀ c ∈ l, Pre c k) →
      (l.mapM f).run k = .ok (.ok rs, k') → Kernel.Reswizzled l k k' ∧ ∀ c ∈ l, Post c k'
  | [], k, k', rs, _, _, h => by
    rw [List.mapM_nil] at h
    obtain ⟨-, rfl⟩ := Prod.mk.inj (Except.ok.inj h)
    exact ⟨.refl [] k, fun _ hc => absurd hc List.not_mem_nil⟩
  | c :: l, k, k', rs, hnd, hpre, h => by
    rw [List.mapM_cons] at h
    obtain ⟨r, k₁, h₁, h⟩ := KernelM.run_bind_eq_ok.1 h
    obtain ⟨rs', k₂, h₂, h⟩ := KernelM.run_bind_eq_ok.1 h
    obtain ⟨-, rfl⟩ := Prod.mk.inj (Except.ok.inj h)
    rw [List.nodup_cons] at hnd
    obtain ⟨first, hc⟩ := step (hpre c List.mem_cons_self) h₁
    -- The buffers after `c` still carry their starting facts: only `c` was swizzled.
    have rest : ∀ c' ∈ l, Pre c' k₁ := fun c' hc' =>
      pre (hpre c' (List.mem_cons_of_mem _ hc')) first fun e =>
        hnd.1 ((List.mem_singleton.1 e) ▸ hc')
    obtain ⟨later, hl⟩ := run_mapM_reswizzled Pre Post step pre post hnd.2 rest h₂
    refine ⟨first.trans later, ?_⟩
    rintro c' (_ | ⟨_, hc'⟩)
    · exact post hc later hnd.1
    · exact hl c' hc'

/-- What a swizzle stage leaves: only swizzles change, and every shared buffer it treats (one
without a swizzle, not marked `noSwizzle`, not a ring instance, and admitted by `wanted`) is
conflict-free against the accessors it has then. -/
theorem swizzleWhere_conflictFree {wanted : BufferId → Bool} {chosen : List (BufferId × Swizzle)}
    (hrun : (swizzleWhere o wanted).run k = .ok (.ok chosen, k')) :
    (∃ hs, Kernel.Reswizzled hs k k') ∧ ∀ b : BufferId, b.idx < k.buffers.size →
      (k.buffer b).scope = .shared → (k.buffer b).noSwizzle = false → (k.buffer b).swizzle = none →
      (k.buffer b).instanceOf = none → wanted b = true → k'.ConflictFree o.target b := by
  unfold swizzleWhere at hrun
  rw [KernelM.run_get_bind] at hrun
  dsimp only at hrun
  obtain ⟨found, k₁, h₁, hrun⟩ := KernelM.run_bind_eq_ok.1 hrun
  obtain ⟨-, rfl⟩ := Prod.mk.inj (Except.ok.inj hrun)
  -- Each treated buffer is swizzled by the chains of the stage's starting kernel, which stay the
  -- chains of every kernel on the way.
  have map := run_mapM_reswizzled
    (fun c kc => (kc.buffer c).swizzle = none ∧ DefUse.build kc = DefUse.build k)
    (fun c kc => kc.ConflictFree o.target c)
    (fun {c k₂ k₃ r} hpre hs => by
      obtain ⟨sw, k₄, h₄, hs⟩ := KernelM.run_bind_eq_ok.1 hs
      obtain ⟨-, rfl⟩ := Prod.mk.inj (Except.ok.inj hs)
      rw [← hpre.2] at h₄
      exact swizzleBuffer_ok hpre.1 h₄)
    (fun {c hs k₂ k₃} hpre hr hc => ⟨(hr.kept c hc).trans hpre.1, hr.defUse.trans hpre.2⟩)
    (fun hpost hr hc => hpost.reswizzled hr hc)
    (Kernel.nodup_bufferIds.filter _) (fun c hc => ?_) h₁
  · refine ⟨⟨_, map.1⟩, fun b hb hshared hno hnone hinst hwanted => map.2 b ?_⟩
    simp [List.mem_filter, Kernel.mem_bufferIds, hb, hshared, hno, hnone, hinst, hwanted]
  · simp only [List.mem_filter, Bool.and_eq_true, Option.isNone_iff_eq_none] at hc
    exact ⟨hc.2.1.1.2, rfl⟩

end Stage

/-! ### Lowering -/

theorem KernelM.run_check_eq_ok {k k' : Kernel} {f : Kernel → Except KernelError Unit} :
    (KernelM.check f).run k = .ok (.ok (), k') ↔ f k = .ok () ∧ k = k' := by
  unfold KernelM.check
  rw [KernelM.run_get_bind]
  rcases f k with e | _
  · change (Except.ok (Except.error e, k) : Checked _) = _ ↔ _
    simp
  · change (Except.ok (Except.ok (), k) : Checked _) = _ ↔ _
    simp

theorem Kernel.buffer_of_size_le {k : Kernel} {b : BufferId} (h : k.buffers.size ≤ b.idx) :
    k.buffer b = default := by
  simp [Kernel.buffer, Kernel.buffer?, Array.getElem?_eq_none h]

/-- What lowering guarantees about bank conflicts: every shared buffer that the rewrite passes
declared, unless it is marked `noSwizzle` or is a ring instance, is conflict-free in the lowered
kernel against every accessor it has there. The passes start from the kernel that
`layoutAndPipeline` leaves, so these are the buffers from its count on. -/
theorem lower_added_buffers_conflictFree {o : CompileOptions} {k k' : Kernel}
    (hsw : o.swizzle = true) (hrun : (lower o).run k = .ok (.ok (), k')) :
    ∃ k₁, (layoutAndPipeline o).run k = .ok (.ok (), k₁) ∧
      ∀ b : BufferId, k₁.buffers.size ≤ b.idx → b.idx < k'.buffers.size →
        (k'.buffer b).scope = .shared → (k'.buffer b).noSwizzle = false →
        (k'.buffer b).instanceOf = none →
        ∃ ps, accessPatterns k' o.target (DefUse.build k') b = .ok ps ∧
          ∀ p ∈ ps, conflictDegree o.target p (k'.buffer b).dtype.bytes (k'.buffer b).swizzle = .ok 1 := by
  unfold lower at hrun
  obtain ⟨_, k₁, h₁, hrun⟩ := KernelM.run_bind_eq_ok.1 hrun
  refine ⟨k₁, h₁, ?_⟩
  rw [KernelM.run_get_bind] at hrun
  obtain ⟨_, k₂, h₂, hrun⟩ := KernelM.run_bind_eq_ok.1 hrun
  have kept := runPasses_keeps_swizzles (KernelM.run_lift_eq_ok.1 h₂)
  dsimp only at hrun
  rw [if_pos hsw] at hrun
  obtain ⟨chosen, k₄, h₄, hrun⟩ := KernelM.run_bind_eq_ok.1 hrun
  -- The final checks read the kernel only.
  obtain ⟨_, k₅, h₅, hrun⟩ := KernelM.run_bind_eq_ok.1 hrun
  obtain ⟨-, rfl⟩ := KernelM.run_check_eq_ok.1 (KernelM.run_lift_eq_ok.1 h₅)
  obtain ⟨-, rfl⟩ := KernelM.run_check_eq_ok.1 (KernelM.run_lift_eq_ok.1 hrun)
  -- The last swizzle stage treats the buffers the passes declared: they carry no swizzle.
  obtain ⟨⟨hs, same⟩, treated⟩ := swizzleWhere_conflictFree h₄
  intro b hknown hb hshared hno hinst
  refine treated b (same.size ▸ hb) ?_ ?_ ?_ ?_ (decide_eq_true hknown)
  · rw [← same.field Buffer.scope (fun _ _ => rfl)]
    exact hshared
  · rw [← same.field Buffer.noSwizzle (fun _ _ => rfl)]
    exact hno
  · rw [kept b, Kernel.buffer_of_size_le hknown]
    rfl
  · rw [← same.field Buffer.instanceOf (fun _ _ => rfl)]
    exact hinst

/-- A shared `f16` tile added to a shared `f32` tile into global memory: type decoupling casts the
`f16` tile into a shared `f32` temporary, which the last swizzle stage treats. -/
def mixedShared : Kernel where
  name := "mixed"
  buffers := #[
    { name := "s", shape := [2, 8], dtype := Scalar.f16, scope := .shared,
      hint := some (.dense (DenseLayout.rowMajor [2, 8])) },
    { name := "a", shape := [2, 8], dtype := Scalar.f32, scope := .shared,
      hint := some (.dense (DenseLayout.rowMajor [2, 8])) },
    { name := "out", shape := [2, 8], dtype := Scalar.f32, scope := .global }]
  ops := #[
    { name := "e", kind := .elementwise .add, inputs := [Operand.whole ⟨0⟩, Operand.whole ⟨1⟩],
      outputs := [Operand.whole ⟨2⟩] }]
  body := [.op ⟨0⟩]

theorem mixedShared_lowered :
    ∃ k', (lower { target := Target.sm80 }).run mixedShared = .ok (.ok (), k') ∧
      ∃ k₁, (layoutAndPipeline { target := Target.sm80 }).run mixedShared = .ok (.ok (), k₁) ∧
        ∀ b : BufferId, k₁.buffers.size ≤ b.idx → b.idx < k'.buffers.size →
          (k'.buffer b).scope = .shared → (k'.buffer b).noSwizzle = false →
          (k'.buffer b).instanceOf = none →
          ∃ ps, accessPatterns k' Target.sm80 (DefUse.build k') b = .ok ps ∧
            ∀ p ∈ ps, conflictDegree Target.sm80 p (k'.buffer b).dtype.bytes (k'.buffer b).swizzle = .ok 1 := by
  -- With the sorts read as insertion sorts, the kernel evaluates the whole lowering.
  have succeeds :
      (((lower { target := Target.sm80 }).run mixedShared).toOption.bind (·.1.toOption)).isSome := by
    simp only [lower, layoutAndPipeline, optimizeSwizzles, optimizeNewSwizzles, swizzleWhere,
      swizzleBuffer, worstDegree, conflictDegree, BankModel.conflictDegree,
      BankModel.busiestBank_eq_insertionSort, KernelM.check, Kernel.validate, Kernel.topologicalOrder,
      Kernel.sortedIds_eq_insertionSort]
    decide +kernel
  rcases run : (lower { target := Target.sm80 }).run mixedShared with fault | ⟨_ | ⟨⟩, k'⟩
  · simp [run, Except.toOption] at succeeds
  · simp [run, Except.toOption] at succeeds
  · exact ⟨k', rfl, lower_added_buffers_conflictFree rfl run⟩

/-- A window of a shared `f16` buffer copied to global memory with a recorded chunk of 3, which no
access pattern admits: the first swizzle stage sees no accessor, and store granularity then widens
the chunk to 8. -/
def widenedCopy : Kernel where
  name := "widened"
  buffers := #[
    { name := "s", shape := [16, 32], dtype := Scalar.f16, scope := .shared,
      hint := some (.dense (DenseLayout.rowMajor [16, 32])) },
    { name := "out", shape := [16, 16], dtype := Scalar.f16, scope := .global }]
  ops := #[
    { name := "c", kind := .copy (some 3) false, inputs := [Operand.stepped ⟨0⟩ 1 16],
      outputs := [Operand.whole ⟨1⟩] }]
  body := [.op ⟨0⟩]

/-- A buffer older than the passes may conflict after lowering: the widened copy reads two rows'
halves in one wavefront, so two words of one bank, and the buffer has no swizzle. -/
theorem lower_leaves_widened_conflict :
    ¬ ∀ (o : CompileOptions) (k k' : Kernel), o.swizzle = true → (∀ b, (k.buffer b).swizzle = none) →
      (lower o).run k = .ok (.ok (), k') →
      ∀ b : BufferId, b.idx < k'.buffers.size → (k'.buffer b).scope = .shared →
        (k'.buffer b).noSwizzle = false → (k'.buffer b).instanceOf = none →
        ∀ ps, accessPatterns k' o.target (DefUse.build k') b = .ok ps →
          ∀ p ∈ ps, conflictDegree o.target p (k'.buffer b).dtype.bytes (k'.buffer b).swizzle = .ok 1 := by
  intro claim
  have fails :
      (((lower { target := Target.sm80 }).run widenedCopy).toOption.bind fun r =>
        r.1.toOption.map fun _ =>
          (r.2.buffer ⟨0⟩).scope == .shared && !(r.2.buffer ⟨0⟩).noSwizzle &&
            (r.2.buffer ⟨0⟩).instanceOf.isNone && decide (0 < r.2.buffers.size) &&
            (accessPatterns r.2 Target.sm80 (DefUse.build r.2) ⟨0⟩).toOption.any fun ps =>
              ps.any fun p => (conflictDegree Target.sm80 p (r.2.buffer ⟨0⟩).dtype.bytes
                (r.2.buffer ⟨0⟩).swizzle).toOption != some 1) = some true := by
    simp only [lower, layoutAndPipeline, optimizeSwizzles, optimizeNewSwizzles, swizzleWhere,
      swizzleBuffer, worstDegree, conflictDegree, BankModel.conflictDegree,
      BankModel.busiestBank_eq_insertionSort, KernelM.check, Kernel.validate, Kernel.topologicalOrder,
      Kernel.sortedIds_eq_insertionSort]
    decide +kernel
  have unswizzled : ∀ b, (widenedCopy.buffer b).swizzle = none := by
    intro b
    rcases b with ⟨_ | _ | n⟩
    · rfl
    · rfl
    · simp [Kernel.buffer, Kernel.buffer?, widenedCopy]
      rfl
  rcases run : (lower { target := Target.sm80 }).run widenedCopy with fault | ⟨_ | ⟨⟩, k'⟩
  · simp [run, Except.toOption] at fails
  · simp [run, Except.toOption] at fails
  rcases hps : accessPatterns k' Target.sm80 (DefUse.build k') ⟨0⟩ with fault | ps
  · simp [run, hps, Except.toOption] at fails
  simp only [run, hps, Except.toOption, Option.bind_some, Option.map_some, Option.some.injEq,
    Bool.and_eq_true, beq_iff_eq, Bool.not_eq_true', Option.isNone_iff_eq_none, decide_eq_true_eq,
    Option.any_some, List.any_eq_true, bne_iff_ne, ne_eq] at fails
  obtain ⟨⟨⟨⟨hshared, hno⟩, hinst⟩, hlt⟩, p, hp, hdeg⟩ := fails
  have one := claim { target := Target.sm80 } widenedCopy k' rfl unswizzled run ⟨0⟩ hlt hshared hno hinst
    ps hps p hp
  simp [one] at hdeg

end TileKernel
