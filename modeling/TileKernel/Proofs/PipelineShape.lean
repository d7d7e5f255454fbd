import TileKernel.Proofs.Validity.Basic
import TileKernel.Proofs.Assignment

/-!
# The shape of a pipelined loop

Pipelining a loop of extent `n` at depth `d > 1` succeeds only when `d - 1 ≤ n`, and then records
an expansion of exactly the documented shape (`pipelineLoop_shape`):

* its blocks are `Expansion.Scheduled`: the load slots of iterations `0, …, d - 2`; a steady block
  of the load slot `d - 1` iterations ahead, a wait, the compute slot and a sync, run `n - (d - 1)`
  times; and a drain of the last `d - 1` iterations, each behind a wait for the load groups still
  in flight;
* every op of the blocks is scheduled for an iteration of the loop, at every counter the steady
  block runs with (`Expansion.IterationsWithin`);
* there is one ring for each buffer the load stage writes and no other, and each ring is
  `Ring.Allocated`: `d` distinct instances, the buffer itself first, then fresh buffers declared
  as instances of the buffer, with its layout and swizzle.

The staged buffers are what `checkPipelinable` collects: the outputs of the load stage, each once
(`checkPipelinable_staged`). The rings are allocated before anything else is made, and nothing
made after them touches a buffer (`pipelineLoop_deep`), so what allocation declares is what the
final kernel holds.
-/

set_option autoImplicit false

namespace TileKernel

/-! ### Staged buffers -/

/-- A left fold whose step adds to the accumulator the elements of `F x` it lacks collects exactly
the elements of every `F x`, and adds no repeats to an accumulator that has none. -/
theorem foldl_collects {α β : Type} {g : List β → α → List β} {F : α → List β}
    (mem : ∀ acc x b, b ∈ g acc x ↔ b ∈ acc ∨ b ∈ F x)
    (nodup : ∀ acc x, acc.Nodup → (g acc x).Nodup) (xs : List α) (acc : List β) :
    (acc.Nodup → (xs.foldl g acc).Nodup) ∧
      ∀ b, b ∈ xs.foldl g acc ↔ b ∈ acc ∨ ∃ x ∈ xs, b ∈ F x := by
  induction xs generalizing acc with
  | nil => simp
  | cons x xs ih =>
    obtain ⟨hn, hm⟩ := ih (g acc x)
    refine ⟨fun hacc => hn (nodup acc x hacc), fun b => ?_⟩
    rw [List.foldl_cons, hm, mem]
    simp only [List.mem_cons, exists_eq_or_imp, or_assoc]

/-- Adding the buffer of each operand unless it is already there collects the operands' buffers,
once each. -/
theorem foldl_operandBuffers (os : List Operand) (acc : List BufferId) :
    (acc.Nodup →
      (os.foldl (fun acc o => if acc.contains o.buffer then acc else acc ++ [o.buffer]) acc).Nodup) ∧
      ∀ b, b ∈ os.foldl (fun acc o => if acc.contains o.buffer then acc else acc ++ [o.buffer]) acc ↔
        b ∈ acc ∨ b ∈ os.map (·.buffer) := by
  have mem : ∀ (acc : List BufferId) (o : Operand) b,
      b ∈ (if acc.contains o.buffer then acc else acc ++ [o.buffer]) ↔ b ∈ acc ∨ b ∈ [o.buffer] := by
    intro acc o b
    by_cases hc : o.buffer ∈ acc
    · simp only [hc, List.contains_iff_mem, if_true, List.mem_singleton]
      exact ⟨.inl, fun h' => h'.elim id fun e => e ▸ hc⟩
    · simp [hc]
  have nodup : ∀ (acc : List BufferId) (o : Operand), acc.Nodup →
      (if acc.contains o.buffer then acc else acc ++ [o.buffer]).Nodup := by
    intro acc o h
    by_cases hc : o.buffer ∈ acc
    · simpa [hc] using h
    · simpa [hc, List.nodup_append, h] using fun a ha (he : a = o.buffer) => hc (he ▸ ha)
  obtain ⟨hn, hm⟩ := foldl_collects mem nodup os acc
  exact ⟨hn, fun b => (hm b).trans (by simp [eq_comm])⟩

/-- **The staged buffers.** A pipelinable loop stages the buffers its load stage writes, each
once. -/
theorem checkPipelinable_staged {k : Kernel} {l : LoopId} {d : Nat} {entries : List (OpId × Stage)}
    {staged : List BufferId} (h : checkPipelinable k l d entries = .ok staged) :
    staged.Nodup ∧ ∀ b, b ∈ staged ↔
      ∃ e ∈ entries.filter (·.2 == .load), b ∈ (k.op e.1).outputs.map (·.buffer) := by
  unfold checkPipelinable at h
  dsimp only at h
  -- The checks either refuse or pass; what passes them all answers the collected outputs.
  split at h
  · cases h
  split at h
  · cases h
  obtain ⟨_, -, h⟩ := except_bind_eq_ok.1 h
  obtain ⟨_, -, h⟩ := except_bind_eq_ok.1 h
  obtain rfl := Except.ok.inj h
  obtain ⟨hn, hm⟩ := foldl_collects (F := fun e : OpId × Stage => (k.op e.1).outputs.map (·.buffer))
    (fun acc e b => (foldl_operandBuffers (k.op e.1).outputs acc).2 b)
    (fun acc e => (foldl_operandBuffers (k.op e.1).outputs acc).1) _ []
  exact ⟨hn List.nodup_nil, fun b => by simpa using hm b⟩

/-! ### Rings -/

/-- A ring of `d` instances allocated after the kernel's first `N` buffers, as kernel `k` holds
it: its instances are distinct buffers of the kernel, the first is the buffer itself, and each
other one, `j`, is fresh and declared as instance `j` of the buffer, with its layout and
swizzle. -/
structure Ring.Allocated (r : Ring) (d N : Nat) (k : Kernel) : Prop where
  length : r.instances.length = d
  nodup : r.instances.Nodup
  head : r.instances.head? = some r.logical
  fresh : ∀ j (hj : j < r.instances.length), 0 < j → N ≤ r.instances[j].idx
  inherits : ∀ j (hj : j < r.instances.length), 0 < j →
    k.buffer r.instances[j] = (k.buffer r.logical).ringInstance r.logical j
  declared : ∀ x ∈ r.instances, x.idx < k.buffers.size

namespace Ring.Allocated

variable {r : Ring} {d N : Nat} {k k' : Kernel}

/-- What is allocated stays so while buffers are kept. -/
theorem retains (h : r.Allocated d N k) (hr : k.Retains k') : r.Allocated d N k' where
  length := h.length
  nodup := h.nodup
  head := h.head
  fresh := h.fresh
  inherits j hj hpos := by
    have hl : r.logical ∈ r.instances := List.mem_of_mem_head? h.head
    rw [hr.buffer _ (h.declared _ (List.getElem_mem hj)), hr.buffer _ (h.declared _ hl)]
    exact h.inherits j hj hpos
  declared x hx := Nat.lt_of_lt_of_le (h.declared x hx) hr.buffers

/-- Fresh after `N` buffers is fresh after fewer. -/
theorem of_le {N' : Nat} (h : r.Allocated d N k) (hN : N' ≤ N) : r.Allocated d N' k :=
  { h with fresh := fun j hj hpos => Nat.le_trans hN (h.fresh j hj hpos) }

end Ring.Allocated

/-- The buffers a ring allocation appends are the instances of the buffer, in order. -/
theorem Kernel.buffer_appended_ringInstance {k : Kernel} {d : Nat} {b : BufferId} {j : Nat}
    (hj : j < d - 1) :
    ({ k with buffers := k.buffers ++ (k.ringInstances d b).toArray } : Kernel).buffer
      ⟨k.buffers.size + j⟩ = (k.buffer b).ringInstance b (j + 1) := by
  simp only [Kernel.buffer, Kernel.buffer?, Kernel.ringInstances]
  rw [Array.getElem?_append_right (Nat.le_add_right _ _), Nat.add_sub_cancel_left]
  simp [hj, Nat.add_comm 1 j]

/-- A ring of `d > 1` instances for `b` is allocated after the kernel's buffers. -/
theorem allocateRing_allocated {k k' : Kernel} {b : BufferId} {d : Nat} {r : Ring} (hd : 1 < d)
    (h : (allocateRing b d).run k = .ok (.ok r, k')) :
    r.logical = b ∧ r.Allocated d k.buffers.size k' := by
  obtain ⟨rfl, rfl, inside⟩ := allocateRing_ok h
  have hb := inside hd
  set N := k.buffers.size
  have same : ({ k with buffers := k.buffers ++ (k.ringInstances d b).toArray } : Kernel).buffer b =
      k.buffer b := (Kernel.retains_appendBuffers _).buffer b hb
  refine ⟨rfl, ⟨by simp; omega, ?_, rfl, fun j hj hpos => ?_, fun j hj hpos => ?_, fun x hx => ?_⟩⟩
  · -- The buffer itself comes before every fresh handle.
    refine List.nodup_cons.2 ⟨fun hm => ?_, (List.nodup_range' ..).map fun _ _ e => by cases e; rfl⟩
    obtain ⟨i, hi, rfl⟩ := List.mem_map.1 hm
    exact absurd (List.mem_range'_1.1 hi).1 (Nat.not_le_of_lt hb)
  · obtain ⟨j, rfl⟩ := Nat.exists_eq_add_of_lt hpos
    simp
  · obtain ⟨j, rfl⟩ := Nat.exists_eq_add_of_lt hpos
    simp only [zero_add] at hj ⊢
    simp only [List.length_cons, List.length_map, List.length_range'] at hj
    simp only [List.getElem_cons_succ, List.getElem_map, List.getElem_range', Nat.one_mul, same]
    exact Kernel.buffer_appended_ringInstance (show j < d - 1 by omega)
  · rcases List.mem_cons.1 hx with rfl | hx
    · simp; omega
    · obtain ⟨i, hi, rfl⟩ := List.mem_map.1 hx
      have := List.mem_range'_1.1 hi
      simp [Kernel.ringInstances]
      omega

/-- The rings of the staged buffers, one each, in order: each is allocated after the kernel's
buffers, in the kernel the allocation leaves. -/
theorem rings_allocated {d : Nat} (hd : 1 < d) :
    ∀ {staged : List BufferId} {rings : List Ring} {k k' : Kernel},
      (staged.mapM fun b => allocateRing b d).run k = .ok (.ok rings, k') →
      List.Forall₂ (fun b r => r.logical = b ∧ r.Allocated d k.buffers.size k') staged rings
  | [], rings, k, k', h => by
    rw [List.mapM_nil] at h
    obtain ⟨hm, -⟩ := Prod.mk.inj (Except.ok.inj h)
    obtain rfl := Except.ok.inj hm
    exact .nil
  | b :: staged, rings, k, k', h => by
    rw [List.mapM_cons] at h
    obtain ⟨r, k₁, h₁, h⟩ := KernelM.run_bind_eq_ok.1 h
    obtain ⟨rs, k₂, h₂, h⟩ := KernelM.run_bind_eq_ok.1 h
    obtain ⟨hm, rfl⟩ := Prod.mk.inj (Except.ok.inj h)
    obtain rfl := Except.ok.inj hm
    obtain ⟨hr, allocated⟩ := allocateRing_allocated hd h₁
    have first := allocateRing_retains h₁
    -- The later rings are allocated after more buffers, and keep this one.
    refine .cons ⟨hr, allocated.retains (rings_retains h₂)⟩ ?_
    exact (rings_allocated hd h₂).imp fun _ _ h => ⟨h.1, h.2.of_le first.buffers⟩

/-! ### Iterations -/

/-- Every op of the blocks of `p` is scheduled, in kernel `k`, for an iteration below `n`: the
prologue's and epilogue's at the counter 0 they run with, the steady block's at every counter
below the trip count. -/
def Expansion.IterationsWithin (p : Expansion) (k : Kernel) (n : Nat) : Prop :=
  (∀ x ∈ p.prologue ++ p.epilogue, ∃ info, (k.op x).sched = some info ∧
    info.iteration.source 0 < n) ∧
  ∀ x ∈ p.steady, ∃ info, (k.op x).sched = some info ∧
    ∀ i < p.steadyTrips, info.iteration.source i < n

section Iterations

variable {k : Kernel} {phase : Phase} {it : IterRef} {P : IterRef → Prop} {x : OpId}

/-- A clone of a slot is scheduled for the slot's iteration. -/
theorem sched_of_slot {es : List (OpId × Stage)} {made : List (OpId × OpId)}
    (h : List.Forall₂ (ClonedAs k phase it) es made) (hx : x ∈ made.map (·.2)) (hp : P it) :
    ∃ info, (k.op x).sched = some info ∧ P info.iteration := by
  obtain ⟨c, hc, rfl⟩ := List.mem_map.1 hx
  obtain ⟨e, -, he⟩ := forall₂_exists_of_mem_right h hc
  exact ⟨_, he.2.2, hp⟩

/-- A barrier is scheduled for the counter it runs with. -/
theorem BarrierAs.sched {kind : BarrierKind} (h : BarrierAs k kind phase x) (hp : P (.relative 0)) :
    ∃ info, (k.op x).sched = some info ∧ P info.iteration :=
  ⟨_, h.2.2, hp⟩

/-- The blocks `pipelineLoop` schedules name iterations of the loop only: the prologue loads
iterations below `d - 1`, the steady block at counter `i < n - (d - 1)` loads `i + d - 1` and
computes `i`, and the drain computes the last iterations. -/
theorem Expansion.Scheduled.iterationsWithin {p : Expansion} {k₀ : Kernel} {l : LoopId} {d : Nat}
    (hs : p.Scheduled k₀ k l d) (hn : d - 1 ≤ (k₀.loop l).extent) :
    p.IterationsWithin k (k₀.loop l).extent := by
  obtain ⟨slots, pro, hpro⟩ := hs.prologue
  obtain ⟨issued, computed, wait, sync, hi, hw, hc, hsy, hsteady⟩ := hs.steady
  obtain ⟨steps, epi, hepi⟩ := hs.epilogue
  have trips := hs.trips
  set n := (k₀.loop l).extent
  refine ⟨fun x hx => ?_, fun x hx => ?_⟩
  · rcases List.mem_append.1 hx with hx | hx
    · -- A prologue slot loads an iteration below `d - 1`.
      rw [hpro, List.mem_flatten] at hx
      obtain ⟨_, hm, hx⟩ := hx
      obtain ⟨made, hmade, rfl⟩ := List.mem_map.1 hm
      obtain ⟨t, ht, cloned⟩ := forall₂_exists_of_mem_right pro hmade
      have : t < d - 1 := List.mem_range.1 ht
      exact sched_of_slot (P := fun r => r.source 0 < n) cloned hx (by simp only [IterRef.source]; omega)
    · -- A drain step waits at counter 0 and computes an iteration past the steady trips.
      rw [hepi, List.mem_flatMap] at hx
      obtain ⟨s, hs', hx⟩ := hx
      obtain ⟨t, ht, waited, cloned⟩ := forall₂_exists_of_mem_right epi hs'
      have := List.mem_range'_1.1 ht
      rcases List.mem_cons.1 hx with rfl | hx
      · exact waited.sched (P := fun r => r.source 0 < n) (by simp only [IterRef.source]; omega)
      · exact sched_of_slot (P := fun r => r.source 0 < n) cloned hx
          (by simp only [IterRef.source]; omega)
  · -- The steady block loads `d - 1` iterations ahead of its counter and computes at it.
    rw [hsteady] at hx
    simp only [List.mem_append, List.mem_singleton] at hx
    have ahead : ∀ i < p.steadyTrips, i + (d - 1) < n := fun i hi => by omega
    have at0 : ∀ i < p.steadyTrips, i + 0 < n := fun i hi => by omega
    rcases hx with ((hx | rfl) | hx) | rfl
    · exact sched_of_slot (P := fun r => ∀ i < p.steadyTrips, r.source i < n) hi hx ahead
    · exact hw.sched (P := fun r => ∀ i < p.steadyTrips, r.source i < n) at0
    · exact sched_of_slot (P := fun r => ∀ i < p.steadyTrips, r.source i < n) hc hx at0
    · exact hsy.sched (P := fun r => ∀ i < p.steadyTrips, r.source i < n) at0

end Iterations

/-! ### The pipelined loop -/

/-- **The shape of a pipelined loop.** Pipelining loop `l` of extent `n` at depth `d > 1` succeeds
only when `d - 1 ≤ n`, and records an expansion whose blocks are the documented schedule, whose
ops are all scheduled for iterations of the loop, and whose rings are one for each buffer the load
stage writes, each of `d` distinct instances: the buffer itself, then fresh buffers declared as its
instances, with its layout and swizzle. -/
theorem pipelineLoop_shape {k k' : Kernel} {l : LoopId} {d : Nat} (hd : 1 < d)
    (h : (pipelineLoop l d).run k = .ok (.ok (), k')) :
    d - 1 ≤ (k.loop l).extent ∧ ∃ p, (k'.loop l).expansion = some p ∧ p.Scheduled k k' l d ∧
      p.IterationsWithin k' (k.loop l).extent ∧ (p.rings.map (·.logical)).Nodup ∧
      (∀ b, b ∈ p.rings.map (·.logical) ↔
        ∃ e ∈ (k.stageEntries l).filter (·.2 == .load), b ∈ (k.op e.1).outputs.map (·.buffer)) ∧
      ∀ r ∈ p.rings, r.Allocated d k.buffers.size k' := by
  obtain ⟨staged, rings, k₂, hcheck, hrings, keep, p, hp, rfl, sched⟩ := pipelineLoop_deep hd h
  obtain ⟨-, enough⟩ := checkPipelinable_ok hcheck
  obtain ⟨nodup, mem⟩ := checkPipelinable_staged hcheck
  have allocated := rings_allocated hd hrings
  -- The rings come in the order of the staged buffers, one each.
  have logical : p.rings.map (·.logical) = staged := by
    have same := List.forall₂_map_right_iff.2 (allocated.imp fun _ _ h => h.1.symm)
    rw [List.forall₂_eq_eq_eq] at same
    exact same.symm
  refine ⟨enough, p, hp, sched, sched.iterationsWithin enough, logical ▸ nodup,
    fun b => logical ▸ mem b, fun r hr => ?_⟩
  obtain ⟨b, -, -, hal⟩ := forall₂_exists_of_mem_right allocated hr
  exact hal.retains keep

/-- Pipelining `stagedCast`, a loop of two iterations, three deep loads both iterations ahead and
never runs the steady block; the expansion still has the documented shape. -/
theorem stagedCast_pipelined_shape : 1 < 3 ∧ ∃ k', (pipelineLoop ⟨0⟩ 3).run stagedCast =
    .ok (.ok (), k') ∧ 3 - 1 ≤ (stagedCast.loop ⟨0⟩).extent ∧ ∃ p, (k'.loop ⟨0⟩).expansion = some p ∧
      p.Scheduled stagedCast k' ⟨0⟩ 3 ∧ p.IterationsWithin k' (stagedCast.loop ⟨0⟩).extent ∧
      (p.rings.map (·.logical)).Nodup ∧
      (∀ b, b ∈ p.rings.map (·.logical) ↔
        ∃ e ∈ (stagedCast.stageEntries ⟨0⟩).filter (·.2 == .load),
          b ∈ (stagedCast.op e.1).outputs.map (·.buffer)) ∧
      ∀ r ∈ p.rings, r.Allocated 3 stagedCast.buffers.size k' := by
  -- With the handle sort read as an insertion sort, the kernel evaluates the whole rewrite.
  have succeeds :
      (((pipelineLoop ⟨0⟩ 3).run stagedCast).toOption.bind (·.1.toOption)).isSome := by
    unfold pipelineLoop
    simp only [Kernel.sortedIds_eq_insertionSort]
    decide +kernel
  rcases run : (pipelineLoop ⟨0⟩ 3).run stagedCast with fault | ⟨_ | ⟨⟩, k'⟩
  · simp [run, Except.toOption] at succeeds
  · simp [run, Except.toOption] at succeeds
  · exact ⟨by decide, k', rfl, pipelineLoop_shape (by decide) run⟩

end TileKernel
