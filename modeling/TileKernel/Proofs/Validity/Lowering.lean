import TileKernel.Proofs.Validity.Stages
import TileKernel.Proofs.Pipelining

/-!
# Lowering keeps kernels valid

Pipelining a loop makes fresh clones and barriers, records them as the loop's expansion in the
order it made them, retires the loop's body, and moves the dependents of each body op onto its
last clone.

* While it makes them (`Kernel.Expanding`), nothing is placed: every new op is unplaced, and
  waits only for older ops, each either new or an op outside the loop that a body op waits for.
* The expansion lists the new ops in creation order, so a new op waits only for new ops before
  it, or for ops placed before the loop: a body op waits for what stands before it, and what is
  outside the loop and before a body op is before the loop (`Kernel.Expanding.setExpansion`).
* A dependent of a body op that is placed after the expansion is recorded is an op of the kernel
  that stood after the body op, so after the loop, and so after the clone it is moved onto
  (`Kernel.Expanded.redirect`).

`lowering_stages_keep_valid` gathers every stage: on a formed kernel that passes `validate`,
each stage of lowering that succeeds leaves a formed kernel that passes `validate`.
-/

set_option autoImplicit false

namespace TileKernel

namespace Kernel

variable {k k' kx ky : Kernel} {l : LoopId}

/-! ### New ops -/

/-- The ops made between two kernels of a run, in creation order. -/
def newOps (k k' : Kernel) : List OpId :=
  (List.range' k.ops.size (k'.ops.size - k.ops.size)).map (⟨·⟩)

theorem mem_newOps {x : OpId} : x ∈ k.newOps k' ↔ k.ops.size ≤ x.idx ∧ x.idx < k'.ops.size := by
  obtain ⟨i⟩ := x
  simp only [newOps, List.mem_map, List.mem_range'_1, OpId.mk.injEq]
  constructor
  · rintro ⟨j, hj, rfl⟩
    omega
  · intro hi
    exact ⟨i, by omega, rfl⟩

theorem newOps_append (h₁ : k.ops.size ≤ kx.ops.size) (h₂ : kx.ops.size ≤ ky.ops.size) :
    k.newOps kx ++ kx.newOps ky = k.newOps ky := by
  have e : kx.ops.size = k.ops.size + (kx.ops.size - k.ops.size) := by omega
  unfold newOps
  rw [← List.map_append, show ky.ops.size - k.ops.size =
    (kx.ops.size - k.ops.size) + (ky.ops.size - kx.ops.size) by omega, ← List.range'_append_1, ← e]

theorem newOps_self : k.newOps k = [] := by
  simp [newOps]

theorem newOps_succ (h : ky.ops.size = kx.ops.size + 1) : kx.newOps ky = [⟨kx.ops.size⟩] := by
  simp [newOps, h]

/-- New ops are listed by increasing handle. -/
theorem newOps_pairwise : (k.newOps k').Pairwise fun a b => a.idx < b.idx :=
  List.pairwise_map.2 (List.pairwise_lt_range' 1 (by decide))

theorem newOps_nodup : (k.newOps k').Nodup := by
  refine newOps_pairwise.imp ?_
  rintro a b h rfl
  exact Nat.lt_irrefl _ h

/-- The new ops depend on the number of ops alone. -/
theorem newOps_congr (h : k'.ops.size = ky.ops.size) : k.newOps k' = k.newOps ky := by
  simp only [newOps, h]

end Kernel

/-- In a list ordered by `R`, a member stands before another it does not follow by `R`. -/
theorem pair_sublist_of_pairwise {α : Type} {R : α → α → Prop} {a b : α} :
    ∀ {xs : List α}, xs.Pairwise R → a ∈ xs → b ∈ xs → a ≠ b → ¬ R b a → [a, b].Sublist xs
  | [], _, ha, _, _, _ => absurd ha List.not_mem_nil
  | x :: xs, hp, ha, hb, hne, hba => by
    rw [List.pairwise_cons] at hp
    rcases List.mem_cons.1 ha with rfl | ha'
    · have hb' : b ∈ xs := (List.mem_cons.1 hb).resolve_left (Ne.symm hne)
      exact List.cons_sublist_cons.2 (List.singleton_sublist.2 hb')
    rcases List.mem_cons.1 hb with rfl | hb'
    · exact absurd (hp.1 a ha') hba
    · exact (pair_sublist_of_pairwise hp.2 ha' hb' hne hba).cons x

/-! ### Three stretches of a list

Pipelining replaces the stretch of the placed ops that a loop's body fills. -/

section Stretches

variable {α : Type} {A B B' C : List α} {a b : α}

theorem mem_mid_or_outer : a ∈ A ++ B ++ C ↔ a ∈ B ∨ a ∈ A ++ C := by
  simp only [List.mem_append]
  tauto

/-- In a list without repeats, a member of the outer stretches is not in the middle one. -/
theorem not_mem_mid (hl : (A ++ B ++ C).Nodup) (ha : a ∈ A ++ C) : a ∉ B := fun hb => by
  rcases List.mem_append.1 ha with ha | ha
  · exact List.disjoint_of_nodup_append (hl.sublist (List.sublist_append_left _ C)) ha hb
  · exact List.disjoint_of_nodup_append hl (List.mem_append_right A hb) ha

/-- A middle stretch may be replaced by one without repeats that shares no member with the
outer ones. -/
theorem nodup_replace_mid (hl : (A ++ B ++ C).Nodup) (hB' : B'.Nodup)
    (hd : ∀ x ∈ B', x ∉ A ++ C) : (A ++ B' ++ C).Nodup := by
  have hAC : (A ++ C).Nodup :=
    hl.sublist ((List.sublist_append_left A B).append (List.Sublist.refl C))
  have hp : (A ++ B' ++ C).Perm (B' ++ (A ++ C)) := by
    rw [← List.append_assoc]
    exact List.perm_append_comm.append_right C
  exact hp.nodup_iff.2 (List.nodup_append.2 ⟨hB', hAC, fun x hx y hy hxy => hd x hx (hxy ▸ hy)⟩)

variable [DecidableEq α]

/-- What stands before a member of the middle stretch, outside it, is in the first one. -/
theorem mem_left_of_pair_sublist_mid (hl : (A ++ B ++ C).Nodup) (hb : b ∈ B) (ha : a ∉ B)
    (h : [a, b].Sublist (A ++ B ++ C)) : a ∈ A := by
  obtain ⟨B₁, B₂, rfl⟩ := List.append_of_mem hb
  have e : A ++ (B₁ ++ b :: B₂) ++ C = (A ++ B₁) ++ b :: (B₂ ++ C) := by simp
  rw [e] at hl h
  rcases List.mem_append.1 (mem_left_of_pair_sublist hl h) with h' | h'
  · exact h'
  · exact absurd (List.mem_append_left _ h') ha

/-- What stands after a member of the middle stretch, outside it, is in the last one. -/
theorem mem_right_of_pair_sublist_mid (hl : (A ++ B ++ C).Nodup) (ha : a ∈ B) (hb : b ∉ B)
    (h : [a, b].Sublist (A ++ B ++ C)) : b ∈ C := by
  obtain ⟨B₁, B₂, rfl⟩ := List.append_of_mem ha
  have e : A ++ (B₁ ++ a :: B₂) ++ C = (A ++ B₁) ++ a :: (B₂ ++ C) := by simp
  rw [e] at hl h
  rcases List.mem_append.1 (mem_right_of_pair_sublist hl h) with h' | h'
  · exact absurd (List.mem_append_right _ (List.mem_cons_of_mem _ h')) hb
  · exact h'

/-- Two members of the outer stretches keep their order when the middle one is replaced. -/
theorem pair_sublist_replace_mid (hl : (A ++ B ++ C).Nodup) (ha : a ∈ A ++ C) (hb : b ∈ A ++ C)
    (h : [a, b].Sublist (A ++ B ++ C)) : [a, b].Sublist (A ++ B' ++ C) :=
  (pair_sublist_of_sublist ((List.sublist_append_left A B).append (List.Sublist.refl C)) hl ha hb
    h).trans ((List.sublist_append_left A B').append (List.Sublist.refl C))

end Stretches

namespace Kernel

variable {k k' kx ky kz : Kernel} {l : LoopId}

/-- A placed op older than every new op stands outside the new ops. -/
theorem mem_outer_of_old {L R : List OpId} {x : OpId} (hx : x ∈ L ++ k.newOps k' ++ R)
    (hlt : x.idx < k.ops.size) : x ∈ L ++ R :=
  (mem_mid_or_outer.1 hx).resolve_left fun hn => absurd (mem_newOps.1 hn).1 (Nat.not_le_of_lt hlt)

/-! ### Making clones and barriers -/

/-- An op of `k` outside loop `l` that a body op of `l` waits for. -/
def Outside (k : Kernel) (l : LoopId) (z : OpId) : Prop :=
  z ∉ (k.loop l).body ∧ ∃ o ∈ (k.loop l).body, k.Waits o z

/-- What pipelining loop `l` of `k` keeps while it lays out rings and makes clones and barriers:
`kx` is sound and places what `k` places, every op of `k` is as it was, and every new op waits
only for older ops, each new or outside the loop. -/
structure Expanding (k : Kernel) (l : LoopId) (kx : Kernel) : Prop where
  origin : k.Sound
  sound : kx.Sound
  body : kx.body = k.body
  loops : kx.loops = k.loops
  removed : kx.removed = k.removed
  size : k.ops.size ≤ kx.ops.size
  old : ∀ x, x.idx < k.ops.size → kx.op x = k.op x
  deps : ∀ y z, k.ops.size ≤ y.idx → kx.Waits y z →
    z.idx < y.idx ∧ (z.idx < k.ops.size → k.Outside l z)

namespace Expanding

theorem refl (hs : k.Sound) : Expanding k l k where
  origin := hs
  sound := hs
  body := rfl
  loops := rfl
  removed := rfl
  size := Nat.le_refl _
  old _ _ := rfl
  deps _ _ hy hw := absurd (lt_of_waits hw) (Nat.not_lt_of_le hy)

/-- The placed ops are those of `k`, all older than any new op. -/
theorem bodyOps (h : Expanding k l kx) : kx.bodyOps = k.bodyOps :=
  bodyOps_congr h.body h.loops

theorem not_mem_bodyOps (h : Expanding k l kx) {y : OpId} (hy : k.ops.size ≤ y.idx) :
    y ∉ kx.bodyOps := fun hm =>
  Nat.not_lt_of_le hy (h.origin.placedExist y (h.bodyOps ▸ hm))

/-- A new op is none of the ops of `k`. -/
theorem ne_of_new {x y : OpId} (hx : k.ops.size ≤ x.idx) (hy : y.idx < k.ops.size) : x ≠ y :=
  fun he => Nat.not_lt_of_le hx (he ▸ hy)

/-- An edit of the buffers alone. -/
theorem of_ops (h : Expanding k l kx) (hs : ky.Sound) (ho : ky.ops = kx.ops)
    (hb : ky.body = kx.body) (hl : ky.loops = kx.loops) (hr : ky.removed = kx.removed) :
    Expanding k l ky where
  origin := h.origin
  sound := hs
  body := hb.trans h.body
  loops := hl.trans h.loops
  removed := hr.trans h.removed
  size := ho ▸ h.size
  old x hx := by
    rw [← h.old x hx]
    simp only [Kernel.op, op?, ho]
  deps y z hy hw := h.deps y z hy (by simpa only [Waits, Kernel.op, op?, ho] using hw)

/-- A new op with no dependencies yet. -/
theorem addOp (h : Expanding k l kx) {o : TileOp} {x : OpId} (hadd : kx.addOp o = .ok (x, ky))
    (hnd : o.deps = []) : Expanding k l ky ∧ x = ⟨kx.ops.size⟩ ∧ ky.ops.size = kx.ops.size + 1 := by
  have hs := h.sound.addOp hadd
  obtain ⟨rfl, rfl⟩ := addOp_ok hadd
  refine ⟨⟨h.origin, hs, h.body, h.loops, h.removed, Nat.le_trans h.size (by simp), fun y hy => ?_,
    fun y z hy hw => ?_⟩, rfl, by simp⟩
  · rw [op_push (Nat.lt_of_lt_of_le hy h.size)]
    exact h.old y hy
  · rcases waits_push hw with ⟨-, hw⟩ | ⟨rfl, hz⟩
    · exact h.deps y z hy hw
    · rw [hnd] at hz
      exact absurd hz List.not_mem_nil

/-- A schedule for a new op. -/
theorem setSched (h : Expanding k l kx) {x : OpId} {info : SchedInfo} (hx : k.ops.size ≤ x.idx)
    (hsched : kx.setSched x info = .ok ky) : Expanding k l ky ∧ ky.ops.size = kx.ops.size := by
  have hs := h.sound.setSched hsched
  obtain ⟨-, rfl⟩ := setSched_ok hsched
  refine ⟨⟨h.origin, hs, h.body, h.loops, h.removed, by simpa [modifyOp] using h.size,
    fun y hy => ?_, fun y z hy hw => ?_⟩, by simp [modifyOp]⟩
  · rw [op_modifyOp_of_ne (ne_of_new hx hy)]
    exact h.old y hy
  · rcases waits_modifyOp hw with ⟨-, hw⟩ | ⟨rfl, hz⟩
    · exact h.deps y z hy hw
    · exact h.deps y z hy hz

/-- A dependency of a new op on an older op, new or outside the loop. -/
theorem addDependency (h : Expanding k l kx) {y z : OpId} (hd : kx.addDependency y z = .ok ky)
    (hy : k.ops.size ≤ y.idx) (hz : z.idx < y.idx) (hout : z.idx < k.ops.size → k.Outside l z) :
    Expanding k l ky ∧ ky.ops.size = kx.ops.size := by
  have hs := h.sound.addDependency hd fun hm => absurd hm (h.not_mem_bodyOps hy)
  obtain ⟨-, -, rfl⟩ := addDependency_ok hd
  refine ⟨⟨h.origin, hs, h.body, h.loops, h.removed, by simpa [modifyOp] using h.size,
    fun x hx => ?_, fun x w hx hw => ?_⟩, by simp [modifyOp]⟩
  · rw [op_modifyOp_of_ne (ne_of_new hy hx)]
    exact h.old x hx
  · rcases waits_modifyOp hw with ⟨-, hw⟩ | ⟨rfl, hw⟩
    · exact h.deps x w hx hw
    · rcases mem_insertSorted.1 hw with rfl | hw
      · exact ⟨hz, hout⟩
      · exact h.deps x w hx hw

end Expanding

/-- A stretch of a pipelining, from `kx` to `ky`, that makes the ops `made` in creation order. -/
structure Makes (k : Kernel) (l : LoopId) (kx ky : Kernel) (made : List OpId) : Prop where
  expanding : Expanding k l ky
  size : kx.ops.size ≤ ky.ops.size
  made : kx.newOps ky = made

namespace Makes

variable {m₁ m₂ : List OpId}

theorem refl (h : Expanding k l kx) : Makes k l kx kx [] := ⟨h, Nat.le_refl _, newOps_self⟩

theorem trans (h₁ : Makes k l kx ky m₁) (h₂ : Makes k l ky kz m₂) : Makes k l kx kz (m₁ ++ m₂) :=
  ⟨h₂.expanding, Nat.le_trans h₁.size h₂.size, by
    rw [← h₁.made, ← h₂.made, newOps_append h₁.size h₂.size]⟩

/-- A stretch that makes no op. -/
theorem of_ops (h : Expanding k l ky) (ho : ky.ops = kx.ops) : Makes k l kx ky [] :=
  ⟨h, by rw [ho], by simp [newOps, ho]⟩

/-- A stretch that makes one op. -/
theorem one (h : Expanding k l ky) (hs : ky.ops.size = kx.ops.size + 1) :
    Makes k l kx ky [⟨kx.ops.size⟩] :=
  ⟨h, by omega, newOps_succ hs⟩

/-- What a stretch makes is new and older than its end. -/
theorem after (hx : Expanding k l kx) (h : Makes k l kx ky m₁) :
    ∀ a ∈ m₁, k.ops.size ≤ a.idx ∧ a.idx < ky.ops.size := fun a ha => by
  rw [← h.made] at ha
  obtain ⟨h₁, h₂⟩ := mem_newOps.1 ha
  exact ⟨Nat.le_trans hx.size h₁, h₂⟩

end Makes

/-! ### Recording the expansion -/

/-- Installing an expansion retires the loop's body and records the expansion, on a loop not
yet pipelined. -/
theorem eq_of_setExpansion {p : Expansion} (h : kx.setExpansion l p = .ok ky) :
    (kx.loop l).expansion = none ∧ ky = ({ kx with removed := kx.removed ++
      ((kx.loop l).body.filter fun h => !kx.removed.contains h) } : Kernel).modifyLoop l
        ({ · with expansion := some p }) := by
  unfold setExpansion at h
  dsimp only at h
  split at h
  · cases h
  rename_i fresh
  simp only [bind, Except.bind] at h
  split at h
  · cases h
  obtain rfl := Except.ok.inj h
  refine ⟨?_, rfl⟩
  simp at fresh
  exact fresh.1

/-- Recording an expansion keeps the body and extent of every loop. -/
theorem loop_setExpansion {l' : LoopId} {e : Option Expansion} :
    ((kx.modifyLoop l ({ · with expansion := e })).loop l').body = (kx.loop l').body ∧
      ((kx.modifyLoop l ({ · with expansion := e })).loop l').extent = (kx.loop l').extent := by
  simp only [Kernel.loop, loop?_modifyLoop]
  split_ifs <;> rcases kx.loop? l' with _ | n <;> exact ⟨rfl, rfl⟩

/-- A loop not yet pipelined places its body at the spot of its one statement. -/
theorem Formed.split_loop (hF : k.Formed) (hl : l.idx < k.loops.size)
    (hnone : (k.loop l).expansion = none) : ∃ A B, k.body = A ++ .loop l :: B ∧
      Stmt.loop l ∉ A ∧ Stmt.loop l ∉ B ∧
      k.bodyOps = A.flatMap k.stmtOps ++ (k.loop l).body ++ B.flatMap k.stmtOps := by
  obtain ⟨A, B, hbody, hA, hB⟩ :=
    body_split_loop hF.loops_nodup (mem_body_of_loopIds hF.loopsOnce hl)
  refine ⟨A, B, hbody, hA, hB, ?_⟩
  rw [bodyOps, hbody, List.flatMap_append, List.flatMap_cons, stmtOps_loop, ← List.append_assoc]
  simp only [LoopNest.placedOps, hnone]

/-- Outside the body of loop `l`, the placed ops of a sound kernel are ops of the arena, not in
the body. -/
theorem Sound.mem_outer {L R : List OpId} (hs : k.Sound)
    (hk : k.bodyOps = L ++ (k.loop l).body ++ R) {x : OpId} (hx : x ∈ L ++ R) :
    x ∈ k.bodyOps ∧ x.idx < k.ops.size ∧ x ∉ (k.loop l).body := by
  have hm : x ∈ k.bodyOps := by
    rw [hk]
    exact ((List.sublist_append_left L _).append (List.Sublist.refl R)).subset hx
  exact ⟨hm, hs.placedExist x hm, not_mem_mid (hk ▸ hs.placedOnce) hx⟩

/-- What pipelining loop `l` of `k` keeps once the expansion is recorded, while the dependents
of the body ops move onto clones: `kz` is sound and places the new ops where `k` placed the body,
an op of `k` waits for what it waited for or for a new op, and no new op waits for a body op. -/
structure Expanded (k : Kernel) (l : LoopId) (kz : Kernel) : Prop where
  origin : k.Sound
  sound : kz.Sound
  size : k.ops.size ≤ kz.ops.size
  split : ∃ A C, k.bodyOps = A ++ (k.loop l).body ++ C ∧ kz.bodyOps = A ++ k.newOps kz ++ C
  oldDeps : ∀ y z, y.idx < k.ops.size → kz.Waits y z → k.Waits y z ∨ k.ops.size ≤ z.idx
  newDeps : ∀ y z, k.ops.size ≤ y.idx → kz.Waits y z → z ∉ (k.loop l).body

/-- Recording the new ops as the expansion of a loop not yet pipelined places them where the
body stood, and retires the body: the kernel is all it was but that, and nothing else moves. -/
theorem Expanding.setExpansion_frame (h : Expanding k l kx) {p : Expansion}
    (hl : l.idx < k.loops.size) (hE : p.prologue ++ p.steady ++ p.epilogue = k.newOps kx)
    (hset : kx.setExpansion l p = .ok ky) :
    ky.ops = kx.ops ∧ ky.buffers = kx.buffers ∧ ky.body = kx.body ∧
      ky.loops.size = kx.loops.size ∧
      (∀ l', (ky.loop l').body = (kx.loop l').body ∧ (ky.loop l').extent = (kx.loop l').extent) ∧
      (∀ x ∈ ky.removed, x ∈ kx.removed ∨ x ∈ (k.loop l).body) ∧
      ∃ L R, k.bodyOps = L ++ (k.loop l).body ++ R ∧ ky.bodyOps = L ++ k.newOps kx ++ R := by
  obtain ⟨hnone, rfl⟩ := eq_of_setExpansion hset
  have hloop : kx.loop l = k.loop l := by simp only [Kernel.loop, loop?, h.loops]
  rw [hloop] at hnone ⊢
  obtain ⟨A, B, hbody, hA, hB, hk⟩ := h.origin.toFormed.split_loop hl hnone
  refine ⟨rfl, rfl, rfl, by simp [modifyLoop], fun l' => loop_setExpansion, fun x hx => ?_,
    _, _, hk, ?_⟩
  · rcases List.mem_append.1 hx with hx | hx
    · exact .inl hx
    · exact .inr (List.mem_filter.1 hx).1
  · set kr : Kernel :=
      { kx with removed := kx.removed ++ ((k.loop l).body.filter fun h => !kx.removed.contains h) }
    rw [bodyOps_modifyLoop (k := kr) (h.body.trans hbody) hA hB (h.loops ▸ hl),
      (stmtOps_congr h.loops : kr.stmtOps = k.stmtOps)]
    simp [LoopNest.placedOps, hE]

/-- Recording the new ops as the loop's expansion leaves a sound kernel: an op of `k` waits only
for ops that stood before it, outside the body; a new op waits for an older new op, or for an op
outside the loop that a body op waits for, which stands before the loop. -/
theorem Expanding.setExpansion (h : Expanding k l kx) {p : Expansion}
    (hl : l.idx < k.loops.size) (hE : p.prologue ++ p.steady ++ p.epilogue = k.newOps kx)
    (hset : kx.setExpansion l p = .ok ky) : Expanded k l ky := by
  obtain ⟨ho, hbuf, hbd, hsz, hlp, hrm, L, R, hk, hky⟩ := h.setExpansion_frame hl hE hset
  have hop : ∀ x, ky.op x = kx.op x := fun x => by simp only [Kernel.op, op?, ho]
  have hwaits : ∀ y z, ky.Waits y z ↔ kx.Waits y z := fun y z => by simp only [Waits, hop]
  have hwold : ∀ y z, y.idx < k.ops.size → (kx.Waits y z ↔ k.Waits y z) := fun y z hy => by
    simp only [Waits, h.old y hy]
  have hnd : (L ++ (k.loop l).body ++ R).Nodup := hk ▸ h.origin.placedOnce
  have hbody : ∀ x ∈ (k.loop l).body, x ∈ k.bodyOps := fun x hx => by
    rw [hk]
    exact List.mem_append_left _ (List.mem_append_right _ hx)
  -- A new op is younger than every op of `k`, so it is none of the outer ops.
  have fresh : ∀ x ∈ k.newOps kx, x ∉ L ++ R := fun x hx hx' =>
    Nat.not_lt_of_le (mem_newOps.1 hx).1 (h.origin.mem_outer hk hx').2.1
  have hF : ky.Formed := by
    refine h.sound.toFormed.of_edit (buffersAlike_of_eq hbuf) (opsAlike_of_eq ho)
      (fun x h₁ h₂ => absurd h₂ (by rw [ho]; omega)) (fun x d hd => ?_) ?_ ?_ (fun x hx => ?_)
      (fun l' x hx => ?_) (fun x hx => ?_)
    · rw [ho]
      exact h.sound.depsExist x d (hop x ▸ hd)
    · rw [hky]
      exact nodup_replace_mid hnd newOps_nodup fresh
    · rw [hbd, show ky.loopIds = kx.loopIds by simp only [loopIds, hsz]]
      exact h.sound.loopsOnce
    · rw [hky] at hx
      rw [ho, h.removed]
      rcases mem_mid_or_outer.1 hx with hxn | hxo
      · obtain ⟨hN, hlt⟩ := mem_newOps.1 hxn
        exact ⟨hlt, fun hr => Nat.not_lt_of_le hN (h.origin.removedExist x hr)⟩
      · obtain ⟨hm, hlt, -⟩ := h.origin.mem_outer hk hxo
        exact ⟨Nat.lt_of_lt_of_le hlt h.size, fun hr => h.origin.removedUnplaced x hr hm⟩
    · rw [ho]
      exact h.sound.bodiesExist l' x ((hlp l').1 ▸ hx)
    · rcases hrm x hx with hr | hb
      · exact .inl hr
      · refine .inr ⟨h.bodyOps ▸ hbody x hb, fun hx' => ?_⟩
        rw [hky] at hx'
        exact not_mem_mid hnd (mem_outer_of_old hx' (h.origin.bodiesExist l x hb)) hb
  have hd : DepsEarlier ky.Waits ky.bodyOps := by
    rw [hky]
    intro y z hw hy hz
    rw [hwaits] at hw
    rcases mem_mid_or_outer.1 hy with hyn | hyo
    · -- A new op waits for an older new op, or for an op before the loop.
      obtain ⟨hzy, hout⟩ := h.deps y z (mem_newOps.1 hyn).1 hw
      rcases mem_mid_or_outer.1 hz with hzn | hzo
      · have hne : z ≠ y := by
          rintro rfl
          exact Nat.lt_irrefl _ hzy
        exact (pair_sublist_of_pairwise newOps_pairwise hzn hyn hne (Nat.lt_asymm hzy)).trans
          (List.infix_append _ _ _).sublist
      · obtain ⟨hzk, hzlt, hzb⟩ := h.origin.mem_outer hk hzo
        obtain ⟨-, o, hob, hwo⟩ := hout hzlt
        have before := h.origin.dep_before hwo (hbody o hob) hzk
        rw [hk] at before
        rw [List.append_assoc]
        exact pair_sublist_append (mem_left_of_pair_sublist_mid hnd hob hzb before)
          (List.mem_append_left _ hyn)
    · -- An op of `k` waits for what it waited for, before it and outside the body.
      obtain ⟨hyk, hylt, -⟩ := h.origin.mem_outer hk hyo
      have hwk : k.Waits y z := (hwold y z hylt).1 hw
      have hzo := mem_outer_of_old hz (h.origin.depsExist y z hwk)
      have before := h.origin.dep_before hwk hyk (h.origin.mem_outer hk hzo).1
      rw [hk] at before
      exact pair_sublist_replace_mid hnd hzo hyo before
  have hwin := h.sound.windowsFit_of_bodies (buffersAlike_of_eq hbuf) hsz (fun l' => (hlp l').2)
    fun l' x hx => ⟨x, (hlp l').1 ▸ hx, hop x ▸ TileOp.windowsOf_of_detached rfl⟩
  refine ⟨h.origin, hF.sound hd hwin, by rw [ho]; exact h.size,
    ⟨L, R, hk, by rw [hky, newOps_congr (by rw [ho])]⟩, fun y z hy hw => ?_, fun y z hy hw hz => ?_⟩
  · exact .inl ((hwold y z hy).1 ((hwaits y z).1 hw))
  · obtain ⟨hzy, hout⟩ := h.deps y z hy ((hwaits y z).1 hw)
    by_cases hzlt : z.idx < k.ops.size
    · exact (hout hzlt).1 hz
    · exact hzlt (h.origin.bodiesExist l z hz)

/-- Moving the dependents of a body op onto a new op keeps what the expansion keeps: a dependent
of the body op is an op of `k` that stood after the loop, so after the new ops. -/
theorem Expanded.redirect (h : Expanded k l kz) {o c : OpId} (ho : o ∈ (k.loop l).body)
    (hc : c ∈ k.newOps kz) :
    Expanded k l (kz.redirectDependents o c) ∧
      (kz.redirectDependents o c).ops.size = kz.ops.size := by
  obtain ⟨hb, hlps, -⟩ := @redirectDependents_frame kz o c
  obtain ⟨-, hsz, -⟩ := redirectDependents_alike (k := kz) o c
  obtain ⟨A, C, hk, hkz⟩ := h.split
  obtain ⟨hc₁, hc₂⟩ := mem_newOps.1 hc
  have hnd : (A ++ (k.loop l).body ++ C).Nodup := hk ▸ h.origin.placedOnce
  have hob : o.idx < k.ops.size := h.origin.bodiesExist l o ho
  have hbo : (kz.redirectDependents o c).bodyOps = kz.bodyOps := bodyOps_congr hb hlps
  refine ⟨⟨h.origin, h.sound.redirectDependents hc₂ fun y hy hw _ _ => ?_, hsz ▸ h.size,
    ⟨A, C, hk, by rw [hbo, newOps_congr hsz, hkz]⟩, fun y z hy hw => ?_,
    fun y z hy hw => ?_⟩, hsz⟩
  · rw [hkz] at hy ⊢
    have hylt : y.idx < k.ops.size := by
      by_contra hge
      exact h.newDeps y o (by omega) hw ho
    have hyo := mem_outer_of_old hy hylt
    obtain ⟨hyk, -, hyb⟩ := h.origin.mem_outer hk hyo
    have hwk : k.Waits y o := (h.oldDeps y o hylt hw).resolve_right (by omega)
    have before := h.origin.dep_before hwk hyk (by rw [hk]; simp [ho])
    rw [hk] at before
    exact pair_sublist_append (List.mem_append_right _ hc)
      (mem_right_of_pair_sublist_mid hnd ho hyb before)
  · rcases waits_redirectDependents hw with hw | ⟨hz, -⟩
    · exact h.oldDeps y z hy hw
    · exact .inr (hz ▸ hc₁)
  · rcases waits_redirectDependents hw with hw | ⟨hz, -⟩
    · exact h.newDeps y z hy hw
    · exact fun hzb => absurd (h.origin.bodiesExist l z hzb) (by rw [hz]; omega)

end Kernel

/-! ### The steps of a pipelining -/

section Steps

variable {k kx ky : Kernel} {l : LoopId}

open Kernel

/-- The optional swizzle of a ring instance edits the new buffer only. -/
theorem swizzleTail_expanding {s? : Option Swizzle} {x y : BufferId} (h : Expanding k l kx)
    (hs : (match s? with
      | some s => do
        KernelM.updateChecked fun k => k.attachSwizzle x s
        pure x
      | _ => pure x : KernelM KernelError BufferId).run kx = .ok (.ok y, ky)) :
    Expanding k l ky ∧ ky.ops = kx.ops := by
  split at hs
  · obtain ⟨_, k₁, hw, hs⟩ := KernelM.run_bind_eq_ok.1 hs
    obtain ⟨-, rfl⟩ := KernelM.run_pure_eq_ok.1 hs
    have hw' := KernelM.run_updateChecked.1 hw
    have hs₁ := h.sound.attachSwizzle hw'
    rw [attachSwizzle_ok hw'] at hs₁ ⊢
    exact ⟨h.of_ops hs₁ rfl rfl rfl rfl, rfl⟩
  · obtain ⟨-, rfl⟩ := KernelM.run_pure_eq_ok.1 hs
    exact ⟨h, rfl⟩

/-- A ring adds buffers only. -/
theorem allocateRing_expanding {b : BufferId} {d : Nat} {r : Ring} (h : Expanding k l kx)
    (hr : (allocateRing b d).run kx = .ok (.ok r, ky)) : Expanding k l ky ∧ ky.ops = kx.ops := by
  unfold allocateRing at hr
  rw [KernelM.run_get_bind] at hr
  obtain ⟨_, k₁, hrest, hr⟩ := KernelM.run_bind_eq_ok.1 hr
  obtain ⟨-, rfl⟩ := KernelM.run_pure_eq_ok.1 hr
  refine (KernelM.run_mapM_ok (fun k₁ k₂ => Expanding k l k₁ → Expanding k l k₂ ∧ k₂.ops = k₁.ops)
    (fun _ _ _ => True) (fun _ h => ⟨h, rfl⟩)
    (fun p₁ p₂ h => ⟨(p₂ (p₁ h).1).1, (p₂ (p₁ h).1).2.trans (p₁ h).2⟩) (fun _ _ => trivial)
    (fun j _ x k₂ k₃ hs => ⟨fun h₂ => ?_, trivial⟩) hrest).1 h
  obtain ⟨x, k₄, hadd, hs⟩ := KernelM.run_bind_eq_ok.1 hs
  have hb := KernelM.run_edit.1 hadd
  obtain ⟨ho, hbd, hl, hrm⟩ := addBuffer_frame hb
  have h₄ := h₂.of_ops (h₂.sound.addBuffer hb) ho hbd hl hrm
  dsimp only at hs
  -- The optional layout, then the optional swizzle, edit only the new buffer.
  split at hs
  · obtain ⟨_, k₅, hlayout, hs⟩ := KernelM.run_bind_eq_ok.1 hs
    have hl₅ := KernelM.run_update.1 hlayout
    have hs₅ := h₄.sound.attachLayout hl₅
    obtain ⟨-, rfl⟩ := attachLayout_ok hl₅
    obtain ⟨h₃, ho₃⟩ := swizzleTail_expanding (h₄.of_ops hs₅ rfl rfl rfl rfl) hs
    exact ⟨h₃, ho₃.trans ho⟩
  · obtain ⟨h₃, ho₃⟩ := swizzleTail_expanding h₄ hs
    exact ⟨h₃, ho₃.trans ho⟩

/-- A map whose every step is a stretch of the pipelining makes, in order, what its steps make. -/
theorem run_mapM_makes {γ β : Type} {f : γ → KernelM KernelError β} (out : β → List OpId)
    (Q : β → Prop) :
    ∀ {cs : List γ} {bs : List β} {kx ky : Kernel},
      (∀ c ∈ cs, ∀ {b k₁ k₂}, Expanding k l k₁ → (f c).run k₁ = .ok (.ok b, k₂) →
        Makes k l k₁ k₂ (out b) ∧ Q b) →
      Expanding k l kx → (cs.mapM f).run kx = .ok (.ok bs, ky) →
      Makes k l kx ky (bs.flatMap out) ∧ ∀ b ∈ bs, Q b
  | [], bs, kx, ky, _, h, hrun => by
    rw [List.mapM_nil] at hrun
    obtain ⟨rfl, rfl⟩ := KernelM.run_pure_eq_ok.1 hrun
    exact ⟨Makes.refl h, fun _ hb => absurd hb List.not_mem_nil⟩
  | c :: cs, bs, kx, ky, step, h, hrun => by
    rw [List.mapM_cons] at hrun
    obtain ⟨b, k₁, h₁, hrun⟩ := KernelM.run_bind_eq_ok.1 hrun
    obtain ⟨bs', k₂, h₂, hrun⟩ := KernelM.run_bind_eq_ok.1 hrun
    obtain ⟨rfl, rfl⟩ := KernelM.run_pure_eq_ok.1 hrun
    obtain ⟨m₁, q₁⟩ := step c List.mem_cons_self h h₁
    obtain ⟨m₂, q₂⟩ := run_mapM_makes out Q (fun c' hc' => step c' (List.mem_cons_of_mem _ hc'))
      m₁.expanding h₂
    refine ⟨by simpa using m₁.trans m₂, fun b' hb' => ?_⟩
    rcases List.mem_cons.1 hb' with rfl | hb'
    exacts [q₁, q₂ b' hb']

/-- The rings of the staged buffers add buffers only. -/
theorem rings_makes {staged : List BufferId} {d : Nat} {rings : List Ring} (h : Expanding k l kx)
    (hr : (staged.mapM fun b => allocateRing b d).run kx = .ok (.ok rings, ky)) :
    Makes k l kx ky [] := by
  have made := (run_mapM_makes (fun _ => []) (fun _ => True) (fun _ _ _ _ _ h₁ hb =>
    ⟨Makes.of_ops (allocateRing_expanding h₁ hb).1 (allocateRing_expanding h₁ hb).2, trivial⟩)
    h hr).1
  rwa [List.flatMap_eq_nil_iff.2 fun _ _ => rfl] at made

/-- A slot clones its entries into new ops, in order. A clone waits for what its original waits
for outside the loop, for the clones made before it in the slot of the body ops its original
waits for, and for `after`. -/
theorem cloneSlot_makes {staged : List BufferId} {entries : List (OpId × Stage)}
    {phase : Phase} {iteration : IterRef} {after : Option OpId} {made : List (OpId × OpId)}
    (h : Expanding k l kx) (hentries : ∀ e ∈ entries, e.1 ∈ (k.loop l).body)
    (hafter : ∀ a ∈ after, k.ops.size ≤ a.idx ∧ a.idx < kx.ops.size)
    (hrun : (cloneSlot (k.loop l).body staged entries phase iteration after).run kx =
      .ok (.ok made, ky)) :
    Makes k l kx ky (made.map (·.2)) ∧ ∀ x ∈ made, x.1 ∈ (k.loop l).body := by
  unfold cloneSlot at hrun
  refine KernelM.run_foldlM_ok (fun _ made kc => Makes k l kx kc (made.map (·.2)) ∧
    ∀ x ∈ made, x.1 ∈ (k.loop l).body) [] ?_
    ⟨Makes.refl h, fun _ hx => absurd hx List.not_mem_nil⟩ hrun
  rintro ⟨original, stage⟩ he done made₁ k₁ made₂ k₂ ⟨m₁, hbody₁⟩ hs
  split at hs
  rename_i o s heq
  obtain ⟨rfl, rfl⟩ := Prod.mk.inj heq
  rw [KernelM.run_get_bind, KernelM.run_get_bind] at hs
  have horig : original ∈ (k.loop l).body := hentries _ he
  have hold : original.idx < k.ops.size := h.origin.bodiesExist l original horig
  have hN : k.ops.size ≤ k₁.ops.size := Nat.le_trans h.size m₁.size
  obtain ⟨x, k₃, hadd, hs₃⟩ := KernelM.run_bind_eq_ok.1 hs
  obtain ⟨_, k₄, hsched, hs₄⟩ := KernelM.run_bind_eq_ok.1 hs₃
  obtain ⟨_, k₅, hdeps, hs₅⟩ := KernelM.run_bind_eq_ok.1 hs₄
  obtain ⟨h₃, rfl, size₃⟩ := m₁.expanding.addOp (KernelM.run_edit.1 hadd) rfl
  obtain ⟨h₄, size₄⟩ := h₃.setSched hN (KernelM.run_update.1 hsched)
  rw [m₁.expanding.old original hold] at hdeps
  -- Each dependency of the clone is on an older op: outside the loop, or a clone of this slot.
  obtain ⟨h₅, size₅⟩ : Expanding k l k₅ ∧ k₅.ops.size = k₄.ops.size := by
    refine KernelM.run_forM_ok (fun _ kd => Expanding k l kd ∧ kd.ops.size = k₄.ops.size) []
      (fun dep hdep _ kd ke hI hstep => ?_) ⟨h₄, rfl⟩ hdeps
    obtain ⟨hd, sized⟩ := hI
    have hlt : dep.idx < k.ops.size := h.origin.depsExist original dep hdep
    split at hstep
    · rename_i hout
      obtain ⟨he, sz⟩ := hd.addDependency (KernelM.run_update.1 hstep) hN
        (Nat.lt_of_lt_of_le hlt hN) fun _ => ⟨by simpa using hout, original, horig, hdep⟩
      exact ⟨he, sz.trans sized⟩
    · split at hstep
      · rename_i c hc
        have hcm : c ∈ kx.newOps k₁ := by
          rw [m₁.made]
          exact List.mem_map_of_mem (mem_of_lookup hc)
        obtain ⟨hc₁, hc₂⟩ := mem_newOps.1 hcm
        obtain ⟨he, sz⟩ := hd.addDependency (KernelM.run_update.1 hstep) hN hc₂ fun hc₃ =>
          absurd hc₃ (Nat.not_lt_of_le (Nat.le_trans h.size hc₁))
        exact ⟨he, sz.trans sized⟩
      · obtain ⟨-, rfl⟩ := KernelM.run_pure_eq_ok.1 hstep
        exact ⟨hd, sized⟩
  -- Then, if any, on the op to wait for.
  obtain ⟨h₂, size₂, rfl⟩ : Expanding k l k₂ ∧ k₂.ops.size = k₅.ops.size ∧
      made₂ = made₁ ++ [(original, ⟨k₁.ops.size⟩)] := by
    split at hs₅
    · rename_i b
      obtain ⟨_, k₆, hb, hs₆⟩ := KernelM.run_bind_eq_ok.1 hs₅
      obtain ⟨hm, rfl⟩ := KernelM.run_pure_eq_ok.1 hs₆
      obtain ⟨hb₁, hb₂⟩ := hafter b rfl
      obtain ⟨he, sz⟩ := h₅.addDependency (KernelM.run_update.1 hb) hN
        (Nat.lt_of_lt_of_le hb₂ m₁.size) fun hb₃ => absurd hb₃ (Nat.not_lt_of_le hb₁)
      exact ⟨he, sz, hm.symm⟩
    · obtain ⟨hm, rfl⟩ := KernelM.run_pure_eq_ok.1 hs₅
      exact ⟨h₅, rfl, hm.symm⟩
  refine ⟨?_, fun y hy => ?_⟩
  · rw [List.map_append]
    exact m₁.trans (Makes.one h₂ (by omega))
  · rcases List.mem_append.1 hy with hy | hy
    · exact hbody₁ y hy
    · rw [List.mem_singleton.1 hy]
      exact horig

/-- A barrier is one new op, waiting for new ops made before it. -/
theorem addBarrier_makes {kind : BarrierKind} {phase : Phase} {after : List OpId} {x : OpId}
    (h : Expanding k l kx) (hafter : ∀ a ∈ after, k.ops.size ≤ a.idx ∧ a.idx < kx.ops.size)
    (hrun : (addBarrier kind phase after).run kx = .ok (.ok x, ky)) : Makes k l kx ky [x] := by
  unfold addBarrier at hrun
  obtain ⟨x', k₁, hadd, hs₁⟩ := KernelM.run_bind_eq_ok.1 hrun
  obtain ⟨_, k₂, hsched, hs₂⟩ := KernelM.run_bind_eq_ok.1 hs₁
  obtain ⟨_, k₃, hdeps, hs₃⟩ := KernelM.run_bind_eq_ok.1 hs₂
  obtain ⟨rfl, rfl⟩ := KernelM.run_pure_eq_ok.1 hs₃
  obtain ⟨h₁, rfl, size₁⟩ := h.addOp (KernelM.run_edit.1 hadd) rfl
  obtain ⟨h₂, size₂⟩ := h₁.setSched h.size (KernelM.run_update.1 hsched)
  obtain ⟨h₃, size₃⟩ : Expanding k l ky ∧ ky.ops.size = k₂.ops.size := by
    refine KernelM.run_forM_ok (fun _ kd => Expanding k l kd ∧ kd.ops.size = k₂.ops.size) []
      (fun a ha _ kd ke hI hstep => ?_) ⟨h₂, rfl⟩ hdeps
    obtain ⟨ha₁, ha₂⟩ := hafter a ha
    obtain ⟨he, sz⟩ := hI.1.addDependency (KernelM.run_update.1 hstep) h.size ha₂ fun ha₃ =>
      absurd ha₃ (Nat.not_lt_of_le ha₁)
    exact ⟨he, sz.trans hI.2⟩
  exact Makes.one h₃ (by omega)

/-- The last clone of an op is one of its clones. -/
theorem mem_of_lastClone {pairs : List (OpId × OpId)} {o c : OpId}
    (h : lastClone pairs o = some c) : (o, c) ∈ pairs := by
  unfold lastClone at h
  obtain ⟨x, hx, rfl⟩ := Option.map_eq_some_iff.1 h
  obtain ⟨hm, he⟩ := List.mem_filter.1 (List.mem_of_getLast? hx)
  obtain rfl : x.1 = o := by simpa using he
  exact hm

/-- Moving the dependents of each body op onto its last clone keeps what the expansion keeps. -/
theorem redirect_expanded {kz : Kernel} {pairs : List (OpId × OpId)} {originals : List OpId}
    (h : Expanded k l kz) (hpairs : ∀ x ∈ pairs, x.1 ∈ (k.loop l).body ∧ x.2 ∈ k.newOps kz)
    (hrun : (originals.forM fun original => match lastClone pairs original with
      | some c => modify fun k => k.redirectDependents original c
      | none => pure () : KernelM KernelError Unit).run kz = .ok (.ok (), ky)) :
    Expanded k l ky := by
  refine (KernelM.run_forM_ok (fun _ kc => Expanded k l kc ∧ kc.ops.size = kz.ops.size) []
    (fun o _ _ k₁ k₂ hI hs => ?_) ⟨h, rfl⟩ hrun).1
  obtain ⟨h₁, size₁⟩ := hI
  split at hs
  · rename_i c hc
    obtain ⟨-, rfl⟩ := Prod.mk.inj (Except.ok.inj hs)
    obtain ⟨ho, hc'⟩ := hpairs _ (mem_of_lastClone hc)
    obtain ⟨h₂, size₂⟩ := h₁.redirect ho (by rw [newOps_congr size₁]; exact hc')
    exact ⟨h₂, size₂.trans size₁⟩
  · obtain ⟨-, rfl⟩ := Prod.mk.inj (Except.ok.inj hs)
    exact ⟨h₁, size₁⟩

/-- Recording the new ops as the loop's expansion, then moving the dependents of each body op
onto its last clone, leaves a sound kernel. -/
theorem Kernel.Expanding.expand_keeps_sound {kz : Kernel} {p : Expansion} {pairs : List (OpId × OpId)}
    (h : Expanding k l kx) (hl : l.idx < k.loops.size)
    (hE : p.prologue ++ p.steady ++ p.epilogue = k.newOps kx)
    (hpairs : ∀ x ∈ pairs, x.1 ∈ (k.loop l).body ∧ x.2 ∈ k.newOps kx)
    (hset : kx.setExpansion l p = .ok ky)
    (hrun : ((sortedIds (pairs.map (·.1))).forM fun original => match lastClone pairs original with
      | some c => modify fun k => k.redirectDependents original c
      | none => pure () : KernelM KernelError Unit).run ky = .ok (.ok (), kz)) : kz.Sound := by
  have hnew : k.newOps ky = k.newOps kx := newOps_congr (by rw [(h.setExpansion_frame hl hE hset).1])
  exact (redirect_expanded (h.setExpansion hl hE hset) (hnew ▸ hpairs) hrun).sound

end Steps

/-! ### Pipelining keeps kernels sound -/

/-- **Pipelining a loop keeps a kernel sound**, at any depth. -/
theorem pipelineLoop_keeps_sound {k k' : Kernel} {l : LoopId} {d : Nat} (hs : k.Sound)
    (h : (pipelineLoop l d).run k = .ok (.ok (), k')) : k'.Sound := by
  unfold pipelineLoop at h
  rw [KernelM.run_get_bind] at h
  obtain ⟨lp, k₁, hlp, h⟩ := KernelM.run_bind_eq_ok.1 h
  obtain ⟨rfl, hk₁, inRange⟩ := run_liftM_entry hlp
  subst k₁
  dsimp only at h
  split at h
  · obtain ⟨_, _, hx, -⟩ := KernelM.run_bind_eq_ok.1 h
    cases hx
  have e₀ : Kernel.Expanding k l k := .refl hs
  have hentries : ∀ e ∈ (k.loop l).body.map (fun h => (h, classifyStage k (k.op h))),
      e.1 ∈ (k.loop l).body := by
    simp
  have hfilter : ∀ (p : OpId × Stage → Bool),
      ∀ e ∈ ((k.loop l).body.map (fun h => (h, classifyStage k (k.op h)))).filter p,
        e.1 ∈ (k.loop l).body := fun p e he => hentries e (List.mem_filter.1 he).1
  split at h
  · -- Depth above one: the loop passes the checks, then rings, prologue, steady block, drain.
    split at h
    rotate_left
    · obtain ⟨_, _, hx, -⟩ := KernelM.run_bind_eq_ok.1 h
      cases hx
    obtain ⟨_, k₂, hstaged, h⟩ := KernelM.run_bind_eq_ok.1 h
    obtain ⟨rfl, hk₂⟩ := KernelM.run_pure_eq_ok.1 hstaged
    subst k₂
    replace h := KernelM.run_lift_eq_ok.1 h
    obtain ⟨rings, k₂, hrings, h⟩ := KernelM.run_bind_eq_ok.1 h
    rw [if_neg (by omega)] at h
    obtain ⟨pro, k₃, hpro, h⟩ := KernelM.run_bind_eq_ok.1 h
    obtain ⟨issued, k₄, hissued, h⟩ := KernelM.run_bind_eq_ok.1 h
    obtain ⟨wait, k₅, hwait, h⟩ := KernelM.run_bind_eq_ok.1 h
    obtain ⟨computed, k₆, hcomputed, h⟩ := KernelM.run_bind_eq_ok.1 h
    obtain ⟨sync, k₇, hsync, h⟩ := KernelM.run_bind_eq_ok.1 h
    obtain ⟨epi, k₈, hepi, h⟩ := KernelM.run_bind_eq_ok.1 h
    rw [pure_bind] at h
    obtain ⟨_, k₉, hexp, hredirect⟩ := KernelM.run_bind_eq_ok.1 h
    have m₂ := rings_makes e₀ hrings
    obtain ⟨m₃, q₃⟩ := run_mapM_makes (fun made => made.map (·.2))
      (fun made => ∀ x ∈ made, x.1 ∈ (k.loop l).body)
      (fun _ _ _ _ _ h₁ hr => cloneSlot_makes h₁ (hfilter _) (by rintro _ ⟨⟩) hr) m₂.expanding hpro
    obtain ⟨m₄, q₄⟩ := cloneSlot_makes m₃.expanding (hfilter _) (by rintro _ ⟨⟩) hissued
    have m₅ := addBarrier_makes m₄.expanding (m₄.after m₃.expanding) hwait
    obtain ⟨m₆, q₆⟩ := cloneSlot_makes m₅.expanding (hfilter _)
      (by rintro a ⟨⟩; exact m₅.after m₄.expanding _ List.mem_cons_self) hcomputed
    have m₇ := addBarrier_makes m₆.expanding (m₆.after m₅.expanding) hsync
    -- Each drain step is a wait, then the computations that wait for it.
    obtain ⟨m₈, q₈⟩ := run_mapM_makes (fun s => s.1 :: s.2.map (·.2))
      (fun s => ∀ x ∈ s.2, x.1 ∈ (k.loop l).body) (fun _ _ _ _ _ h₁ hr => by
        obtain ⟨w, k₁, hw, hr⟩ := KernelM.run_bind_eq_ok.1 hr
        obtain ⟨made, k₂, hm, hr⟩ := KernelM.run_bind_eq_ok.1 hr
        obtain ⟨rfl, rfl⟩ := KernelM.run_pure_eq_ok.1 hr
        have mw := addBarrier_makes h₁ (by rintro _ ⟨⟩) hw
        obtain ⟨mm, qm⟩ := cloneSlot_makes mw.expanding (hfilter _)
          (by rintro a ⟨⟩; exact mw.after h₁ _ List.mem_cons_self) hm
        exact ⟨mw.trans mm, qm⟩) m₇.expanding hepi
    have all := m₂.trans (m₃.trans (m₄.trans (m₅.trans (m₆.trans (m₇.trans m₈)))))
    refine m₈.expanding.expand_keeps_sound inRange ?_ ?_ (KernelM.run_update.1 hexp) hredirect
    · rw [all.made]
      simp [List.flatMap_def]
    · -- Every pair is a body op and one of its clones, listed in the expansion.
      rw [all.made]
      intro x hx
      simp only [List.mem_append, List.mem_flatten, List.mem_map] at hx
      rcases hx with ((⟨made, hmade, hxm⟩ | hxi) | hxc) | ⟨_, ⟨s, hs, rfl⟩, hxs⟩
      · refine ⟨q₃ made hmade x hxm, ?_⟩
        simp only [List.nil_append, List.mem_append, List.mem_flatMap, List.mem_map]
        exact .inl ⟨made, hmade, x, hxm, rfl⟩
      · refine ⟨q₄ x hxi, ?_⟩
        simp only [List.nil_append, List.mem_append, List.mem_flatMap, List.mem_map]
        exact .inr (.inl ⟨x, hxi, rfl⟩)
      · refine ⟨q₆ x hxc, ?_⟩
        simp only [List.nil_append, List.mem_append, List.mem_flatMap, List.mem_map]
        exact .inr (.inr (.inr (.inl ⟨x, hxc, rfl⟩)))
      · refine ⟨q₈ s hs x hxs, ?_⟩
        simp only [List.nil_append, List.mem_append, List.mem_flatMap, List.mem_map,
          List.mem_cons]
        exact .inr (.inr (.inr (.inr (.inr ⟨s, hs, .inr ⟨x, hxs, rfl⟩⟩))))
  · -- Depth one: one steady block of clones of the whole body.
    obtain ⟨_, k₂, hstaged, h⟩ := KernelM.run_bind_eq_ok.1 h
    obtain ⟨rfl, hk₂⟩ := KernelM.run_pure_eq_ok.1 hstaged
    subst k₂
    replace h := KernelM.run_lift_eq_ok.1 h
    obtain ⟨rings, k₂, hrings, h⟩ := KernelM.run_bind_eq_ok.1 h
    rw [if_pos (by omega)] at h
    obtain ⟨made, k₃, hmade, h⟩ := KernelM.run_bind_eq_ok.1 h
    rw [pure_bind] at h
    obtain ⟨_, k₄, hexp, hredirect⟩ := KernelM.run_bind_eq_ok.1 h
    have m₂ := rings_makes e₀ hrings
    obtain ⟨m₃, q₃⟩ := cloneSlot_makes m₂.expanding hentries (by rintro _ ⟨⟩) hmade
    have all := m₂.trans m₃
    refine m₃.expanding.expand_keeps_sound inRange ?_ ?_ (KernelM.run_update.1 hexp) hredirect
    · rw [all.made]
      simp
    · rw [all.made]
      exact fun x hx => ⟨q₃ x hx, List.mem_map_of_mem hx⟩

/-- Pipelining every loop that has a depth keeps a kernel sound. -/
theorem pipelineLoops_keeps_sound {k k' : Kernel} {o : CompileOptions} {ls : List LoopId}
    (hs : k.Sound) (h : (pipelineLoops o).run k = .ok (.ok ls, k')) : k'.Sound := by
  unfold pipelineLoops at h
  rw [KernelM.run_get_bind] at h
  refine (KernelM.run_mapM_ok (fun k₁ k₂ => k₁.Sound → k₂.Sound) (fun _ _ _ => True)
    (fun _ h => h) (fun p₁ p₂ h => p₂ (p₁ h)) (fun _ _ => trivial)
    (fun c _ b k₁ k₂ hr => ⟨fun hs₁ => ?_, trivial⟩) h).1 hs
  obtain ⟨_, k₃, hl, hr⟩ := KernelM.run_bind_eq_ok.1 hr
  obtain ⟨-, rfl⟩ := KernelM.run_pure_eq_ok.1 hr
  exact pipelineLoop_keeps_sound hs₁ hl

/-! ### Every stage of lowering -/

/-- One stage of lowering under options `o` takes `k` to `k'`: layout assignment with the copies
it materializes, the swizzle search, pipelining one loop at some depth or every loop that has a
depth, or one run of a pass. -/
inductive LoweringStage (o : CompileOptions) : Kernel → Kernel → Prop
  | layouts {k k' : Kernel} {copies : List OpId} :
      (assignLayouts o).run k = .ok (.ok copies, k') → LoweringStage o k k'
  | swizzles {k k' : Kernel} {chosen : List (BufferId × Swizzle)} :
      (optimizeSwizzles o).run k = .ok (.ok chosen, k') → LoweringStage o k k'
  | loop {k k' : Kernel} (l : LoopId) (d : Nat) :
      (pipelineLoop l d).run k = .ok (.ok (), k') → LoweringStage o k k'
  | loops {k k' : Kernel} {ls : List LoopId} :
      (pipelineLoops o).run k = .ok (.ok ls, k') → LoweringStage o k k'
  | pass {k k' : Kernel} (p : Pass) {changed : Bool} :
      p.run.run k = .ok (.ok changed, k') → LoweringStage o k k'

theorem LoweringStage.keeps_sound {o : CompileOptions} {k k' : Kernel}
    (h : LoweringStage o k k') (hs : k.Sound) : k'.Sound := by
  cases h with
  | layouts h => exact assignLayouts_keeps_sound hs h
  | swizzles h => exact swizzleWhere_keeps_sound hs h
  | loop l d h => exact pipelineLoop_keeps_sound hs h
  | loops h => exact pipelineLoops_keeps_sound hs h
  | pass p h => exact Pass.run_keeps_sound hs h

/-- A formed kernel that passes `validate` is sound, and back. -/
theorem Kernel.sound_iff {k : Kernel} (hF : k.Formed) : k.Sound ↔ k.validate = .ok () :=
  ⟨fun hs => (validate_eq_ok_iff (nodup_liveOps hF.placedOnce)).2 hs.toValid,
    fun hv => { toFormed := hF, toValid := (validate_eq_ok_iff (nodup_liveOps hF.placedOnce)).1 hv }⟩

/-- **Every stage of lowering keeps a kernel valid.** On a formed kernel that passes `validate`,
each stage that succeeds leaves a formed kernel that passes `validate`: its live ops fit their
operand kinds, its live dependencies close no cycle and point back in program order, and the
windows of its loops stay inside their buffers. -/
theorem lowering_stage_keeps_valid {o : CompileOptions} {k k' : Kernel}
    (h : LoweringStage o k k') (hF : k.Formed) (hv : k.validate = .ok ()) :
    k'.Formed ∧ k'.validate = .ok () := by
  have hs' := h.keeps_sound ((Kernel.sound_iff hF).2 hv)
  exact ⟨hs'.toFormed, (Kernel.sound_iff hs'.toFormed).1 hs'⟩

/-- Pipelining the loop of `roundTrip` once is a stage of lowering that leaves a valid kernel. -/
theorem roundTrip_pipelined_valid :
    ∃ k', LoweringStage { target := .sm80 } Kernel.roundTrip k' ∧ k'.Formed ∧
      k'.validate = .ok () := by
  -- With the handle sort read as an insertion sort, the kernel evaluates the checks and the run.
  have valid : Kernel.roundTrip.validate = .ok () := by
    unfold Kernel.validate Kernel.topologicalOrder
    simp only [Kernel.sortedIds_eq_insertionSort]
    decide +kernel
  have succeeds :
      (((pipelineLoop ⟨0⟩ 1).run Kernel.roundTrip).toOption.bind (·.1.toOption)).isSome := by
    unfold pipelineLoop
    simp only [Kernel.sortedIds_eq_insertionSort]
    decide +kernel
  rcases run : (pipelineLoop ⟨0⟩ 1).run Kernel.roundTrip with fault | ⟨_ | ⟨⟩, k'⟩
  · simp [run, Except.toOption] at succeeds
  · simp [run, Except.toOption] at succeeds
  · have stage : LoweringStage { target := .sm80 } Kernel.roundTrip k' := .loop _ _ run
    exact ⟨k', stage, lowering_stage_keeps_valid stage Kernel.roundTrip_built.formed valid⟩

/-- Any sequence of lowering stages keeps a kernel valid. -/
theorem lowering_stages_keep_valid {o : CompileOptions} {k k' : Kernel}
    (h : Relation.ReflTransGen (LoweringStage o) k k') (hF : k.Formed)
    (hv : k.validate = .ok ()) : k'.Formed ∧ k'.validate = .ok () := by
  have hs : k'.Sound := by
    induction h with
    | refl => exact (Kernel.sound_iff hF).2 hv
    | tail _ step ih => exact step.keeps_sound ih
  exact ⟨hs.toFormed, (Kernel.sound_iff hs.toFormed).1 hs⟩

end TileKernel
