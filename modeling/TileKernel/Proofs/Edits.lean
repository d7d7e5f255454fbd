import TileKernel.Assignment.Assign
import Mathlib.Data.List.Basic

/-!
# What kernel edits keep

The edits a pass makes (declaring a buffer, inserting an op next to a placed one, replacing a
placed op, adding or redirecting dependencies) never renumber the op arena and never change an
op's kind. They keep every live op live, except the op a replacement removes, and the op they
insert or put in its place is live. `Kernel.Keeps k k' gone` collects these facts; it composes
along a sequence of edits, so a stage built from them inherits it.

A fresh op is live only if its handle is not already listed as removed: removed handles name
existing ops (`Kernel.RemovedExist`), which every edit keeps.
-/

set_option autoImplicit false

namespace TileKernel

namespace KernelM

variable {ε α β : Type} {k k' : Kernel}

/-- How a stage runs after another: a fault ends it, a failure keeps the kernel it reached. -/
theorem run_bind (x : KernelM ε α) (f : α → KernelM ε β) (k : Kernel) :
    (x >>= f).run k = match x.run k with
      | .ok (.ok a, k₁) => (f a).run k₁
      | .ok (.error e, k₁) => .ok (.error e, k₁)
      | .error fault => .error fault := by
  simp only [KernelM.run, ExceptT.run_bind, StateT.run_bind]
  rcases (ExceptT.run x).run k with fault | ⟨_ | a, k₁⟩ <;> rfl

theorem run_bind_eq_ok {x : KernelM ε α} {f : α → KernelM ε β} {b : β} :
    (x >>= f).run k = .ok (.ok b, k') ↔
      ∃ a k₁, x.run k = .ok (.ok a, k₁) ∧ (f a).run k₁ = .ok (.ok b, k') := by
  rw [run_bind]
  rcases x.run k with fault | ⟨_ | a, k₁⟩
  · simp
  · simp
  · exact ⟨fun h => ⟨a, k₁, rfl, h⟩, fun ⟨_, _, hx, h⟩ => by cases hx; exact h⟩

theorem run_bind_eq_error {x : KernelM ε α} {f : α → KernelM ε β} {e : ε} :
    (x >>= f).run k = .ok (.error e, k') ↔ x.run k = .ok (.error e, k') ∨
      ∃ a k₁, x.run k = .ok (.ok a, k₁) ∧ (f a).run k₁ = .ok (.error e, k') := by
  rw [run_bind]
  rcases x.run k with fault | ⟨_ | a, k₁⟩
  · simp
  · simp
  · exact ⟨fun h => .inr ⟨a, k₁, rfl, h⟩, fun h => by
      rcases h with h | ⟨_, _, hx, h⟩
      · cases h
      · cases hx
        exact h⟩

theorem run_get_bind {f : Kernel → KernelM ε β} : (get >>= f).run k = (f k).run k := rfl

theorem run_pure {a : α} : (pure a : KernelM ε α).run k = .ok (.ok a, k) := rfl

theorem run_throw {e : ε} : (throw e : KernelM ε α).run k = .ok (.error e, k) := rfl

theorem run_edit {f : Kernel → Except KernelError (α × Kernel)} {a : α} :
    (edit f).run k = .ok (.ok a, k') ↔ f k = .ok (a, k') := by
  unfold edit
  rw [run_get_bind]
  rcases f k with e | ⟨a', k₁⟩
  · change (Except.ok (Except.error e, k) : Checked _) = _ ↔ _
    simp
  · change (Except.ok (Except.ok a', k₁) : Checked _) = _ ↔ _
    simp

theorem run_update {f : Kernel → Except KernelError Kernel} :
    (update f).run k = .ok (.ok (), k') ↔ f k = .ok k' := by
  unfold update
  rw [run_get_bind]
  rcases f k with e | k₁
  · change (Except.ok (Except.error e, k) : Checked _) = _ ↔ _
    simp
  · change (Except.ok (Except.ok (), k₁) : Checked _) = _ ↔ _
    simp

theorem run_updateChecked {f : Kernel → ExceptT KernelError Checked Kernel} :
    (updateChecked f).run k = .ok (.ok (), k') ↔ (f k).run = .ok (.ok k') := by
  unfold updateChecked
  rw [run_get_bind]
  rcases (f k).run with fault | e | k₁
  · change (Except.error fault : Checked _) = _ ↔ _
    simp
  · change (Except.ok (Except.error e, k) : Checked _) = _ ↔ _
    simp
  · change (Except.ok (Except.ok (), k₁) : Checked _) = _ ↔ _
    simp

/-- A kernel stage seen as a lowering stage: its failures become kernel errors. -/
theorem run_lift (x : KernelM KernelError α) (k : Kernel) :
    (lift x).run k = match x.run k with
      | .ok (r, k₁) => .ok (r.mapError .kernel, k₁)
      | .error fault => .error fault := by
  have hx : (ExceptT.run x).run k = StateT.run x k := rfl
  have adapt : lift x = ExceptT.mk (Except.mapError .kernel <$> x) := rfl
  simp only [KernelM.run, adapt, ExceptT.run_mk, StateT.run_map, hx]
  rcases StateT.run x k with fault | ⟨_ | a, k₁⟩ <;> rfl

theorem run_lift_eq_ok {x : KernelM KernelError α} {a : α} :
    (lift x).run k = .ok (.ok a, k') ↔ x.run k = .ok (.ok a, k') := by
  rw [run_lift]
  rcases x.run k with fault | ⟨_ | a, k₁⟩ <;> simp [Except.mapError]

theorem run_lift_eq_error {x : KernelM KernelError α} {e : LowerError}
    (h : (lift x).run k = .ok (.error e, k')) : ∃ e', e = .kernel e' := by
  rw [run_lift] at h
  rcases hx : x.run k with fault | ⟨_ | a, k₁⟩ <;> simp [hx, Except.mapError] at h
  exact ⟨_, h.1.symm⟩

theorem run_liftM (x : Checked α) (k : Kernel) :
    (liftM x : KernelM ε α).run k = match x with
      | .ok a => .ok (.ok a, k)
      | .error fault => .error fault := by
  rcases x with fault | a <;> rfl

theorem run_attempt (x : ExceptT KernelError Checked α) (k : Kernel) :
    (attempt x).run k = match x.run with
      | .ok (.ok a) => .ok (.ok a, k)
      | .ok (.error e) => .ok (.error e, k)
      | .error fault => .error fault := by
  unfold attempt
  rcases x.run with fault | _ | a <;> simp [run_bind, run_liftM] <;> rfl

theorem run_modify {f : Kernel → Kernel} : (modify f : KernelM ε PUnit).run k = .ok (.ok (), f k) := rfl

/-- A property of the elements done so far that every successful step on an element of the
list extends holds after a loop that succeeds. -/
theorem run_forM_ok {γ : Type} {f : γ → KernelM ε PUnit} (I : List γ → Kernel → Prop) :
    ∀ (done : List γ) {l : List γ} {k k' : Kernel},
      (∀ d ∈ l, ∀ done' k₁ k₂, I done' k₁ → (f d).run k₁ = .ok (.ok (), k₂) → I (done' ++ [d]) k₂) →
      I done k → (l.forM f).run k = .ok (.ok (), k') → I (done ++ l) k'
  | done, [], k, k', _, hk, h => by
    obtain ⟨-, rfl⟩ := Prod.mk.inj (Except.ok.inj h)
    simpa using hk
  | done, d :: l, k, k', step, hk, h => by
    rw [List.forM] at h
    obtain ⟨_, k₁, h₁, h⟩ := run_bind_eq_ok.1 h
    simpa using run_forM_ok I (done ++ [d]) (fun d' hd' => step d' (List.mem_cons_of_mem _ hd'))
      (step d (List.mem_cons_self ..) done k k₁ hk h₁) h

/-- A property of the elements folded so far, the accumulator and the kernel, that every
successful step on an element of the list extends, holds after a fold that succeeds. -/
theorem run_foldlM_ok {γ β : Type} {f : β → γ → KernelM ε β} (I : List γ → β → Kernel → Prop) :
    ∀ (done : List γ) {l : List γ} {b b' : β} {k k' : Kernel},
      (∀ d ∈ l, ∀ done' b₁ k₁ b₂ k₂, I done' b₁ k₁ → (f b₁ d).run k₁ = .ok (.ok b₂, k₂) →
        I (done' ++ [d]) b₂ k₂) →
      I done b k → (l.foldlM f b).run k = .ok (.ok b', k') → I (done ++ l) b' k'
  | done, [], b, b', k, k', _, hk, h => by
    obtain ⟨hb, rfl⟩ := Prod.mk.inj (Except.ok.inj h)
    cases hb
    simpa using hk
  | done, d :: l, b, b', k, k', step, hk, h => by
    rw [List.foldlM_cons] at h
    obtain ⟨b₁, k₁, h₁, h⟩ := run_bind_eq_ok.1 h
    simpa using run_foldlM_ok I (done ++ [d]) (fun d' hd' => step d' (List.mem_cons_of_mem _ hd'))
      (step d List.mem_cons_self done b k b₁ k₁ hk h₁) h

/-- A map whose steps each relate their kernels by a preorder `P` and leave a fact `R` of their
element and result that later steps keep: the whole map relates its kernels by `P`, and `R`
holds of each element and its result at the end. -/
theorem run_mapM_ok {γ β : Type} {f : γ → KernelM ε β} (P : Kernel → Kernel → Prop)
    (R : γ → β → Kernel → Prop) (refl : ∀ k, P k k)
    (trans : ∀ {k₁ k₂ k₃}, P k₁ k₂ → P k₂ k₃ → P k₁ k₃)
    (stable : ∀ {c b k₁ k₂}, R c b k₁ → P k₁ k₂ → R c b k₂) :
    ∀ {l : List γ} {bs : List β} {k k' : Kernel},
      (∀ c ∈ l, ∀ {b k₁ k₂}, (f c).run k₁ = .ok (.ok b, k₂) → P k₁ k₂ ∧ R c b k₂) →
      (l.mapM f).run k = .ok (.ok bs, k') → P k k' ∧ List.Forall₂ (fun c b => R c b k') l bs
  | [], bs, k, k', _, h => by
    rw [List.mapM_nil] at h
    obtain ⟨hb, rfl⟩ := Prod.mk.inj (Except.ok.inj h)
    cases hb
    exact ⟨refl k, .nil⟩
  | c :: l, bs, k, k', step, h => by
    rw [List.mapM_cons] at h
    obtain ⟨b, k₁, h₁, h⟩ := run_bind_eq_ok.1 h
    obtain ⟨bs', k₂, h₂, h⟩ := run_bind_eq_ok.1 h
    obtain ⟨hbs, rfl⟩ := Prod.mk.inj (Except.ok.inj h)
    cases hbs
    obtain ⟨p₁, r₁⟩ := step c List.mem_cons_self h₁
    obtain ⟨p₂, r₂⟩ := run_mapM_ok P R refl trans stable
      (fun c' hc' => step c' (List.mem_cons_of_mem _ hc')) h₂
    exact ⟨trans p₁ p₂, .cons (stable r₁ p₂) r₂⟩

theorem run_forM_error {γ : Type} {f : γ → KernelM ε PUnit} {e : ε} :
    ∀ {l : List γ} {k k' : Kernel}, (l.forM f).run k = .ok (.error e, k') →
      ∃ d ∈ l, ∃ k₁, (f d).run k₁ = .ok (.error e, k')
  | [], k, k', h => by cases h
  | d :: l, k, k', h => by
    rw [List.forM] at h
    rcases run_bind_eq_error.1 h with h | ⟨_, k₁, -, h⟩
    · exact ⟨d, List.mem_cons_self .., k, h⟩
    · obtain ⟨d', hd', k₂, h'⟩ := run_forM_error h
      exact ⟨d', List.mem_cons_of_mem _ hd', k₂, h'⟩

end KernelM

/-- The ops a loop contributes: its expansion's blocks once pipelined, else its body. -/
def LoopNest.placedOps (n : LoopNest) : List OpId :=
  match n.expansion with
  | some p => p.prologue ++ p.steady ++ p.epilogue
  | none => n.body

namespace Kernel

variable {k k' : Kernel}

/-- The ops the body places, removed or not, in program order. -/
def bodyOps (k : Kernel) : List OpId := k.body.flatMap k.stmtOps

theorem stmtOps_loop {l : LoopId} : k.stmtOps (.loop l) = (k.loop l).placedOps := rfl

theorem mem_liveOps {x : OpId} : x ∈ k.liveOps ↔ x ∈ k.bodyOps ∧ x ∉ k.removed := by
  simp [liveOps, bodyOps, isRemoved]

/-- Removed handles name ops of the arena, so a fresh op was never removed. -/
def RemovedExist (k : Kernel) : Prop := ∀ x ∈ k.removed, x.idx < k.ops.size

/-! ### Loops -/

theorem loop?_modifyLoop {l l' : LoopId} {F : LoopNest → LoopNest} :
    (k.modifyLoop l F).loop? l' = if l = l' then (k.loop? l').map F else k.loop? l' := by
  obtain ⟨i⟩ := l
  obtain ⟨j⟩ := l'
  simp [loop?, modifyLoop, Array.getElem?_modify]

/-- A loop outside the arena reads as an empty one. -/
theorem loop?_of_mem_placedOps {l : LoopId} {x : OpId} (hx : x ∈ (k.loop l).placedOps) :
    k.loop? l = some (k.loop l) := by
  unfold loop at hx ⊢
  rcases h : k.loop? l with _ | n
  · simp [h, LoopNest.placedOps] at hx
  · rfl

/-- A loop edit that keeps `x` among a loop's ops keeps it among the loop's ops in the kernel. -/
theorem mem_placedOps_modifyLoop {l l' : LoopId} {F : LoopNest → LoopNest} {x : OpId}
    (hF : ∀ n, x ∈ n.placedOps → x ∈ (F n).placedOps) (hx : x ∈ (k.loop l').placedOps) :
    x ∈ ((k.modifyLoop l F).loop l').placedOps := by
  have hl := loop?_of_mem_placedOps hx
  unfold loop
  rw [loop?_modifyLoop, hl]
  split_ifs
  · exact hF _ hx
  · exact hx

theorem loop_modifyLoop_self {l : LoopId} {F : LoopNest → LoopNest} {n : LoopNest}
    (hl : k.loop? l = some n) : (k.modifyLoop l F).loop l = F n := by
  unfold loop
  rw [loop?_modifyLoop, if_pos rfl, hl]
  rfl

theorem mem_bodyOps_modifyLoop {l : LoopId} {F : LoopNest → LoopNest} {x : OpId}
    (hF : ∀ n, x ∈ n.placedOps → x ∈ (F n).placedOps) (hx : x ∈ k.bodyOps) :
    x ∈ (k.modifyLoop l F).bodyOps := by
  obtain ⟨s, hs, hxs⟩ := List.mem_flatMap.1 hx
  refine List.mem_flatMap.2 ⟨s, hs, ?_⟩
  cases s with
  | op y => exact hxs
  | loop l' => exact mem_placedOps_modifyLoop hF hxs

/-! ### Blocks -/

/-- Editing a block with functions that keep `x`, and the statement placing it, keeps `x` among
the placed ops. -/
theorem mem_bodyOps_modifyBlock {b : Block} {f : List OpId → List OpId} {g : List Stmt → List Stmt}
    {x : OpId} (hx : x ∈ k.bodyOps) (hf : ∀ xs, x ∈ xs → x ∈ f xs)
    (hg : ∀ ss s, s ∈ ss → x ∈ k.stmtOps s → s ∈ g ss) : x ∈ (k.modifyBlock b f g).bodyOps := by
  cases b with
  | body =>
    obtain ⟨s, hs, hxs⟩ := List.mem_flatMap.1 hx
    exact List.mem_flatMap.2 ⟨s, hg _ s hs hxs, hxs⟩
  | loop l | prologue l | steady l | epilogue l =>
    refine mem_bodyOps_modifyLoop (fun n hn => ?_) hx
    rcases n with ⟨_, _, _, _, _ | p⟩ <;>
      simp only [LoopNest.placedOps, Option.map_some, Option.map_none, List.mem_append] at hn ⊢
    all_goals first
      | exact hf _ hn
      | exact hn
      | rcases hn with (h | h) | h <;> simp [h, hf _ h]

/-- Editing the block of a placed op `a` with functions that put `h` wherever `a` is places `h`. -/
theorem mem_bodyOps_modifyBlock_of_placement {a h : OpId} {b : Block} {f : List OpId → List OpId}
    {g : List Stmt → List Stmt} (hp : k.placement a = some b) (hf : ∀ xs, a ∈ xs → h ∈ f xs)
    (hg : ∀ ss, Stmt.op a ∈ ss → Stmt.op h ∈ g ss) : h ∈ (k.modifyBlock b f g).bodyOps := by
  unfold placement at hp
  split_ifs at hp
  obtain ⟨s, hs, hbs⟩ := List.exists_of_findSome?_eq_some hp
  cases s with
  | op o =>
    simp only [blockIn, beq_iff_eq] at hbs
    split_ifs at hbs with hoa
    cases hbs
    subst hoa
    exact List.mem_flatMap.2 ⟨.op h, hg _ hs, List.mem_singleton_self _⟩
  | loop l =>
    -- `b` is the block of loop `l` holding `a`; the loop exists since it holds an op.
    have inLoop : ∀ {F : LoopNest → LoopNest}, a ∈ (k.loop l).placedOps →
        h ∈ (F (k.loop l)).placedOps → h ∈ (k.modifyLoop l F).bodyOps := fun ha hF =>
      List.mem_flatMap.2 ⟨.loop l, hs, by
        rw [stmtOps_loop, loop_modifyLoop_self (loop?_of_mem_placedOps ha)]
        exact hF⟩
    simp only [blockIn] at hbs
    rcases hexp : (k.loop l).expansion with _ | p <;> simp only [hexp] at hbs
    · split_ifs at hbs with ha
      cases hbs
      simp only [List.contains_iff_mem] at ha
      exact inLoop (by simp [LoopNest.placedOps, hexp, ha]) (by simp [LoopNest.placedOps, hexp, hf _ ha])
    · split_ifs at hbs with h₁ h₂ h₃ <;> cases hbs <;> simp only [List.contains_iff_mem] at * <;>
        exact inLoop (by simp [LoopNest.placedOps, *]) (by simp [LoopNest.placedOps, hexp, hf _ ‹_›])

theorem mem_insertAt {α : Type} {xs : List α} {i : Nat} {a x : α} :
    x ∈ insertAt xs i a ↔ x = a ∨ x ∈ xs := by
  have split : x ∈ xs ↔ x ∈ xs.take i ∨ x ∈ xs.drop i := by
    rw [← List.mem_append, List.take_append_drop]
  rw [split]
  simp only [insertAt, List.mem_append, List.mem_cons]
  exact or_left_comm

/-! ### Keeping ops -/

/-- What an edit keeps: the op arena only grows, every op keeps its kind, every live op outside
`gone` stays live, and removed handles keep naming ops. -/
structure Keeps (k k' : Kernel) (gone : List OpId) : Prop where
  size : k.ops.size ≤ k'.ops.size
  kind : ∀ x, x.idx < k.ops.size → (k'.op x).kind = (k.op x).kind
  live : ∀ x ∈ k.liveOps, x ∉ gone → x ∈ k'.liveOps
  removedExist : k.RemovedExist → k'.RemovedExist

theorem Keeps.refl (k : Kernel) : k.Keeps k [] :=
  ⟨Nat.le_refl _, fun _ _ => rfl, fun _ hx _ => hx, id⟩

theorem Keeps.trans {k₁ k₂ : Kernel} {g₁ g₂ : List OpId} (h₁ : k.Keeps k₁ g₁) (h₂ : k₁.Keeps k₂ g₂) :
    k.Keeps k₂ (g₁ ++ g₂) where
  size := Nat.le_trans h₁.size h₂.size
  kind x hx := (h₂.kind x (Nat.lt_of_lt_of_le hx h₁.size)).trans (h₁.kind x hx)
  live x hx hg := h₂.live x (h₁.live x hx fun h => hg (List.mem_append_left _ h))
    fun h => hg (List.mem_append_right _ h)
  removedExist hw := h₂.removedExist (h₁.removedExist hw)

theorem Keeps.mono {g g' : List OpId} (h : k.Keeps k' g) (hg : ∀ x ∈ g, x ∈ g') : k.Keeps k' g' :=
  ⟨h.size, h.kind, fun x hx hx' => h.live x hx fun h' => hx' (hg x h'), h.removedExist⟩

theorem liveOps_congr (hb : k'.body = k.body) (hl : k'.loops = k.loops) (hr : k'.removed = k.removed) :
    k'.liveOps = k.liveOps := by
  obtain ⟨_, _, _, _, _, _⟩ := k
  obtain ⟨_, _, _, _, _, _⟩ := k'
  simp only at hb hl hr
  subst hb hl hr
  rfl

theorem placement_congr (hb : k'.body = k.body) (hl : k'.loops = k.loops)
    (hr : k'.removed = k.removed) : k'.placement = k.placement := by
  obtain ⟨_, _, _, _, _, _⟩ := k
  obtain ⟨_, _, _, _, _, _⟩ := k'
  simp only at hb hl hr
  subst hb hl hr
  rfl

/-- An edit of the op arena alone, growing it and keeping kinds, keeps everything. -/
theorem keeps_of_ops (hb : k'.body = k.body) (hl : k'.loops = k.loops) (hr : k'.removed = k.removed)
    (hs : k.ops.size ≤ k'.ops.size) (hk : ∀ x, x.idx < k.ops.size → (k'.op x).kind = (k.op x).kind) :
    k.Keeps k' [] where
  size := hs
  kind := hk
  live x hx _ := by rwa [liveOps_congr hb hl hr]
  removedExist hw x hx := Nat.lt_of_lt_of_le (hw x (hr ▸ hx)) hs

theorem op_push {o : TileOp} {x : OpId} (hx : x.idx < k.ops.size) :
    ({ k with ops := k.ops.push o } : Kernel).op x = k.op x := by
  simp [Kernel.op, op?, Array.getElem?_push, Nat.ne_of_lt hx]

theorem op_push_self {o : TileOp} : ({ k with ops := k.ops.push o } : Kernel).op ⟨k.ops.size⟩ = o := by
  simp [Kernel.op, op?]

theorem keeps_push {o : TileOp} : k.Keeps { k with ops := k.ops.push o } [] :=
  keeps_of_ops rfl rfl rfl (by simp) fun _ hx => by rw [op_push hx]

theorem keeps_modifyOp {h : OpId} {f : TileOp → TileOp} (hf : ∀ o, (f o).kind = o.kind) :
    k.Keeps (k.modifyOp h f) [] := by
  refine keeps_of_ops rfl rfl rfl (by simp [modifyOp]) fun x _ => ?_
  simp only [Kernel.op, op?, modifyOp, Array.getElem?_modify]
  split_ifs
  · cases k.ops[x.idx]? <;> simp [hf]
  · rfl

theorem keeps_addDependency {h on : OpId} (hd : k.addDependency h on = .ok k') : k.Keeps k' [] := by
  unfold addDependency at hd
  rcases hh : k.checkOp h with e | o
  · simp [hh, bind, Except.bind] at hd
  rcases hon : k.checkOp on with e | p
  · simp [hh, hon, bind, Except.bind] at hd
  by_cases hc : k.dependsOn on h = true
  · simp [hh, hon, hc, bind, Except.bind, throw, throwThe, MonadExceptOf.throw] at hd
  · simp only [hh, hon, hc, bind, Except.bind, Bool.false_eq_true, if_false] at hd
    obtain rfl := Except.ok.inj hd
    exact keeps_modifyOp fun _ => rfl

theorem keeps_redirectDependents {src dst : OpId} : k.Keeps (k.redirectDependents src dst) [] := by
  unfold redirectDependents
  -- Each step leaves the kernel or changes one op's dependencies.
  induction k.dependents src generalizing k with
  | nil => exact Keeps.refl k
  | cons d ds ih =>
    rw [List.foldl_cons]
    split_ifs
    · exact ih
    · have step : k.Keeps (k.modifyOp d fun o =>
          { o with deps := dst.insertSorted (o.deps.erase src) }) [] := keeps_modifyOp fun _ => rfl
      exact step.trans ih

theorem ops_modifyBlock {b : Block} {f : List OpId → List OpId} {g : List Stmt → List Stmt} :
    (k.modifyBlock b f g).ops = k.ops := by
  cases b <;> rfl

theorem removed_modifyBlock {b : Block} {f : List OpId → List OpId} {g : List Stmt → List Stmt} :
    (k.modifyBlock b f g).removed = k.removed := by
  cases b <;> rfl

theorem op_modifyBlock {b : Block} {f : List OpId → List OpId} {g : List Stmt → List Stmt} {x : OpId} :
    (k.modifyBlock b f g).op x = k.op x := by
  simp only [Kernel.op, op?, ops_modifyBlock]

theorem redirectDependents_frame {src dst : OpId} :
    (k.redirectDependents src dst).body = k.body ∧ (k.redirectDependents src dst).loops = k.loops ∧
      (k.redirectDependents src dst).removed = k.removed := by
  unfold redirectDependents
  induction k.dependents src generalizing k with
  | nil => exact ⟨rfl, rfl, rfl⟩
  | cons d ds ih =>
    rw [List.foldl_cons]
    split_ifs
    · exact ih
    · exact ih

theorem lt_of_checkOp {a : OpId} {o : TileOp} (h : k.checkOp a = .ok o) : a.idx < k.ops.size := by
  unfold checkOp op? at h
  split at h
  · rename_i h'
    exact (Array.getElem?_eq_some_iff.1 h').1
  · cases h

theorem placed_ok {a : OpId} {b : Block} (h : k.placed a = .ok b) :
    k.placement a = some b ∧ a.idx < k.ops.size := by
  unfold placed at h
  rcases hc : k.checkOp a with e | o
  · simp [hc, bind, Except.bind] at h
  · simp only [hc, bind, Except.bind] at h
    split at h
    · rename_i b' hb'
      obtain rfl := Except.ok.inj h
      exact ⟨hb', lt_of_checkOp hc⟩
    · cases h

theorem addOp_ok {o : TileOp} {x : OpId} (h : k.addOp o = .ok (x, k')) :
    x = ⟨k.ops.size⟩ ∧ k' = { k with ops := k.ops.push o } := by
  unfold addOp at h
  simp only [bind, Except.bind] at h
  split at h
  · cases h
  · split at h
    · cases h
    · obtain ⟨rfl, rfl⟩ := Prod.mk.inj (Except.ok.inj h)
      exact ⟨rfl, rfl⟩

theorem keeps_addBuffer {b : Buffer} {fb : BufferId} (h : k.addBuffer b = .ok (fb, k')) :
    k.Keeps k' [] := by
  unfold addBuffer at h
  split_ifs at h
  obtain ⟨rfl, rfl⟩ := Prod.mk.inj (Except.ok.inj h)
  exact keeps_of_ops rfl rfl rfl (Nat.le_refl _) fun _ _ => rfl

/-- Pushing an op and placing it wherever a placed op `a` sits in its block keeps everything and
makes the new op live. -/
theorem keeps_place {a : OpId} {blk : Block} {o : TileOp} {f : List OpId → List OpId}
    {g : List Stmt → List Stmt} (hp : k.placement a = some blk)
    (hf : ∀ xs, ∀ y ∈ xs, y ∈ f xs) (hfa : ∀ xs, a ∈ xs → ⟨k.ops.size⟩ ∈ f xs)
    (hg : ∀ ss, ∀ s ∈ ss, s ∈ g ss) (hga : ∀ ss, Stmt.op a ∈ ss → Stmt.op ⟨k.ops.size⟩ ∈ g ss) :
    k.Keeps (({ k with ops := k.ops.push o } : Kernel).modifyBlock blk f g) [] ∧
      ((({ k with ops := k.ops.push o } : Kernel).modifyBlock blk f g).op ⟨k.ops.size⟩).kind = o.kind ∧
      (k.RemovedExist →
        ⟨k.ops.size⟩ ∈ (({ k with ops := k.ops.push o } : Kernel).modifyBlock blk f g).liveOps) := by
  have fresh : k.RemovedExist → (⟨k.ops.size⟩ : OpId) ∉ k.removed := fun hw hx =>
    Nat.lt_irrefl _ (hw _ hx)
  refine ⟨⟨?_, fun x hx => ?_, fun x hx _ => ?_, fun hw x hx => ?_⟩, ?_, fun hw => ?_⟩
  · simp [ops_modifyBlock]
  · rw [op_modifyBlock, op_push hx]
  · obtain ⟨hb, hr⟩ := mem_liveOps.1 hx
    exact mem_liveOps.2 ⟨mem_bodyOps_modifyBlock hb (fun xs => hf xs x) fun ss s hs _ => hg ss s hs,
      by rwa [removed_modifyBlock]⟩
  · rw [removed_modifyBlock] at hx
    simpa [ops_modifyBlock] using Nat.lt_succ_of_lt (hw x hx)
  · rw [op_modifyBlock, op_push_self]
  · exact mem_liveOps.2 ⟨mem_bodyOps_modifyBlock_of_placement hp hfa hga,
      by rw [removed_modifyBlock]; exact fresh hw⟩

/-- Inserting before a placed op keeps everything; the inserted op is live. -/
theorem insertBefore_keeps {a x : OpId} {o : TileOp} (h : k.insertBefore a o = .ok (x, k')) :
    k.Keeps k' [] ∧ a.idx < k.ops.size ∧ x = ⟨k.ops.size⟩ ∧ (k'.op x).kind = o.kind ∧
      (k.RemovedExist → x ∈ k'.liveOps) := by
  unfold insertBefore at h
  rcases hb : k.placed a with e | blk
  · simp [hb, bind, Except.bind] at h
  simp only [hb, bind, Except.bind] at h
  split at h
  · cases h
  rename_i _ r ho
  obtain ⟨x₁, k₁⟩ := r
  obtain ⟨rfl, rfl⟩ := addOp_ok ho
  obtain ⟨rfl, rfl⟩ := Prod.mk.inj (Except.ok.inj h)
  have kind : (if o.sched.isNone then { o with sched := (k.op a).sched } else o).kind = o.kind := by
    split_ifs <;> rfl
  obtain ⟨keeps, hkind, live⟩ := keeps_place (placed_ok hb).1 (fun _ _ hy => mem_insertAt.2 (.inr hy))
    (fun _ _ => mem_insertAt.2 (.inl rfl)) (fun _ _ hs => mem_insertAt.2 (.inr hs))
    fun _ _ => mem_insertAt.2 (.inl rfl)
  exact ⟨keeps, (placed_ok hb).2, rfl, hkind.trans kind, live⟩

/-- Inserting after a placed op keeps everything; the inserted op is live. -/
theorem insertAfter_keeps {a x : OpId} {o : TileOp} (h : k.insertAfter a o = .ok (x, k')) :
    k.Keeps k' [] ∧ a.idx < k.ops.size ∧ x = ⟨k.ops.size⟩ ∧ (k'.op x).kind = o.kind ∧
      (k.RemovedExist → x ∈ k'.liveOps) := by
  unfold insertAfter at h
  rcases hb : k.placed a with e | blk
  · simp [hb, bind, Except.bind] at h
  simp only [hb, bind, Except.bind] at h
  split at h
  · cases h
  rename_i _ r ho
  obtain ⟨x₁, k₁⟩ := r
  obtain ⟨rfl, rfl⟩ := addOp_ok ho
  obtain ⟨rfl, rfl⟩ := Prod.mk.inj (Except.ok.inj h)
  have kind : (if o.sched.isNone then { o with sched := (k.op a).sched } else o).kind = o.kind := by
    split_ifs <;> rfl
  obtain ⟨keeps, hkind, live⟩ := keeps_place (placed_ok hb).1 (fun _ _ hy => mem_insertAt.2 (.inr hy))
    (fun _ _ => mem_insertAt.2 (.inl rfl)) (fun _ _ hs => mem_insertAt.2 (.inr hs))
    fun _ _ => mem_insertAt.2 (.inl rfl)
  exact ⟨keeps, (placed_ok hb).2, rfl, hkind.trans kind, live⟩

/-- Replacing a placed op keeps everything but the replaced op; the replacement is live. -/
theorem replaceOp_keeps {old x : OpId} {o : TileOp} (h : k.replaceOp old o = .ok (x, k')) :
    k.Keeps k' [old] ∧ (k'.op x).kind = o.kind ∧ (k.RemovedExist → x ∈ k'.liveOps) := by
  unfold replaceOp at h
  rcases hb : k.placed old with e | blk
  · simp [hb, bind, Except.bind] at h
  simp only [hb, bind, Except.bind] at h
  split at h
  · cases h
  obtain ⟨rfl, rfl⟩ := Prod.mk.inj (Except.ok.inj h)
  obtain ⟨hp, hold⟩ := placed_ok hb
  -- The new op is pushed, takes over the dependents, then the old one's place.
  let k₁ : Kernel := { k with ops := k.ops.push { o with deps := (k.op old).deps, sched := (k.op old).sched } }
  let new : OpId := ⟨k.ops.size⟩
  let k₂ := k₁.redirectDependents old new
  have keep₁ : k.Keeps k₁ [] := keeps_push
  have keep₂ : k₁.Keeps k₂ [] := keeps_redirectDependents
  obtain ⟨hb₂, hl₂, hr₂⟩ : k₂.body = k₁.body ∧ k₂.loops = k₁.loops ∧ k₂.removed = k₁.removed :=
    redirectDependents_frame
  have hp₂ : k₂.placement old = some blk := by rw [placement_congr hb₂ hl₂ hr₂]; exact hp
  have hne : new ≠ old := fun he => Nat.lt_irrefl _ (he ▸ hold)
  have hsize : k.ops.size < k₂.ops.size := Nat.lt_of_lt_of_le (by simp [k₁]) keep₂.size
  have hr : ∀ y, y ∈ (k₂.modifyBlock blk (·.map fun y => if y == old then new else y)
      (·.map fun s => if s == .op old then .op new else s)).removed ++ [old] ↔ y ∈ k.removed ∨ y = old := by
    intro y
    rw [removed_modifyBlock, hr₂]
    simp [k₁]
  refine ⟨⟨Nat.le_of_lt (by simpa [ops_modifyBlock] using hsize), fun y hy => ?_, fun y hy hy' => ?_,
    fun hw y hy => ?_⟩, ?_, fun hw => ?_⟩
  · show ((k₂.modifyBlock _ _ _).op y).kind = _
    rw [op_modifyBlock, keep₂.kind y (Nat.lt_of_lt_of_le hy keep₁.size), keep₁.kind y hy]
  · have hy₂ := mem_liveOps.1 (keep₂.live y (keep₁.live y hy List.not_mem_nil) List.not_mem_nil)
    have hyo : y ≠ old := fun he => hy' (List.mem_singleton.2 he)
    refine mem_liveOps.2 ⟨mem_bodyOps_modifyBlock hy₂.1 (fun xs hxs => List.mem_map.2 ⟨y, hxs, by simp [hyo]⟩)
      fun ss s hs hys => List.mem_map.2 ⟨s, hs, ?_⟩, fun hy'' => ?_⟩
    · have : s ≠ .op old := by
        rintro rfl
        exact hyo (List.mem_singleton.1 hys)
      simp [this]
    · rcases (hr y).1 hy'' with h' | h'
      · exact (mem_liveOps.1 hy).2 h'
      · exact hyo h'
  · have : y.idx < k.ops.size := by
      rcases (hr y).1 hy with h' | rfl
      · exact hw y h'
      · exact hold
    simpa [ops_modifyBlock] using Nat.lt_trans this hsize
  · show ((k₂.modifyBlock _ _ _).op new).kind = _
    rw [op_modifyBlock, keep₂.kind new (by simp [k₁, new]), op_push_self]
  · refine mem_liveOps.2 ⟨mem_bodyOps_modifyBlock_of_placement hp₂
      (fun xs ho => List.mem_map.2 ⟨old, ho, by simp⟩) (fun ss ho => List.mem_map.2 ⟨.op old, ho, by simp⟩),
      fun hn => ?_⟩
    rcases (hr new).1 hn with h' | h'
    · exact Nat.lt_irrefl _ (hw new h')
    · exact hne h'

/-- Adding dependencies one after another keeps everything. -/
theorem keeps_forM_addDependency {k₀ k₁ : Kernel} {ds : List OpId} {x : OpId}
    (h : (ds.forM fun d => KernelM.update fun k => k.addDependency x d).run k₀ = .ok (.ok (), k₁)) :
    k₀.Keeps k₁ [] :=
  KernelM.run_forM_ok (fun _ k => k₀.Keeps k []) []
    (fun _ _ _ _ _ keep hs => keep.trans (keeps_addDependency (KernelM.run_update.1 hs))) (.refl _) h

/-- An op outside the arena reads as a cast, so an op that is a copy exists. -/
theorem lt_size_of_kind_copy {x : OpId} {v : Option Nat} {m : Bool} (h : (k.op x).kind = .copy v m) :
    x.idx < k.ops.size := by
  unfold Kernel.op op? at h
  rcases hx : k.ops[x.idx]? with _ | o
  · simp [hx] at h
  · exact (Array.getElem?_eq_some_iff.1 hx).1

end Kernel

/-! ### Buffers -/

section Buffers

variable {k k' : Kernel}

theorem tryBuffer_ok {b : BufferId} {bf : Buffer} (h : k.tryBuffer b = .ok bf) :
    b.idx < k.buffers.size ∧ k.buffer b = bf := by
  unfold Kernel.tryBuffer at h
  split at h
  · rename_i bf' hb
    obtain rfl := Except.ok.inj h
    exact ⟨(Array.getElem?_eq_some_iff.1 hb).1, by simp [Kernel.buffer, hb]⟩
  · cases h

/-- Attaching a layout changes one buffer of the kernel, its layout. -/
theorem attachLayout_ok {b : BufferId} {l : Layout} (h : k.attachLayout b l = .ok k') :
    b.idx < k.buffers.size ∧ k' = k.modifyBuffer b ({ · with layout := some l }) := by
  unfold Kernel.attachLayout at h
  rcases hb : k.tryBuffer b with e | bf
  · simp [hb, bind, Except.bind] at h
  simp only [hb, bind, Except.bind] at h
  repeat' split at h
  all_goals first
    | (obtain rfl := Except.ok.inj h; exact ⟨(tryBuffer_ok hb).1, rfl⟩)
    | cases h

end Buffers

end TileKernel
