import TileKernel.Proofs.Operands
import TileKernel.Analysis.Trace

/-!
# Pipelining at depth one

A loop pipelined at depth one runs one steady block `extent` times; the block holds a fresh
clone of each body op, in body order, and there is no prologue, epilogue or ring. A clone has
its original's name, kind and operands, and a schedule naming its original and iteration
`i + 0`. A trace reads of an op exactly that content and schedule, and of a buffer nothing the
rewrite changes, so the pipelined loop's trace is the original one, effect for effect.

The rewrite also cannot fail on a kernel built by the building calls whose loop is not yet
pipelined: each clone passes the operand checks its original passed, copies dependencies that
exist and close no cycle (nothing waits for a clone that is being made), and is placed nowhere
before the expansion places it.
-/

set_option autoImplicit false

namespace TileKernel

/-! ### Traces read ops by content -/

section Traces

/-- A `filterMapM` over two lists whose corresponding elements give the same result. -/
theorem filterMapM_forall₂ {m : Type → Type} [Monad m] {α β γ : Type}
    {f : α → m (Option γ)} {g : β → m (Option γ)} {as : List α} {bs : List β}
    (h : List.Forall₂ (fun a b => f a = g b) as bs) : as.filterMapM f = bs.filterMapM g := by
  suffices ∀ acc, List.filterMapM.loop f as acc = List.filterMapM.loop g bs acc from this []
  induction h with
  | nil => exact fun _ => rfl
  | cons hab _ ih =>
    intro acc
    simp only [List.filterMapM.loop, hab, ih]

/-- A fold over `0, …, n - 1` only calls its step below `n`. -/
theorem foldRangeM_congr {m : Type → Type} [Monad m] {β : Type} {f g : β → Nat → m β} {n : Nat}
    (h : ∀ acc i, i < n → f acc i = g acc i) (init : β) :
    foldRangeM n f init = foldRangeM n g init := by
  suffices ∀ c i acc, i + c ≤ n → foldRangeM.go f c i acc = foldRangeM.go g c i acc from
    this n 0 init (by omega)
  intro c
  induction c with
  | zero => exact fun _ _ _ => rfl
  | succ c ih =>
    intro i acc hc
    simp only [foldRangeM.go]
    rw [h acc i (by omega)]
    congr 1
    funext a
    exact ih (i + 1) a (by omega)

variable {k k' : Kernel} {p : Expansion}

/-- Without rings, an access resolves in the pipelined loop as in the original one. -/
theorem resolveAccess_unstaged (hb : k'.buffers = k.buffers) (hp : p.rings = []) (o : Operand)
    (iteration : Nat) : resolveAccess k' o iteration (some p) = resolveAccess k o iteration none := by
  have buf : k'.buffer = k.buffer := funext fun b => by simp only [Kernel.buffer, Kernel.buffer?, hb]
  simp [resolveAccess, buf, Expansion.ringOf, hp]

/-- `c` is a steady clone, for iteration `i + 0`, of the body op `h`, which has no schedule. -/
def SteadyClone (k k' : Kernel) (h c : OpId) : Prop :=
  (k'.op c).detached = (k.op h).detached ∧ (k.op h).sched = none ∧
    ∃ stage, (k'.op c).sched = some ⟨stage, .steady, .relative 0, h⟩

/-- A pass over clones reports what a pass over their originals reports, at every 32-bit
iteration. -/
theorem traceBody_clones (hb : k'.buffers = k.buffers) (hp : p.rings = []) {i : Nat}
    (hi : i < Word.u32.bound) {body clones : List OpId}
    (hR : List.Forall₂ (SteadyClone k k') body clones) :
    traceBody k' clones i (some p) = traceBody k body i none := by
  unfold traceBody
  apply filterMapM_forall₂
  refine hR.flip.imp fun c h hc => ?_
  obtain ⟨hd, hs, stage, hs'⟩ := hc
  -- A trace reads an op's operands through its content, which the clone shares.
  have reads : (k'.op c).reads = (k.op h).reads := by
    have same := congrArg TileOp.reads hd
    exact same
  have writes : (k'.op c).outputs = (k.op h).outputs := by
    have same := congrArg TileOp.outputs hd
    exact same
  have resolve : IterRef.resolve (.relative 0) i = pure i := by
    simp only [IterRef.resolve, Word.add, Word.fit, Nat.add_zero, if_pos hi]
    rfl
  simp only [hs, hs', resolve, reads, writes, resolveAccess_unstaged hb hp, pure_bind]

/-- Passes over clones, one for each 32-bit iteration, report what passes over their originals
report. -/
theorem traceRepeat_clones (hb : k'.buffers = k.buffers) (hp : p.rings = []) {n : Nat}
    (hn : n ≤ Word.u32.bound) {body clones : List OpId}
    (hR : List.Forall₂ (SteadyClone k k') body clones) :
    traceRepeat k' clones n (some p) = traceRepeat k body n none := by
  have empty : clones.isEmpty = body.isEmpty := by cases hR <;> rfl
  unfold traceRepeat
  rw [empty, foldRangeM_congr (g := fun acc i => do return (← traceBody k body i none).reverse ++ acc)
    fun acc i hi => by rw [traceBody_clones hb hp (Nat.lt_of_lt_of_le hi hn) hR]]

/-- A pipelined loop with no prologue or epilogue is traced as its steady block, repeated. -/
theorem traceLoop_steady {l : LoopId} (hexp : (k.loop l).expansion = some p)
    (hpro : p.prologue = []) (hepi : p.epilogue = []) :
    traceLoop k l = traceRepeat k p.steady p.steadyTrips (some p) := by
  have none : ∀ i, traceBody k [] i (some p) = pure [] := fun _ => rfl
  unfold traceLoop
  simp only [hexp, hpro, hepi, none, pure_bind, List.nil_append, List.append_nil, bind_pure]

end Traces

/-! ### Runs that succeed -/

namespace KernelM

variable {ε α β : Type} {k k₁ : Kernel}

theorem run_bind_of_ok {x : KernelM ε α} {f : α → KernelM ε β} {a : α}
    (h : x.run k = .ok (.ok a, k₁)) : (x >>= f).run k = (f a).run k₁ := by
  rw [run_bind, h]

/-- A loop each of whose steps succeeds from a kernel satisfying `I`, into one satisfying `I`,
succeeds. -/
theorem run_forM_progress {γ : Type} {f : γ → KernelM ε PUnit} (I : Kernel → Prop) :
    ∀ {l : List γ} {k : Kernel},
      (∀ d ∈ l, ∀ k₁, I k₁ → ∃ k₂, (f d).run k₁ = .ok (.ok (), k₂) ∧ I k₂) →
      I k → ∃ k', (l.forM f).run k = .ok (.ok (), k') ∧ I k'
  | [], k, _, hk => ⟨k, rfl, hk⟩
  | d :: l, k, step, hk => by
    obtain ⟨k₁, h₁, hk₁⟩ := step d List.mem_cons_self k hk
    obtain ⟨k', h', hk'⟩ :=
      run_forM_progress I (fun d' hd' => step d' (List.mem_cons_of_mem _ hd')) hk₁
    refine ⟨k', ?_, hk'⟩
    rw [List.forM, run_bind_of_ok h₁]
    exact h'

/-- A fold each of whose steps succeeds from an accumulator and kernel satisfying `I`, extending
it, succeeds. -/
theorem run_foldlM_progress {γ : Type} {f : β → γ → KernelM ε β}
    (I : List γ → β → Kernel → Prop) :
    ∀ (done : List γ) {l : List γ} {b : β} {k : Kernel},
      (∀ d ∈ l, ∀ done' b₁ k₁, I done' b₁ k₁ →
        ∃ b₂ k₂, (f b₁ d).run k₁ = .ok (.ok b₂, k₂) ∧ I (done' ++ [d]) b₂ k₂) →
      I done b k → ∃ b' k', (l.foldlM f b).run k = .ok (.ok b', k') ∧ I (done ++ l) b' k'
  | done, [], b, k, _, hk => ⟨b, k, rfl, by simpa using hk⟩
  | done, d :: l, b, k, step, hk => by
    obtain ⟨b₁, k₁, h₁, hk₁⟩ := step d List.mem_cons_self done b k hk
    obtain ⟨b', k', h', hk'⟩ := run_foldlM_progress I (done ++ [d])
      (fun d' hd' => step d' (List.mem_cons_of_mem _ hd')) hk₁
    refine ⟨b', k', ?_, by simpa using hk'⟩
    rw [List.foldlM_cons, run_bind_of_ok h₁]
    exact h'

end KernelM

/-! ### Calls that succeed -/

namespace Kernel

variable {k : Kernel}

/-- A loop of checks in `Except` each of which passes, passes. -/
theorem forM_except_of_ok {γ ε : Type} {f : γ → Except ε PUnit} :
    ∀ {l : List γ}, (∀ a ∈ l, f a = .ok ()) → l.forM f = .ok ()
  | [], _ => rfl
  | a :: l, h => by
    rw [List.forM, h a List.mem_cons_self]
    exact forM_except_of_ok fun b hb => h b (List.mem_cons_of_mem _ hb)

theorem checkOp_eq {x : OpId} (hx : x.idx < k.ops.size) : k.checkOp x = .ok (k.op x) := by
  simp [checkOp, Kernel.op, op?, hx]

theorem addOp_eq {o : TileOp} (hc : k.checkOperands o = .ok ())
    (hd : ∀ d ∈ o.deps, d.idx < k.ops.size) :
    k.addOp o = .ok (⟨k.ops.size⟩, { k with ops := k.ops.push o }) := by
  unfold addOp
  simp only [hc, bind, Except.bind]
  rw [forM_except_of_ok fun d hdm => by rw [checkOp_eq (hd d hdm)]; rfl]
  rfl

theorem setSched_eq {x : OpId} {info : SchedInfo} (hx : x.idx < k.ops.size)
    (hs : (k.op x).sched = none) :
    k.setSched x info = .ok (k.modifyOp x ({ · with sched := some info })) := by
  unfold setSched
  simp [checkOp_eq hx, hs, bind, Except.bind]
  rfl

theorem addDependency_eq {h on : OpId} (hh : h.idx < k.ops.size) (hon : on.idx < k.ops.size)
    (hfree : k.dependsOn on h = false) :
    k.addDependency h on = .ok (k.modifyOp h fun x => { x with deps := on.insertSorted x.deps }) := by
  unfold addDependency
  simp [checkOp_eq hh, checkOp_eq hon, hfree, bind, Except.bind]
  rfl

theorem checkUnplaced_eq {x : OpId} (hx : x.idx < k.ops.size) (hp : k.placement x = none)
    (hr : x ∉ k.removed) : k.checkUnplaced x = .ok () := by
  unfold checkUnplaced
  simp [checkOp_eq hx, hp, isRemoved, hr, bind, Except.bind]
  rfl

theorem setExpansion_eq {l : LoopId} {p : Expansion} (hexp : (k.loop l).expansion = none)
    (hd : p.depth ≠ 0) (hu : ∀ x ∈ p.prologue ++ p.steady ++ p.epilogue, k.checkUnplaced x = .ok ()) :
    k.setExpansion l p = .ok (({ k with
      removed := k.removed ++ ((k.loop l).body.filter fun h => !k.removed.contains h) } :
        Kernel).modifyLoop l ({ · with expansion := some p })) := by
  unfold setExpansion
  rw [forM_except_of_ok hu]
  simp [hexp, hd, bind, Except.bind]
  rfl

/-- An op that nothing waits for is reached from no other op. -/
theorem dependsOn_fresh (hd : k.DepsExist) {t h : OpId} (hfree : ∀ x, h ∉ (k.op x).deps)
    (hne : t ≠ h) : k.dependsOn t h = false := by
  cases hdep : k.dependsOn t h with
  | false => rfl
  | true =>
    rcases ((dependsOn_iff hd).1 hdep).cases_tail with heq | ⟨c, -, hc⟩
    · exact absurd heq.symm hne
    · exact absurd hc (hfree c)

/-- A key found in a list of pairs comes with its pair. -/
theorem mem_of_lookup {a : OpId} {b : OpId} :
    ∀ {l : List (OpId × OpId)}, l.lookup a = some b → (a, b) ∈ l
  | [], h => by cases h
  | (x, y) :: l, h => by
    rw [List.lookup_cons] at h
    split at h
    · rename_i hax
      obtain rfl := Option.some.inj h
      obtain rfl := beq_iff_eq.1 hax
      exact List.mem_cons_self
    · exact List.mem_cons_of_mem _ (mem_of_lookup h)

/-! ### Cloning the body -/

/-- What cloning the body ops of `k` keeps in the kernel `k₁` it has reached: the arena
invariant, the buffers, loops, body and removed ops, and every op of `k`. -/
structure Cloning (k k₁ : Kernel) : Prop where
  arena : k₁.Arena
  buffers : k₁.buffers = k.buffers
  loops : k₁.loops = k.loops
  body : k₁.body = k.body
  removed : k₁.removed = k.removed
  size : k.ops.size ≤ k₁.ops.size
  old : ∀ x, x.idx < k.ops.size → k₁.op x = k.op x

namespace Cloning

variable {k₁ : Kernel}

theorem refl (hA : k.Arena) : Cloning k k :=
  ⟨hA, rfl, rfl, rfl, rfl, Nat.le_refl _, fun _ _ => rfl⟩

theorem push (hc : Cloning k k₁) {o : TileOp} (hA : Arena { k₁ with ops := k₁.ops.push o }) :
    Cloning k { k₁ with ops := k₁.ops.push o } :=
  ⟨hA, hc.buffers, hc.loops, hc.body, hc.removed, Nat.le_trans hc.size (by simp),
    fun x hx => (op_push (Nat.lt_of_lt_of_le hx hc.size)).trans (hc.old x hx)⟩

/-- An edit of an op made while cloning keeps every op of `k`. -/
theorem modifyOp (hc : Cloning k k₁) {x : OpId} {f : TileOp → TileOp} (hx : k.ops.size ≤ x.idx)
    (hA : (k₁.modifyOp x f).Arena) : Cloning k (k₁.modifyOp x f) :=
  ⟨hA, hc.buffers, hc.loops, hc.body, hc.removed, Nat.le_trans hc.size (by simp [Kernel.modifyOp]),
    fun y hy => (op_modifyOp_of_ne fun e => Nat.lt_irrefl _ (e ▸ Nat.lt_of_lt_of_le hy hx)).trans
      (hc.old y hy)⟩

/-- The ops the body of `k` places are still placed where they were: the clones are not. -/
theorem placement (hc : Cloning k k₁) : k₁.placement = k.placement :=
  placement_congr hc.body hc.loops hc.removed

end Cloning

/-- The new dependency of a clone `h` on an op `t` made before it succeeds while nothing waits for
the clone, and still nothing does after it. -/
theorem link_ok {k₁ : Kernel} {h t : OpId} (hc : Cloning k k₁) (hsize : k₁.ops.size = h.idx + 1)
    (hfresh : k.ops.size ≤ h.idx) (hfree : ∀ x, h ∉ (k₁.op x).deps) (ht : t.idx < h.idx) :
    ∃ k₂, (KernelM.update (·.addDependency h t) : KernelM KernelError Unit).run k₁ =
      .ok (.ok (), k₂) ∧ Cloning k k₂ ∧ k₁.Retains k₂ ∧ k₁.OpsAlike k₂ ∧
        k₂.ops.size = k₁.ops.size ∧ ∀ x, h ∉ (k₂.op x).deps := by
  have hne : t ≠ h := fun e => Nat.lt_irrefl _ (e ▸ ht)
  have hadd := addDependency_eq (by omega) (by omega) (dependsOn_fresh hc.arena.depsExist hfree hne)
  refine ⟨_, KernelM.run_update.2 hadd, hc.modifyOp hfresh (hc.arena.addDependency hadd),
    retains_addDependency hadd, opsAlike_modifyOp fun _ => rfl, by simp [Kernel.modifyOp],
    fun x hx => ?_⟩
  -- Only the clone's own dependencies change, and it does not wait for itself.
  by_cases hxh : h = x
  · subst hxh
    rw [op_modifyOp (by omega), if_pos rfl] at hx
    rcases mem_insertSorted.1 hx with e | hx
    · exact hne e.symm
    · exact hfree h hx
  · rw [op_modifyOp_of_ne hxh] at hx
    exact hfree x hx

/-- A clone copies its original's dependencies: those outside the loop as they are, those on
body ops cloned before it in the slot as dependencies on their clones. Every one names an older
op, so each succeeds. -/
theorem cloneDeps_ok (body : List OpId) {k₁ : Kernel} {h : OpId} {deps : List OpId}
    {made : List (OpId × OpId)} (hc : Cloning k k₁) (hsize : k₁.ops.size = h.idx + 1) (hfresh : k.ops.size ≤ h.idx)
    (hfree : ∀ x, h ∉ (k₁.op x).deps) (hdeps : ∀ d ∈ deps, d.idx < h.idx)
    (hmade : ∀ x ∈ made, x.2.idx < h.idx) :
    ∃ k₂, (deps.forM fun dep =>
      if !body.contains dep then KernelM.update (·.addDependency h dep)
      else match made.lookup dep with
        | some c => KernelM.update (·.addDependency h c)
        | none => pure () : KernelM KernelError Unit).run k₁ = .ok (.ok (), k₂) ∧
      Cloning k k₂ ∧ k₁.Retains k₂ ∧ k₁.OpsAlike k₂ ∧ k₂.ops.size = k₁.ops.size ∧
        ∀ x, h ∉ (k₂.op x).deps := by
  refine KernelM.run_forM_progress (fun k₂ => Cloning k k₂ ∧ k₁.Retains k₂ ∧ k₁.OpsAlike k₂ ∧
    k₂.ops.size = k₁.ops.size ∧ ∀ x, h ∉ (k₂.op x).deps) ?_ ⟨hc, .refl _, .refl _, rfl, hfree⟩
  rintro dep hdep k₂ ⟨hc₂, hr, ho, hs, hfree₂⟩
  -- Each step adds one dependency on an older op, or none.
  have link : ∀ t : OpId, t.idx < h.idx → ∃ k₃,
      (KernelM.update (·.addDependency h t) : KernelM KernelError Unit).run k₂ = .ok (.ok (), k₃) ∧
      Cloning k k₃ ∧ k₁.Retains k₃ ∧ k₁.OpsAlike k₃ ∧ k₃.ops.size = k₁.ops.size ∧
        ∀ x, h ∉ (k₃.op x).deps := fun t ht => by
    obtain ⟨k₃, hrun, hc₃, hr₃, ho₃, hs₃, hfree₃⟩ := link_ok hc₂ (hs.trans hsize) hfresh hfree₂ ht
    exact ⟨k₃, hrun, hc₃, hr.trans hr₃, ho.trans ho₃, hs₃.trans hs, hfree₃⟩
  split
  · exact link dep (hdeps dep hdep)
  · split
    · rename_i c hlookup
      exact link c (hmade _ (mem_of_lookup hlookup))
    · exact ⟨k₂, rfl, hc₂, hr, ho, hs, hfree₂⟩

end Kernel

/-- `x` pairs the body op of the entry `e` with its steady clone in `k₁`: a fresh op with the
body op's content and a steady schedule, for iteration `i + 0`, that names the body op. -/
def SlotCopy (k k₁ : Kernel) (e : OpId × Stage) (x : OpId × OpId) : Prop :=
  x.1 = e.1 ∧ k.ops.size ≤ x.2.idx ∧ x.2.idx < k₁.ops.size ∧
    (k₁.op x.2).detached = (k.op e.1).detached ∧
    (k₁.op x.2).sched = some ⟨e.2.number, .steady, .relative 0, e.1⟩

section Slot

variable {k k₁ k₂ : Kernel}

theorem SlotCopy.mono {e : OpId × Stage} {x : OpId × OpId} (h : SlotCopy k k₁ e x)
    (hr : k₁.Retains k₂) (ho : k₁.OpsAlike k₂) : SlotCopy k k₂ e x :=
  ⟨h.1, h.2.1, Nat.lt_of_lt_of_le h.2.2.1 hr.size, (ho.detached _ h.2.2.1).trans h.2.2.2.1,
    (hr.sched _ h.2.2.1).trans h.2.2.2.2⟩

/-- What holds of every right element of a relation that implies it. -/
theorem forall_mem_of_forall₂ {α β : Type} {R : α → β → Prop} {P : β → Prop} {as : List α}
    {bs : List β} (h : List.Forall₂ R as bs) (hP : ∀ a b, R a b → P b) : ∀ b ∈ bs, P b := by
  induction h with
  | nil => exact fun _ hb => absurd hb List.not_mem_nil
  | cons hab _ ih =>
    intro b hb
    rcases List.mem_cons.1 hb with rfl | hb
    · exact hP _ _ hab
    · exact ih b hb

theorem Kernel.op_push_of_ne {o : TileOp} {x : OpId} (hx : x ≠ ⟨k.ops.size⟩) :
    ({ k with ops := k.ops.push o } : Kernel).op x = k.op x := by
  have hne : x.idx ≠ k.ops.size := fun e => hx (by rw [← e])
  simp [Kernel.op, Kernel.op?, Array.getElem?_push, hne]

/-- The clone itself: the original's content pushed as a fresh op that nothing waits for, with
the steady schedule. -/
theorem cloneOp_ok (hC : k.Consistent) (hc : Kernel.Cloning k k₁) {original : OpId}
    (ho : original.idx < k.ops.size) (info : SchedInfo) :
    ∃ k₃, k₁.addOp (k.op original).detached =
        .ok (⟨k₁.ops.size⟩, { k₁ with ops := k₁.ops.push (k.op original).detached }) ∧
      ({ k₁ with ops := k₁.ops.push (k.op original).detached } : Kernel).setSched
        ⟨k₁.ops.size⟩ info = .ok k₃ ∧
      Kernel.Cloning k k₃ ∧ k₁.Retains k₃ ∧ k₁.OpsAlike k₃ ∧ k₃.ops.size = k₁.ops.size + 1 ∧
      (k₃.op ⟨k₁.ops.size⟩).detached = (k.op original).detached ∧
      (k₃.op ⟨k₁.ops.size⟩).sched = some info ∧ ∀ x, ⟨k₁.ops.size⟩ ∉ (k₃.op x).deps := by
  set h : OpId := ⟨k₁.ops.size⟩
  set k₂ : Kernel := { k₁ with ops := k₁.ops.push (k.op original).detached }
  -- The original passed the operand checks, against the same buffers.
  have checked : k₁.checkOperands (k.op original).detached = .ok () := by
    rw [Kernel.checkOperands_detached]
    exact Kernel.checkOperands_of_alike (Kernel.buffersAlike_of_eq hc.buffers)
      (hC.operandsChecked original ho)
  have hadd := Kernel.addOp_eq checked (fun _ hd => by cases hd)
  have hsched : k₂.setSched h info = .ok (k₂.modifyOp h ({ · with sched := some info })) :=
    Kernel.setSched_eq (by simp [k₂, h]) (by rw [Kernel.op_push_self]; rfl)
  obtain ⟨keep, -, -, sched⟩ := Kernel.addOp_setSched hadd hsched
  have pushed : Kernel.Cloning k k₂ := hc.push (hc.arena.pushOp fun _ hd => by cases hd)
  have hlt : h.idx < k₂.ops.size := by simp [k₂, h]
  refine ⟨_, hadd, hsched, pushed.modifyOp hc.size (pushed.arena.setSched hsched), keep,
    Kernel.opsAlike_push.trans (Kernel.opsAlike_modifyOp fun _ => rfl), by simp [Kernel.modifyOp, k₂],
    ?_, sched, fun x hx => ?_⟩
  · rw [Kernel.op_modifyOp hlt, if_pos rfl, Kernel.op_push_self]
    rfl
  -- Nothing waits for the clone: every older op waits for older ops only.
  by_cases hxh : h = x
  · subst hxh
    rw [Kernel.op_modifyOp hlt, if_pos rfl, Kernel.op_push_self] at hx
    cases hx
  · rw [Kernel.op_modifyOp_of_ne hxh, Kernel.op_push_of_ne (Ne.symm hxh)] at hx
    exact Nat.lt_irrefl _ (hc.arena.depsExist x h hx)

/-- A steady slot with no staged buffers and no op to wait for clones every entry of a body of
`k`: it succeeds, keeps what `Kernel.Cloning` keeps, and pairs each entry with its clone. -/
theorem cloneSlot_ok (body : List OpId) (hC : k.Consistent) {entries : List (OpId × Stage)}
    (hentries : ∀ e ∈ entries, e.1.idx < k.ops.size) :
    ∃ made k₂, (cloneSlot body [] entries .steady (.relative 0) none).run k = .ok (.ok made, k₂) ∧
      Kernel.Cloning k k₂ ∧ List.Forall₂ (SlotCopy k k₂) entries made := by
  unfold cloneSlot
  refine KernelM.run_foldlM_progress (fun done made k₁ => Kernel.Cloning k k₁ ∧
    List.Forall₂ (SlotCopy k k₁) done made) [] ?_ ⟨.refl hC.toArena, .nil⟩
  rintro ⟨original, stage⟩ he done made k₁ ⟨hc, hmade⟩
  have ho : original.idx < k.ops.size := hentries _ he
  dsimp only
  rw [KernelM.run_get_bind, KernelM.run_get_bind, hc.old original ho]
  -- With nothing staged, a clone has exactly its original's content.
  simp only [List.contains_nil, Bool.false_eq_true, if_false, List.map_id']
  obtain ⟨k₃, hadd, hsched, hc₃, keep₃, alike₃, size₃, content, sched, hfree⟩ :=
    cloneOp_ok hC hc ho ⟨stage.number, .steady, .relative 0, original⟩
  have hlt : k₁.ops.size < k₃.ops.size := by omega
  obtain ⟨k₄, hdeps, hc₄, keep₄, alike₄, size₄, -⟩ := Kernel.cloneDeps_ok body hc₃ size₃ hc.size
    hfree
    (fun d hd => Nat.lt_of_lt_of_le (hC.depsExist original d hd) hc.size)
    (forall_mem_of_forall₂ hmade fun _ _ x => x.2.2.1)
  refine ⟨made ++ [(original, ⟨k₁.ops.size⟩)], k₄, ?_, hc₄, ?_⟩
  · rw [KernelM.run_bind_of_ok (KernelM.run_edit.2 hadd)]
    refine KernelM.run_bind_eq_ok.2 ⟨(), k₃, KernelM.run_update.2 hsched, ?_⟩
    exact KernelM.run_bind_eq_ok.2 ⟨(), k₄, hdeps, rfl⟩
  · refine List.rel_append (hmade.imp fun _ _ x => x.mono (keep₃.trans keep₄) (alike₃.trans alike₄))
      (.cons ⟨rfl, hc.size, size₄ ▸ hlt, (alike₄.detached _ hlt).trans content,
        (keep₄.sched _ hlt).trans sched⟩ .nil)

end Slot

/-! ### The pipelined loop -/

/-- The ops a loop of the arena runs before it is pipelined are ops of the arena. -/
theorem Kernel.Arena.body_lt {k : Kernel} (hA : k.Arena) {l : LoopId} (hl : l.idx < k.loops.size)
    (hexp : (k.loop l).expansion = none) : ∀ h ∈ (k.loop l).body, h.idx < k.ops.size := by
  intro h hh
  refine hA.placedExist h (List.mem_flatMap.2 ⟨_, hA.mem_body_of_lt hl, ?_⟩)
  rw [Kernel.stmtOps_loop, LoopNest.placedOps, hexp]
  exact hh

/-- Moving the dependents of each original onto its last clone always succeeds, and edits
dependencies only. -/
theorem redirect_ok (pairs : List (OpId × OpId)) (originals : List OpId) {k : Kernel} :
    ∃ k', (originals.forM fun original => match lastClone pairs original with
      | some c => modify fun k => k.redirectDependents original c
      | none => pure () : KernelM KernelError Unit).run k = .ok (.ok (), k') ∧
      k.Retains k' ∧ k.OpsAlike k' ∧ k'.loops = k.loops ∧ k'.buffers = k.buffers := by
  refine KernelM.run_forM_progress (fun k₁ => k.Retains k₁ ∧ k.OpsAlike k₁ ∧ k₁.loops = k.loops ∧
    k₁.buffers = k.buffers) ?_ ⟨.refl _, .refl _, rfl, rfl⟩
  rintro original - k₁ ⟨keep, alike, loops, buffers⟩
  split
  · rename_i c _
    obtain ⟨hb, -, ho⟩ := Kernel.redirectDependents_alike (k := k₁) original c
    exact ⟨_, KernelM.run_modify, keep.trans Kernel.retains_redirectDependents, alike.trans ho,
      Kernel.redirectDependents_frame.2.1.trans loops, hb.trans buffers⟩
  · exact ⟨k₁, rfl, keep, alike, loops, buffers⟩

theorem pipelineLoop_one_trace {k : Kernel} {l : LoopId} (hC : k.Consistent)
    (hl : l.idx < k.loops.size) (hexp : (k.loop l).expansion = none)
    (hsched : ∀ h ∈ (k.loop l).body, (k.op h).sched = none)
    (hext : (k.loop l).extent < Word.u32.bound) :
    ∃ k', (pipelineLoop l 1).run k = .ok (.ok (), k') ∧ traceLoop k' l = traceLoop k l ∧
      ∃ p, (k'.loop l).expansion = some p ∧ p.prologue = [] ∧ p.epilogue = [] ∧ p.rings = [] ∧
        p.steadyTrips = (k.loop l).extent := by
  have entry : (liftM (Checked.entry k.loops l.idx) : KernelM LowerError LoopNest).run k =
      .ok (.ok (k.loop l), k) := by
    simp [KernelM.run_liftM, Checked.entry, Kernel.loop, Kernel.loop?, hl]
  set body := (k.loop l).body
  set entries := body.map fun h => (h, classifyStage k (k.op h))
  have lt : ∀ e ∈ entries, e.1.idx < k.ops.size := fun e he => by
    obtain ⟨h, hh, rfl⟩ := List.mem_map.1 he
    exact hC.toArena.body_lt hl hexp h hh
  obtain ⟨made, k₂, hslot, hc₂, copies⟩ := cloneSlot_ok body hC lt
  set p : Expansion := ⟨1, (k.loop l).extent, [], made.map (·.2), [], []⟩
  have loop₂ : k₂.loop l = k.loop l := by simp only [Kernel.loop, Kernel.loop?, hc₂.loops]
  -- The clones are fresh, so neither placed nor removed.
  have unplaced : ∀ x ∈ p.prologue ++ p.steady ++ p.epilogue, k₂.checkUnplaced x = .ok () := by
    intro x hx
    obtain ⟨y, hy, rfl⟩ : ∃ y ∈ made, y.2 = x := by simpa [p] using hx
    obtain ⟨fresh, inside⟩ := forall_mem_of_forall₂
      (P := fun y => k.ops.size ≤ y.2.idx ∧ y.2.idx < k₂.ops.size) copies
      (fun _ _ c => ⟨c.2.1, c.2.2.1⟩) y hy
    refine Kernel.checkUnplaced_eq inside ?_ fun hr => ?_
    · rw [hc₂.placement]
      rcases hpl : k.placement y.2 with _ | b
      · rfl
      · have := (Kernel.placement_isSome_iff.1 (by rw [hpl]; rfl)).1
        exact absurd (hC.placedExist _ this) (Nat.not_lt.2 fresh)
    · exact absurd (hC.removedExist _ (hc₂.removed ▸ hr)) (Nat.not_lt.2 fresh)
  have hset := Kernel.setExpansion_eq (p := p) (by rw [loop₂]; exact hexp) one_ne_zero unplaced
  set k₃ : Kernel := ({ k₂ with
    removed := k₂.removed ++ ((k₂.loop l).body.filter fun h => !k₂.removed.contains h) } :
      Kernel).modifyLoop l ({ · with expansion := some p })
  obtain ⟨k', hred, keep, alike, loops', buffers'⟩ :=
    redirect_ok (k := k₃) made (Kernel.sortedIds (made.map (·.1)))
  have final : k'.loop l = { k.loop l with expansion := some p } := by
    have found : ({ k₂ with removed := k₂.removed ++
        ((k₂.loop l).body.filter fun h => !k₂.removed.contains h) } : Kernel).loop? l =
        some (k.loop l) := by
      simp [Kernel.loop?, Kernel.loop, hc₂.loops, hl]
    rw [show k'.loop l = k₃.loop l by simp only [Kernel.loop, Kernel.loop?, loops'],
      Kernel.loop_modifyLoop_self found]
  -- Every clone reads the same in the final kernel, and stands for its original.
  have moved : List.Forall₂ (SlotCopy k k') entries made :=
    copies.imp fun _ _ c => (c.mono (Kernel.setExpansion_ok hset (hc₂.loops ▸ hl)).1
      (Kernel.opsAlike_of_eq rfl)).mono keep alike
  have clones : List.Forall₂ (SteadyClone k k') body (made.map (·.2)) := by
    refine List.forall₂_map_right_iff.2 (((List.forall₂_and_left _ _).2
      ⟨hsched, List.forall₂_map_left_iff.1 moved⟩).imp fun h x hx => ?_)
    obtain ⟨none, rfl, -, -, content, sched⟩ := hx
    exact ⟨content, none, _, sched⟩
  refine ⟨k', ?_, ?_, p, by rw [final], rfl, rfl, rfl, rfl⟩
  · unfold pipelineLoop
    rw [KernelM.run_get_bind, KernelM.run_bind_of_ok entry]
    simp only [one_ne_zero, if_false, Nat.lt_irrefl, if_true, pure_bind, List.mapM_nil]
    refine KernelM.run_lift_eq_ok.2 ?_
    rw [KernelM.run_bind_of_ok hslot, KernelM.run_bind_of_ok (KernelM.run_update.2 hset)]
    exact hred
  · have original : traceLoop k l = traceRepeat k body (k.loop l).extent none := by
      unfold traceLoop
      simp only [hexp]
      rfl
    rw [traceLoop_steady (p := p) (by rw [final]) rfl rfl, original]
    exact traceRepeat_clones (buffers'.trans hc₂.buffers) rfl (Nat.le_of_lt hext) clones

/-- The store-back loop of `Kernel.roundTrip`, pipelined at depth one, keeps its trace. -/
theorem roundTrip_pipelined_once : Kernel.roundTrip.Consistent ∧
    (⟨0⟩ : LoopId).idx < Kernel.roundTrip.loops.size ∧ (Kernel.roundTrip.loop ⟨0⟩).expansion = none ∧
    (∀ h ∈ (Kernel.roundTrip.loop ⟨0⟩).body, (Kernel.roundTrip.op h).sched = none) ∧
    (Kernel.roundTrip.loop ⟨0⟩).extent < Word.u32.bound ∧
    ∃ k', (pipelineLoop ⟨0⟩ 1).run Kernel.roundTrip = .ok (.ok (), k') ∧
      traceLoop k' ⟨0⟩ = traceLoop Kernel.roundTrip ⟨0⟩ ∧
      ∃ p, (k'.loop ⟨0⟩).expansion = some p ∧ p.prologue = [] ∧ p.epilogue = [] ∧ p.rings = [] ∧
        p.steadyTrips = (Kernel.roundTrip.loop ⟨0⟩).extent :=
  ⟨Kernel.Built.consistent Kernel.roundTrip_built, by decide, rfl, by decide, by decide,
    pipelineLoop_one_trace (Kernel.Built.consistent Kernel.roundTrip_built) (by decide) rfl
      (by decide) (by decide)⟩

end TileKernel
