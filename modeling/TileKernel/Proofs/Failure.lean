import TileKernel.Proofs.Construction

/-!
# What a failed stage leaves

A lowering stage keeps the changes it made before it failed. To say what a failure leaves, a
stage is followed through every run, whatever its outcome: `KernelM.Guards Q E x` says that a
run of `x` from a kernel where `Q` holds ends in a kernel where `Q` holds, and that a failure it
ends with satisfies `E`. Guards compose along binds and loops, so a stage inherits them from the
kernel operations it calls; `KernelM.FailureGuards` asks the same of the runs that fail only, for
a stage whose last steps change the kernel for good but cannot fail.

Two instances carry the failure theorems of the stages:

* `Kernel.Extends k k'`: `k'` only adds to `k`. It declares buffers and ops after the existing
  ones and leaves the body, the loops, the removed ops and every existing buffer and op as they
  were. Declaring a buffer or an op keeps it, and so does editing one declared since `k`.
* `KernelError.NotLoop`: the failure is not a malformed loop. Of the kernel operations a stage
  calls, only the loop operations raise one (`setExpansion` here), so what fails elsewhere fails
  with another error (`FailsOnly`).
-/

set_option autoImplicit false

namespace TileKernel

/-! ### Failures of checks -/

/-- Every failure of `x` satisfies `E`. -/
def FailsOnly {ε α : Type} (E : ε → Prop) (x : Except ε α) : Prop := ∀ e, x = .error e → E e

/-- Every failure a run of `x` ends with satisfies `E`; a fault is no failure. -/
def FailsOnlyT {ε α : Type} (E : ε → Prop) (x : ExceptT ε Checked α) : Prop :=
  ∀ e, x.run = .ok (.error e) → E e

section FailsOnly

variable {ε α β : Type} {E : ε → Prop}

@[simp] theorem failsOnly_ok (a : α) : FailsOnly E (.ok a : Except ε α) := fun _ h => by cases h

@[simp] theorem failsOnly_pure (a : α) : FailsOnly E (pure a : Except ε α) := fun _ h => by cases h

@[simp] theorem failsOnly_error {e : ε} : FailsOnly E (.error e : Except ε α) ↔ E e :=
  ⟨fun h => h e rfl, fun h _ he => by cases he; exact h⟩

@[simp] theorem failsOnly_throw {e : ε} : FailsOnly E (throw e : Except ε α) ↔ E e :=
  failsOnly_error

@[simp] theorem throw_eq_ok {e : ε} {a : α} : (throw e : Except ε α) = .ok a ↔ False :=
  ⟨fun h => (nomatch h), False.elim⟩

@[simp] theorem failsOnly_bind {x : Except ε α} {f : α → Except ε β} :
    FailsOnly E (x >>= f) ↔ FailsOnly E x ∧ ∀ a, x = .ok a → FailsOnly E (f a) := by
  rcases x with e | a <;> simp [FailsOnly, bind, Except.bind]

@[simp] theorem failsOnly_map {f : α → β} {x : Except ε α} :
    FailsOnly E (f <$> x) ↔ FailsOnly E x := by
  rcases x with e | a <;> simp [FailsOnly, Functor.map, Except.map]

@[simp] theorem failsOnly_ite {c : Prop} [Decidable c] {x y : Except ε α} :
    FailsOnly E (if c then x else y) ↔ (c → FailsOnly E x) ∧ (¬ c → FailsOnly E y) := by
  split_ifs with h <;> simp [h]

theorem FailsOnly.mono {E' : ε → Prop} {x : Except ε α} (h : FailsOnly E x)
    (hE : ∀ e, E e → E' e) : FailsOnly E' x := fun e he => hE e (h e he)

theorem failsOnly_forM {γ : Type} {f : γ → Except ε PUnit} :
    ∀ {l : List γ}, (∀ c ∈ l, FailsOnly E (f c)) → FailsOnly E (l.forM f)
  | [], _ => failsOnly_pure _
  | c :: l, h => by
    rw [List.forM, failsOnly_bind]
    exact ⟨h c List.mem_cons_self, fun _ _ =>
      failsOnly_forM fun c' hc' => h c' (List.mem_cons_of_mem _ hc')⟩

@[simp] theorem failsOnlyT_pure (a : α) : FailsOnlyT E (pure a : ExceptT ε Checked α) :=
  fun _ h => by cases h

@[simp] theorem failsOnlyT_exceptT_pure (a : α) : FailsOnlyT E (ExceptT.pure a : ExceptT ε Checked α) :=
  fun _ h => by cases h

@[simp] theorem failsOnlyT_throw {e : ε} : FailsOnlyT E (throw e : ExceptT ε Checked α) ↔ E e :=
  ⟨fun h => h e rfl, fun h _ he => by cases he; exact h⟩

@[simp] theorem failsOnlyT_bind {x : ExceptT ε Checked α} {f : α → ExceptT ε Checked β} :
    FailsOnlyT E (x >>= f) ↔ FailsOnlyT E x ∧ ∀ a, x.run = .ok (.ok a) → FailsOnlyT E (f a) := by
  simp only [FailsOnlyT, ExceptT.run_bind]
  rcases x.run with _ | e | a <;> simp [bind, Except.bind, pure, Except.pure]

@[simp] theorem failsOnlyT_ite {c : Prop} [Decidable c] {x y : ExceptT ε Checked α} :
    FailsOnlyT E (if c then x else y) ↔ (c → FailsOnlyT E x) ∧ (¬ c → FailsOnlyT E y) := by
  split_ifs with h <;> simp [h]

@[simp] theorem failsOnlyT_liftM (x : Checked α) : FailsOnlyT E (liftM x : ExceptT ε Checked α) := by
  intro e h
  rcases x with _ | a <;> cases h

@[simp] theorem failsOnlyT_mk {x : Except ε α} :
    FailsOnlyT E (ExceptT.mk (pure x) : ExceptT ε Checked α) ↔ FailsOnly E x := by
  rcases x with e | a <;> simp [FailsOnlyT, FailsOnly, ExceptT.run_mk, pure, Except.pure]

end FailsOnly

/-- The failure is not a malformed loop. -/
def KernelError.NotLoop (e : KernelError) : Prop := ∀ n r, e ≠ .invalidLoop n r

/-- A malformed loop the failure may be is a loop that cannot take an expansion. -/
def KernelError.ExpansionRefused (e : KernelError) : Prop :=
  ∀ n r, e = .invalidLoop n r → r = "loop is already pipelined or depth is 0"

theorem KernelError.expansionRefused_of_notLoop (e : KernelError) (h : e.NotLoop) :
    e.ExpansionRefused := fun n r he => absurd he (h n r)

/-- A failure of the kernel operations that declare, place, link, schedule and lay out: a bad
handle, a refused buffer, layout or swizzle, operands that do not fit, an op frozen or not placed,
a dependency that would close a cycle, or a buffer without a layout. Neither a malformed loop nor
an implicit conversion is one. -/
def KernelError.OfEdit : KernelError → Prop
  | .badHandle .. | .invalidBuffer .. | .dependencyCycle .. | .operands .. | .layoutMismatch ..
  | .layoutAlreadyAttached _ | .swizzleMismatch .. | .unresolved _ | .opFrozen _ | .notPlaced _ => True
  | _ => False

theorem KernelError.OfEdit.notLoop {e : KernelError} (h : e.OfEdit) : e.NotLoop := by
  rintro n r rfl
  exact h

namespace Kernel

variable {k : Kernel}

/-! The kernel operations fail with the failures of an edit only. -/

theorem tryBuffer_ofEdit (b : BufferId) : FailsOnly KernelError.OfEdit (k.tryBuffer b) := by
  unfold tryBuffer
  split <;> simp [KernelError.OfEdit]

theorem checkOp_ofEdit (x : OpId) : FailsOnly KernelError.OfEdit (k.checkOp x) := by
  unfold checkOp
  split <;> simp [KernelError.OfEdit]

theorem checkWindows_ofEdit (op : TileOp) : FailsOnly KernelError.OfEdit (k.checkWindows op) := by
  unfold checkWindows
  refine failsOnly_forM fun o _ => ?_
  simp only [failsOnly_bind, tryBuffer_ofEdit, true_and]
  intro b _
  split <;> simp [KernelError.OfEdit]

theorem checkOperands_ofEdit (op : TileOp) :
    FailsOnly KernelError.OfEdit (k.checkOperands op) := by
  unfold checkOperands
  simp only [failsOnly_bind, failsOnly_ite, failsOnly_throw, checkWindows_ofEdit]
  refine ⟨fun _ => ?_, fun _ => ⟨trivial, fun _ _ => ?_⟩⟩
  · simp [KernelError.OfEdit]
  · -- Every kind fails through `fail`; a product checks its operands' scopes last.
    split <;> simp [KernelError.OfEdit]
    intro _ _
    split <;> simp [KernelError.OfEdit]

theorem addBuffer_ofEdit (b : Buffer) : FailsOnly KernelError.OfEdit (k.addBuffer b) := by
  unfold addBuffer
  split_ifs <;> simp [KernelError.OfEdit]

theorem attachLayout_ofEdit (b : BufferId) (l : Layout) :
    FailsOnly KernelError.OfEdit (k.attachLayout b l) := by
  unfold attachLayout
  simp only [failsOnly_bind, tryBuffer_ofEdit, true_and]
  intro bf _
  split <;> simp [KernelError.OfEdit]
  intro _
  split <;> simp [KernelError.OfEdit]

theorem addOp_ofEdit (o : TileOp) : FailsOnly KernelError.OfEdit (k.addOp o) := by
  unfold addOp
  simp only [failsOnly_bind, checkOperands_ofEdit, true_and]
  exact fun _ _ => ⟨failsOnly_forM fun d _ => by simp [checkOp_ofEdit], fun _ _ => by simp⟩

theorem setSched_ofEdit (x : OpId) (info : SchedInfo) :
    FailsOnly KernelError.OfEdit (k.setSched x info) := by
  unfold setSched
  simp [checkOp_ofEdit, KernelError.OfEdit]

theorem addDependency_ofEdit (x on : OpId) :
    FailsOnly KernelError.OfEdit (k.addDependency x on) := by
  unfold addDependency
  simp [checkOp_ofEdit, KernelError.OfEdit]

theorem checkUnplaced_ofEdit (x : OpId) : FailsOnly KernelError.OfEdit (k.checkUnplaced x) := by
  unfold checkUnplaced
  simp [checkOp_ofEdit, KernelError.OfEdit]

theorem placed_ofEdit (x : OpId) : FailsOnly KernelError.OfEdit (k.placed x) := by
  unfold placed
  simp only [failsOnly_bind, checkOp_ofEdit, true_and]
  intro o _
  split <;> simp [KernelError.OfEdit]

theorem insertBefore_ofEdit (a : OpId) (o : TileOp) :
    FailsOnly KernelError.OfEdit (k.insertBefore a o) := by
  unfold insertBefore
  simp only [failsOnly_bind, placed_ofEdit, addOp_ofEdit, true_and]
  exact fun _ _ _ _ => failsOnly_pure _

theorem replaceOp_ofEdit (old : OpId) (o : TileOp) :
    FailsOnly KernelError.OfEdit (k.replaceOp old o) := by
  unfold replaceOp
  simp only [failsOnly_bind, placed_ofEdit, checkOperands_ofEdit, true_and]
  exact fun _ _ _ _ => failsOnly_pure _

/-! Only the loop operations fail with a malformed loop. -/

theorem tryBuffer_notLoop (b : BufferId) : FailsOnly KernelError.NotLoop (k.tryBuffer b) :=
  (tryBuffer_ofEdit b).mono fun _ h => h.notLoop

theorem checkOp_notLoop (x : OpId) : FailsOnly KernelError.NotLoop (k.checkOp x) :=
  (checkOp_ofEdit x).mono fun _ h => h.notLoop

theorem checkOperands_notLoop (op : TileOp) :
    FailsOnly KernelError.NotLoop (k.checkOperands op) :=
  (checkOperands_ofEdit op).mono fun _ h => h.notLoop

theorem addBuffer_notLoop (b : Buffer) : FailsOnly KernelError.NotLoop (k.addBuffer b) :=
  (addBuffer_ofEdit b).mono fun _ h => h.notLoop

theorem attachLayout_notLoop (b : BufferId) (l : Layout) :
    FailsOnly KernelError.NotLoop (k.attachLayout b l) :=
  (attachLayout_ofEdit b l).mono fun _ h => h.notLoop

theorem attachSwizzle_notLoop (b : BufferId) (s : Swizzle) :
    FailsOnlyT KernelError.NotLoop (k.attachSwizzle b s) := by
  unfold attachSwizzle
  simp only [failsOnlyT_bind, failsOnlyT_mk, tryBuffer_notLoop, true_and]
  intro bf _
  split <;> simp [KernelError.NotLoop]
  intro _
  split <;> simp [KernelError.NotLoop]

theorem addOp_notLoop (o : TileOp) : FailsOnly KernelError.NotLoop (k.addOp o) :=
  (addOp_ofEdit o).mono fun _ h => h.notLoop

theorem setSched_notLoop (x : OpId) (info : SchedInfo) :
    FailsOnly KernelError.NotLoop (k.setSched x info) :=
  (setSched_ofEdit x info).mono fun _ h => h.notLoop

theorem addDependency_notLoop (x on : OpId) :
    FailsOnly KernelError.NotLoop (k.addDependency x on) :=
  (addDependency_ofEdit x on).mono fun _ h => h.notLoop

theorem checkUnplaced_notLoop (x : OpId) : FailsOnly KernelError.NotLoop (k.checkUnplaced x) :=
  (checkUnplaced_ofEdit x).mono fun _ h => h.notLoop

/-- Installing an expansion fails with a malformed loop only when the loop is pipelined already or
the depth is zero. -/
theorem setExpansion_fails (l : LoopId) (p : Expansion) :
    FailsOnly KernelError.ExpansionRefused (k.setExpansion l p) := by
  have checks : FailsOnly KernelError.ExpansionRefused
      ((p.prologue ++ p.steady ++ p.epilogue).forM k.checkUnplaced) :=
    (failsOnly_forM fun x _ => checkUnplaced_notLoop x).mono KernelError.expansionRefused_of_notLoop
  unfold setExpansion
  simp only [failsOnly_bind, failsOnly_ite, failsOnly_throw, failsOnly_pure, throw_eq_ok, checks]
  simp [KernelError.ExpansionRefused]

end Kernel

/-! ### Guards -/

namespace KernelM

variable {ε α β : Type} {Q : Kernel → Prop} {E : ε → Prop}

/-- Every run of `x` from a kernel where `Q` holds that answers, with a value or a failure, ends
in a kernel where `Q` holds, and a failure it ends with satisfies `E`. -/
def Guards (Q : Kernel → Prop) (E : ε → Prop) (x : KernelM ε α) : Prop :=
  ∀ k r k', Q k → x.run k = .ok (r, k') → Q k' ∧ ∀ e, r = .error e → E e

/-- Every run of `x` from a kernel where `Q` holds that fails ends in a kernel where `Q` holds,
with a failure satisfying `E`. -/
def FailureGuards (Q : Kernel → Prop) (E : ε → Prop) (x : KernelM ε α) : Prop :=
  ∀ k e k', Q k → x.run k = .ok (.error e, k') → Q k' ∧ E e

theorem Guards.mono {E' : ε → Prop} {x : KernelM ε α} (h : Guards Q E x)
    (hE : ∀ e, E e → E' e) : Guards Q E' x :=
  fun k r k' hk hx => ⟨(h k r k' hk hx).1, fun e he => hE e ((h k r k' hk hx).2 e he)⟩

theorem guards_pure (a : α) : Guards Q E (pure a : KernelM ε α) := by
  intro k r k' hk h
  obtain ⟨rfl, rfl⟩ := Prod.mk.inj (Except.ok.inj h)
  exact ⟨hk, fun e he => by cases he⟩

theorem run_throw_bind {e : ε} {f : α → KernelM ε β} {k : Kernel} :
    (throw e >>= f).run k = .ok (.error e, k) := rfl

theorem guards_throw {e : ε} (he : E e) : Guards Q E (throw e : KernelM ε α) := by
  intro k r k' hk h
  obtain ⟨rfl, rfl⟩ := Prod.mk.inj (Except.ok.inj h)
  exact ⟨hk, fun e' he' => by cases he'; exact he⟩

/-- A bind is guarded when its first stage is, and its second stage is for every value `R` admits,
where `R` holds of every value the first stage answers. -/
theorem Guards.bind {x : KernelM ε α} {f : α → KernelM ε β} (R : α → Prop)
    (hx : Guards Q E x) (hR : ∀ k a k', Q k → x.run k = .ok (.ok a, k') → R a)
    (hf : ∀ a, R a → Guards Q E (f a)) : Guards Q E (x >>= f) := by
  intro k r k' hk h
  rw [run_bind] at h
  rcases hrun : x.run k with fault | ⟨_ | a, k₁⟩ <;> rw [hrun] at h
  · cases h
  · obtain ⟨rfl, rfl⟩ := Prod.mk.inj (Except.ok.inj h)
    obtain ⟨hq, he⟩ := hx k _ _ hk hrun
    exact ⟨hq, fun e' he' => by cases he'; exact he _ rfl⟩
  · exact hf a (hR k a k₁ hk hrun) k₁ r k' (hx k _ _ hk hrun).1 h

theorem Guards.bind' {x : KernelM ε α} {f : α → KernelM ε β} (hx : Guards Q E x)
    (hf : ∀ a, Guards Q E (f a)) : Guards Q E (x >>= f) :=
  hx.bind (fun _ => True) (fun _ _ _ _ _ => trivial) fun a _ => hf a

theorem FailureGuards.bind {x : KernelM ε α} {f : α → KernelM ε β} (R : α → Prop)
    (hx : Guards Q E x) (hR : ∀ k a k', Q k → x.run k = .ok (.ok a, k') → R a)
    (hf : ∀ a, R a → FailureGuards Q E (f a)) : FailureGuards Q E (x >>= f) := by
  intro k e k' hk h
  rcases run_bind_eq_error.1 h with h | ⟨a, k₁, hrun, h⟩
  · exact ⟨(hx k _ k' hk h).1, (hx k _ k' hk h).2 e rfl⟩
  · exact hf a (hR k a k₁ hk hrun) k₁ e k' (hx k _ _ hk hrun).1 h

theorem FailureGuards.bind' {x : KernelM ε α} {f : α → KernelM ε β} (hx : Guards Q E x)
    (hf : ∀ a, FailureGuards Q E (f a)) : FailureGuards Q E (x >>= f) :=
  FailureGuards.bind (fun _ => True) hx (fun _ _ _ _ _ => trivial) fun a _ => hf a

/-- A stage whose second part never fails fails only in its first. -/
theorem FailureGuards.bind_of_never {x : KernelM ε α} {f : α → KernelM ε β}
    (hx : FailureGuards Q E x) (hf : ∀ a k e k', (f a).run k ≠ .ok (.error e, k')) :
    FailureGuards Q E (x >>= f) := by
  intro k e k' hk h
  rcases run_bind_eq_error.1 h with h | ⟨a, k₁, -, h⟩
  · exact hx k e k' hk h
  · exact absurd h (hf a k₁ e k')

/-- A loop whose steps never fail never fails. -/
theorem forM_never {γ : Type} {f : γ → KernelM ε PUnit} {l : List γ}
    (hf : ∀ c ∈ l, ∀ k e k', (f c).run k ≠ .ok (.error e, k')) :
    ∀ k e k', (l.forM f).run k ≠ .ok (.error e, k') := fun k e k' h => by
  obtain ⟨c, hc, k₁, h⟩ := run_forM_error h
  exact hf c hc k₁ e k' h

theorem guards_get_bind {f : Kernel → KernelM ε β} (hf : ∀ k, Q k → Guards Q E (f k)) :
    Guards Q E (get >>= f) := fun k r k' hk h => hf k hk k r k' hk (by rwa [run_get_bind] at h)

theorem guards_liftM (x : Checked α) : Guards Q E (liftM x : KernelM ε α) := by
  intro k r k' hk h
  rw [run_liftM] at h
  rcases x with fault | a
  · cases h
  · obtain ⟨rfl, rfl⟩ := Prod.mk.inj (Except.ok.inj h)
    exact ⟨hk, fun e he => by cases he⟩

section Kernel

variable {E : KernelError → Prop}

theorem guards_edit {f : Kernel → Except KernelError (α × Kernel)}
    (ok : ∀ k a k', Q k → f k = .ok (a, k') → Q k') (err : ∀ k, Q k → FailsOnly E (f k)) :
    Guards Q E (edit f) := by
  intro k r k' hk h
  unfold edit at h
  rw [run_get_bind] at h
  rcases hf : f k with e | ⟨a, k₁⟩ <;> rw [hf] at h
  · obtain ⟨rfl, rfl⟩ := Prod.mk.inj (Except.ok.inj h)
    exact ⟨hk, fun e' he' => by cases he'; exact err k hk _ hf⟩
  · obtain ⟨rfl, rfl⟩ := Prod.mk.inj (Except.ok.inj h)
    exact ⟨ok k a _ hk hf, fun e he => by cases he⟩

theorem guards_update {f : Kernel → Except KernelError Kernel}
    (ok : ∀ k k', Q k → f k = .ok k' → Q k') (err : ∀ k, Q k → FailsOnly E (f k)) :
    Guards Q E (update f) := by
  intro k r k' hk h
  unfold update at h
  rw [run_get_bind] at h
  rcases hf : f k with e | k₁ <;> rw [hf] at h
  · obtain ⟨rfl, rfl⟩ := Prod.mk.inj (Except.ok.inj h)
    exact ⟨hk, fun e' he' => by cases he'; exact err k hk _ hf⟩
  · obtain ⟨rfl, rfl⟩ := Prod.mk.inj (Except.ok.inj h)
    exact ⟨ok k _ hk hf, fun e he => by cases he⟩

theorem guards_updateChecked {f : Kernel → ExceptT KernelError Checked Kernel}
    (ok : ∀ k k', Q k → (f k).run = .ok (.ok k') → Q k') (err : ∀ k, Q k → FailsOnlyT E (f k)) :
    Guards Q E (updateChecked f) := by
  intro k r k' hk h
  unfold updateChecked at h
  rw [run_get_bind] at h
  rcases hf : (f k).run with fault | e | k₁
  · rw [run_bind, run_liftM, hf] at h
    cases h
  · rw [run_bind, run_liftM, hf] at h
    obtain ⟨rfl, rfl⟩ := Prod.mk.inj (Except.ok.inj h)
    exact ⟨hk, fun e' he' => by cases he'; exact err k hk _ hf⟩
  · rw [run_bind, run_liftM, hf] at h
    obtain ⟨rfl, rfl⟩ := Prod.mk.inj (Except.ok.inj h)
    exact ⟨ok k _ hk hf, fun e he => by cases he⟩

/-- A failing kernel update leaves the kernel as it was. -/
theorem failureGuards_update {f : Kernel → Except KernelError Kernel}
    (err : ∀ k, Q k → FailsOnly E (f k)) : FailureGuards Q E (update f) := by
  intro k e k' hk h
  unfold update at h
  rw [run_get_bind] at h
  rcases hf : f k with e' | k₁ <;> rw [hf] at h
  · obtain ⟨he, rfl⟩ := Prod.mk.inj (Except.ok.inj h)
    cases he
    exact ⟨hk, err k hk _ hf⟩
  · cases h

/-- A kernel stage guarded with kernel failures `E` is guarded, as a lowering stage, with the
kernel failures `E`. -/
theorem Guards.lift {x : KernelM KernelError α} (h : Guards Q E x) :
    Guards Q (fun e => ∃ e', e = .kernel e' ∧ E e') (lift x) := by
  intro k r k' hk hx
  rw [run_lift] at hx
  rcases hrun : x.run k with fault | ⟨r₁, k₁⟩ <;> rw [hrun] at hx
  · cases hx
  · obtain ⟨rfl, rfl⟩ := Prod.mk.inj (Except.ok.inj hx)
    refine ⟨(h k r₁ k₁ hk hrun).1, fun e he => ?_⟩
    rcases r₁ with e₁ | a
    · cases he
      exact ⟨e₁, rfl, (h k _ k₁ hk hrun).2 e₁ rfl⟩
    · cases he

theorem FailureGuards.lift {x : KernelM KernelError α} (h : FailureGuards Q E x) :
    FailureGuards Q (fun e => ∃ e', e = .kernel e' ∧ E e') (lift x) := by
  intro k e k' hk hx
  rw [run_lift] at hx
  rcases hrun : x.run k with fault | ⟨r₁, k₁⟩ <;> rw [hrun] at hx
  · cases hx
  · obtain ⟨he, rfl⟩ := Prod.mk.inj (Except.ok.inj hx)
    rcases r₁ with e₁ | a
    · cases he
      exact ⟨(h k e₁ k₁ hk hrun).1, e₁, rfl, (h k e₁ k₁ hk hrun).2⟩
    · cases he

end Kernel

/-! Loops of guarded steps are guarded. -/

theorem guards_forM {γ : Type} {f : γ → KernelM ε PUnit} :
    ∀ {l : List γ}, (∀ c ∈ l, Guards Q E (f c)) → Guards Q E (l.forM f)
  | [], _ => guards_pure _
  | c :: l, h => by
    rw [List.forM]
    exact (h c List.mem_cons_self).bind' fun _ =>
      guards_forM fun c' hc' => h c' (List.mem_cons_of_mem _ hc')

theorem guards_mapM {γ : Type} {f : γ → KernelM ε β} :
    ∀ {l : List γ}, (∀ c ∈ l, Guards Q E (f c)) → Guards Q E (l.mapM f)
  | [], _ => by rw [List.mapM_nil]; exact guards_pure _
  | c :: l, h => by
    rw [List.mapM_cons]
    exact (h c List.mem_cons_self).bind' fun _ =>
      (guards_mapM fun c' hc' => h c' (List.mem_cons_of_mem _ hc')).bind' fun _ => guards_pure _

theorem guards_foldlM {γ : Type} {f : β → γ → KernelM ε β} :
    ∀ {l : List γ} {b : β}, (∀ b, ∀ c ∈ l, Guards Q E (f b c)) → Guards Q E (l.foldlM f b)
  | [], _, _ => guards_pure _
  | c :: l, b, h => by
    rw [List.foldlM_cons]
    exact (h b c List.mem_cons_self).bind' fun b' =>
      guards_foldlM fun b'' c' hc' => h b'' c' (List.mem_cons_of_mem _ hc')

end KernelM

/-! ### Kernels that only grow -/

/-- `k'` only adds to `k`: the same name, top-level body, loops and removed ops, and arenas of
buffers and ops that only grow, every buffer and op of `k` kept as it was. -/
structure Kernel.Extends (k k' : Kernel) : Prop where
  name : k'.name = k.name
  body : k'.body = k.body
  loops : k'.loops = k.loops
  removed : k'.removed = k.removed
  buffers : k.buffers.size ≤ k'.buffers.size
  buffer : ∀ b, b.idx < k.buffers.size → k'.buffer b = k.buffer b
  ops : k.ops.size ≤ k'.ops.size
  op : ∀ x, x.idx < k.ops.size → k'.op x = k.op x

namespace Kernel

variable {k₀ k k' : Kernel}

theorem Extends.refl (k : Kernel) : k.Extends k :=
  ⟨rfl, rfl, rfl, rfl, Nat.le_refl _, fun _ _ => rfl, Nat.le_refl _, fun _ _ => rfl⟩

theorem Extends.trans (h₁ : k₀.Extends k) (h₂ : k.Extends k') : k₀.Extends k' where
  name := h₂.name.trans h₁.name
  body := h₂.body.trans h₁.body
  loops := h₂.loops.trans h₁.loops
  removed := h₂.removed.trans h₁.removed
  buffers := Nat.le_trans h₁.buffers h₂.buffers
  buffer b hb := (h₂.buffer b (Nat.lt_of_lt_of_le hb h₁.buffers)).trans (h₁.buffer b hb)
  ops := Nat.le_trans h₁.ops h₂.ops
  op x hx := (h₂.op x (Nat.lt_of_lt_of_le hx h₁.ops)).trans (h₁.op x hx)

/-- Adding to a kernel keeps its live ops. -/
theorem Extends.liveOps (h : k.Extends k') : k'.liveOps = k.liveOps :=
  liveOps_congr h.body h.loops h.removed

theorem extends_pushBuffer (h : k₀.Extends k) (b : Buffer) :
    k₀.Extends { k with buffers := k.buffers.push b } :=
  h.trans ⟨rfl, rfl, rfl, rfl, by simp, fun x hx => by
    simp [Kernel.buffer, buffer?, Array.getElem?_push, Nat.ne_of_lt hx], Nat.le_refl _,
    fun _ _ => rfl⟩

theorem extends_pushOp (h : k₀.Extends k) (o : TileOp) :
    k₀.Extends { k with ops := k.ops.push o } :=
  h.trans ⟨rfl, rfl, rfl, rfl, Nat.le_refl _, fun _ _ => rfl, by simp, fun _ hx => op_push hx⟩

/-- Editing a buffer declared since `k₀` keeps `k₀`. -/
theorem extends_modifyBuffer (h : k₀.Extends k) {b : BufferId} (hb : k₀.buffers.size ≤ b.idx)
    (F : Buffer → Buffer) : k₀.Extends (k.modifyBuffer b F) := by
  refine ⟨h.name, h.body, h.loops, h.removed, by simpa [modifyBuffer] using h.buffers,
    fun x hx => ?_, h.ops, h.op⟩
  have hne : b.idx ≠ x.idx := by omega
  simp only [Kernel.buffer, buffer?, modifyBuffer, Array.getElem?_modify, hne, if_false]
  exact h.buffer x hx

/-- Editing an op declared since `k₀` keeps `k₀`. -/
theorem extends_modifyOp (h : k₀.Extends k) {x : OpId} (hx : k₀.ops.size ≤ x.idx)
    (F : TileOp → TileOp) : k₀.Extends (k.modifyOp x F) := by
  refine ⟨h.name, h.body, h.loops, h.removed, h.buffers, h.buffer,
    by simpa [modifyOp] using h.ops, fun y hy => ?_⟩
  have hne : x.idx ≠ y.idx := by omega
  simp only [Kernel.op, op?, modifyOp, Array.getElem?_modify, hne, if_false]
  exact h.op y hy

end Kernel

/-! ### Declarations keep what was there -/

namespace Kernel

open KernelM

variable {k₀ : Kernel}

theorem guards_addBuffer (b : Buffer) :
    Guards k₀.Extends KernelError.NotLoop (edit (·.addBuffer b)) :=
  guards_edit (fun k _ _ hk h => by
    unfold addBuffer at h
    split_ifs at h
    obtain ⟨-, rfl⟩ := Prod.mk.inj (Except.ok.inj h)
    exact extends_pushBuffer hk b) fun _ _ => addBuffer_notLoop b

/-- A declared buffer's handle is past the buffers of a kernel the declaration extends. -/
theorem addBuffer_fresh {k k' : Kernel} {b : Buffer} {x : BufferId} (hk : k₀.Extends k)
    (h : (edit (·.addBuffer b)).run k = .ok (.ok x, k')) : k₀.buffers.size ≤ x.idx := by
  have declared := run_edit.1 h
  unfold addBuffer at declared
  split_ifs at declared
  obtain ⟨rfl, -⟩ := Prod.mk.inj (Except.ok.inj declared)
  exact hk.buffers

theorem guards_attachLayout {b : BufferId} (hb : k₀.buffers.size ≤ b.idx) (l : Layout) :
    Guards k₀.Extends KernelError.NotLoop (update (·.attachLayout b l)) :=
  guards_update (fun _ _ hk h => by
    obtain ⟨-, rfl⟩ := attachLayout_ok h
    exact extends_modifyBuffer hk hb _) fun _ _ => attachLayout_notLoop b l

theorem guards_attachSwizzle {b : BufferId} (hb : k₀.buffers.size ≤ b.idx) (s : Swizzle) :
    Guards k₀.Extends KernelError.NotLoop (updateChecked (·.attachSwizzle b s)) :=
  guards_updateChecked (fun _ _ hk h => by
    rw [attachSwizzle_ok h]
    exact extends_modifyBuffer hk hb _) fun _ _ => attachSwizzle_notLoop b s

theorem guards_addOp (o : TileOp) : Guards k₀.Extends KernelError.NotLoop (edit (·.addOp o)) :=
  guards_edit (fun _ _ _ hk h => by
    obtain ⟨-, rfl⟩ := addOp_ok h
    exact extends_pushOp hk o) fun _ _ => addOp_notLoop o

/-- A declared op's handle is past the ops of a kernel the declaration extends. -/
theorem addOp_fresh {k k' : Kernel} {o : TileOp} {x : OpId} (hk : k₀.Extends k)
    (h : (edit (·.addOp o)).run k = .ok (.ok x, k')) : k₀.ops.size ≤ x.idx := by
  obtain ⟨rfl, -⟩ := addOp_ok (run_edit.1 h)
  exact hk.ops

theorem guards_setSched {x : OpId} (hx : k₀.ops.size ≤ x.idx) (info : SchedInfo) :
    Guards k₀.Extends KernelError.NotLoop (update (·.setSched x info)) :=
  guards_update (fun _ _ hk h => by
    obtain ⟨-, rfl⟩ := setSched_ok h
    exact extends_modifyOp hk hx _) fun _ _ => setSched_notLoop x info

theorem guards_addDependency {x : OpId} (hx : k₀.ops.size ≤ x.idx) (on : OpId) :
    Guards k₀.Extends KernelError.NotLoop (update (·.addDependency x on)) :=
  guards_update (fun _ _ hk h => by
    obtain ⟨-, -, rfl⟩ := addDependency_ok h
    exact extends_modifyOp hk hx _) fun _ _ => addDependency_notLoop x on

end Kernel

end TileKernel
