import TileKernel.Proofs.Operands

/-!
# Valid kernels

`Kernel.validate` accepts a kernel when every live op passes the operand checks, the live
dependencies close no cycle, every live dependency of a live op stands earlier among the live
ops, and every window of a loop body, taken once per iteration, stays inside its buffer.
`Kernel.Valid` states the first, third and fourth; the third gives the second
(`Kernel.Valid.acyclic`), and `Kernel.validate_eq_ok_iff` shows that `validate` accepts exactly
the valid kernels whose live ops are listed once.

The rewrites of lowering keep validity of kernels formed as the interface forms them.
`Kernel.Formed` states what they rely on: dependencies, placed ops and the ops of loop bodies
name ops of the arena, each op is placed once and each loop runs once, a removed op is an op of
the arena that is placed no more, and every op passes the operand checks. Unlike `Kernel.Arena`
it asks nothing of the dependencies between ops that are not live. A sound kernel
(`Kernel.Sound`) is formed and valid.
-/

set_option autoImplicit false

namespace TileKernel

/-! ### One member before another -/

section Pairs

variable {α : Type} {l l' : List α} {a b c : α}

theorem pair_sublist_append {A B : List α} (ha : a ∈ A) (hb : b ∈ B) : [a, b].Sublist (A ++ B) :=
  (List.singleton_sublist.2 ha).append (List.singleton_sublist.2 hb)

variable [DecidableEq α]

theorem pair_sublist_of_idxOf_lt (ha : a ∈ l) (hb : b ∈ l) (hlt : l.idxOf a < l.idxOf b) :
    [a, b].Sublist l := by
  have hbl : l.idxOf b < l.length := List.idxOf_lt_length_of_mem hb
  have before : a ∈ l.take (l.idxOf b) := List.mem_take_iff_getElem.2
    ⟨l.idxOf a, by omega, List.getElem_idxOf (List.idxOf_lt_length_of_mem ha)⟩
  have at_b : l.drop (l.idxOf b) = b :: l.drop (l.idxOf b + 1) := by
    rw [List.drop_eq_getElem_cons hbl, List.getElem_idxOf hbl]
  rw [← List.take_append_drop (l.idxOf b) l, at_b]
  exact (List.singleton_sublist.2 before).append (List.cons_sublist_cons.2 (List.nil_sublist _))

theorem idxOf_lt_of_pair_sublist (hl : l.Nodup) (h : [a, b].Sublist l) : l.idxOf a < l.idxOf b := by
  obtain ⟨r₁, r₂, rfl, ha, hb⟩ := List.cons_sublist_iff.1 h
  have hb₁ : b ∉ r₁ := fun hb₁ => List.disjoint_of_nodup_append hl hb₁ (List.singleton_sublist.1 hb)
  rw [List.idxOf_append, List.idxOf_append, if_pos ha, if_neg hb₁]
  have := List.idxOf_lt_length_of_mem ha
  omega

theorem pair_sublist_trans (hl : l.Nodup) (hab : [a, b].Sublist l) (hbc : [b, c].Sublist l) :
    [a, c].Sublist l :=
  pair_sublist_of_idxOf_lt (hab.subset List.mem_cons_self) (hbc.subset (by simp))
    (Nat.lt_trans (idxOf_lt_of_pair_sublist hl hab) (idxOf_lt_of_pair_sublist hl hbc))

theorem not_pair_sublist_self (hl : l.Nodup) : ¬ [a, a].Sublist l := fun h =>
  Nat.lt_irrefl _ (idxOf_lt_of_pair_sublist hl h)

/-- In a list without repeats split at `a`, what stands before `a` is in the first part. -/
theorem mem_left_of_pair_sublist {P Q : List α} (hl : (P ++ a :: Q).Nodup)
    (h : [b, a].Sublist (P ++ a :: Q)) : b ∈ P := by
  have hlt := idxOf_lt_of_pair_sublist hl h
  have haP : a ∉ P := fun ha => (List.nodup_cons.1 (List.nodup_middle.1 hl)).1 (List.mem_append_left _ ha)
  rw [List.idxOf_append, List.idxOf_append, if_neg haP, List.idxOf_cons_self] at hlt
  by_contra hbP
  rw [if_neg hbP] at hlt
  omega

/-- Two members of a sublist stand in it in the order they have in a list without repeats. -/
theorem pair_sublist_of_sublist (hsub : l'.Sublist l) (hl : l.Nodup) (ha : a ∈ l') (hb : b ∈ l')
    (hab : [a, b].Sublist l) : [a, b].Sublist l' := by
  rcases Nat.lt_trichotomy (l'.idxOf a) (l'.idxOf b) with hlt | heq | hgt
  · exact pair_sublist_of_idxOf_lt ha hb hlt
  · -- One index names one member.
    have same : a = b := by
      rw [← List.getElem_idxOf (List.idxOf_lt_length_of_mem ha),
        ← List.getElem_idxOf (List.idxOf_lt_length_of_mem hb)]
      simp only [heq]
    subst same
    exact absurd hab (not_pair_sublist_self hl)
  · have hba := (pair_sublist_of_idxOf_lt hb ha hgt).trans hsub
    exact absurd (pair_sublist_trans hl hab hba) (not_pair_sublist_self hl)

end Pairs

/-! ### Dependencies that point back -/

/-- Every dependency `W y z` between two members of `L` points to a member before `y`. -/
def DepsEarlier (W : OpId → OpId → Prop) (L : List OpId) : Prop :=
  ∀ y z, W y z → y ∈ L → z ∈ L → [z, y].Sublist L

section DepsEarlier

variable {W W' : OpId → OpId → Prop} {L L' : List OpId}

/-- Members may be added where each new dependency points back. -/
theorem DepsEarlier.of_sublist (h : DepsEarlier W L) (hsub : L.Sublist L')
    (hW : ∀ y z, W' y z → y ∈ L' → z ∈ L' → (y ∈ L ∧ z ∈ L ∧ W y z) ∨ [z, y].Sublist L') :
    DepsEarlier W' L' := by
  intro y z hyz hy hz
  rcases hW y z hyz hy hz with ⟨hy₀, hz₀, hyz₀⟩ | hback
  · exact (h y z hyz₀ hy₀ hz₀).trans hsub
  · exact hback

/-- Members may be renamed where each dependency is the renaming of one. -/
theorem DepsEarlier.map (h : DepsEarlier W L) (f : OpId → OpId)
    (hW : ∀ y z, W' y z → y ∈ L.map f → z ∈ L.map f →
      ∃ y₀ z₀, y₀ ∈ L ∧ z₀ ∈ L ∧ W y₀ z₀ ∧ f y₀ = y ∧ f z₀ = z) :
    DepsEarlier W' (L.map f) := by
  intro y z hyz hy hz
  obtain ⟨y₀, z₀, hy₀, hz₀, hyz₀, rfl, rfl⟩ := hW y z hyz hy hz
  exact (h y₀ z₀ hyz₀ hy₀ hz₀).map f

/-- Members may be dropped where each remaining dependency pointed back before. -/
theorem DepsEarlier.restrict (hnd : L.Nodup) (hsub : L'.Sublist L)
    (hW : ∀ y z, W' y z → y ∈ L' → z ∈ L' → [z, y].Sublist L) : DepsEarlier W' L' :=
  fun y z hyz hy hz => pair_sublist_of_sublist hsub hnd hz hy (hW y z hyz hy hz)

end DepsEarlier

/-! ### Checks in `Except` -/

/-- A loop of checks in `Except` succeeds exactly when every check does. -/
theorem forM_except_eq_ok_iff {α ε : Type} {f : α → Except ε PUnit} {u : PUnit} :
    ∀ {l : List α}, l.forM f = .ok u ↔ ∀ a ∈ l, f a = .ok ()
  | [] => by simp [List.forM, pure, Except.pure]
  | x :: l => by
    rw [List.forM, List.forall_mem_cons, ← forM_except_eq_ok_iff (l := l) (u := u)]
    rcases f x with e | ⟨⟩ <;> simp [bind, Except.bind]

theorem except_bind_eq_ok {ε α β : Type} {x : Except ε α} {f : α → Except ε β} {b : β} :
    x >>= f = .ok b ↔ ∃ a, x = .ok a ∧ f a = .ok b := by
  rcases x with e | a <;> simp [bind, Except.bind]

/-- Every windowed operand of `op` is an operand of `a`. -/
def TileOp.WindowsOf (op a : TileOp) : Prop :=
  ∀ o ∈ op.operands, o.step.isSome → o ∈ a.operands

/-- Ops alike to the operand checks have the same windows. -/
theorem TileOp.windowsOf_of_detached {op a : TileOp} (h : op.detached = a.detached) :
    op.WindowsOf a := fun o ho _ => by
  have same : op.detached.operands = a.detached.operands := by rw [h]
  exact same ▸ ho

namespace Kernel

variable {k k' : Kernel}

theorem positionIn_of_mem {l : List OpId} {x : OpId} (h : x ∈ l) :
    positionIn l x = some (l.idxOf x) := by
  rw [positionIn, List.idxOf_eq_getD_idxOf?]
  obtain ⟨i, hi⟩ := Option.isSome_iff_exists.1 (List.isSome_idxOf?.2 h)
  rw [hi, Option.getD_some]

theorem positionIn_of_not_mem {l : List OpId} {x : OpId} (h : x ∉ l) : positionIn l x = none :=
  List.idxOf?_eq_none_iff.2 h

/-! ### What `validate` accepts -/

/-- Every window of `op`, taken `n` times side by side, stays inside its buffer. -/
def WindowsFit (k : Kernel) (n : Nat) (op : TileOp) : Prop :=
  ∀ o ∈ op.operands, ∀ s, o.step = some s → s.extent * n ≤ (k.buffer o.buffer).shape[s.axis]?.getD 0

/-- A valid kernel: what `validate` checks, the absence of cycles apart. -/
structure Valid (k : Kernel) : Prop where
  /-- Every live op passes the operand checks. -/
  operandsFit : ∀ h ∈ k.liveOps, k.checkOperands (k.op h) = .ok ()
  /-- Every live dependency of a live op stands before it. -/
  depsEarlier : DepsEarlier k.Waits k.liveOps
  /-- The windows of every loop body, once per iteration, stay inside their buffers. -/
  windowsFit : ∀ l, l.idx < k.loops.size → ∀ h ∈ (k.loop l).body,
    k.WindowsFit (k.loop l).extent (k.op h)

/-- Along live dependencies pointing back, positions fall, so no chain of live dependencies
returns to its start. -/
theorem Valid.acyclic (hv : k.Valid) (hnd : k.liveOps.Nodup) :
    ∀ a, ¬ Relation.TransGen k.WaitsLive a a := by
  have step : ∀ {a b}, k.WaitsLive a b → a ∈ k.liveOps →
      b ∈ k.liveOps ∧ k.liveOps.idxOf b < k.liveOps.idxOf a := fun hab ha =>
    ⟨hab.1, idxOf_lt_of_pair_sublist hnd (hv.depsEarlier _ _ hab.2 ha hab.1)⟩
  have falls : ∀ {a b}, Relation.TransGen k.WaitsLive a b → a ∈ k.liveOps →
      b ∈ k.liveOps ∧ k.liveOps.idxOf b < k.liveOps.idxOf a := by
    intro a b hab ha
    induction hab with
    | single h => exact step h ha
    | tail _ hbc ih =>
      obtain ⟨hb, hlt⟩ := ih
      obtain ⟨hc, hlt'⟩ := step hbc hb
      exact ⟨hc, Nat.lt_trans hlt' hlt⟩
  intro a hcyc
  obtain ⟨b, -, hba⟩ := Relation.TransGen.tail'_iff.1 hcyc
  exact Nat.lt_irrefl _ (falls hcyc hba.1).2

/-- **`validate` accepts exactly the valid kernels**, when the live ops are listed once. -/
theorem validate_eq_ok_iff (hnd : k.liveOps.Nodup) : k.validate = .ok () ↔ k.Valid := by
  unfold validate
  simp only [except_bind_eq_ok, forM_except_eq_ok_iff, mem_loopIds]
  constructor
  · rintro ⟨-, hops, -, -, -, horder, hwin⟩
    refine ⟨hops, fun h d hw hh hd => ?_, fun l hl h hb o ho s hs => ?_⟩
    · have check := horder h hh d hw
      rw [positionIn_of_mem hd, positionIn_of_mem hh] at check
      dsimp only at check
      split_ifs at check with hlt
      exact pair_sublist_of_idxOf_lt hd hh hlt
    · have check := hwin l hl h hb o ho
      rw [hs] at check
      dsimp only at check
      split_ifs at check with hover
      exact Nat.le_of_not_lt hover
  · intro hv
    obtain ⟨order, horder⟩ := topologicalOrder_ok (hv.acyclic hnd)
    refine ⟨(), hv.operandsFit, order, horder, (), fun h hh d hw => ?_, fun l hl h hb o ho => ?_⟩
    · by_cases hd : d ∈ k.liveOps
      · rw [positionIn_of_mem hd, positionIn_of_mem hh]
        dsimp only
        rw [if_pos (idxOf_lt_of_pair_sublist hnd (hv.depsEarlier h d hw hh hd))]
        rfl
      · rw [positionIn_of_not_mem hd]
        rfl
    · rcases hs : o.step with _ | s
      · rfl
      · dsimp only
        rw [if_neg (Nat.not_lt_of_le (hv.windowsFit l hl h hb o ho s hs))]
        rfl

/-! ### Formed kernels -/

/-- What the rewrites of lowering rely on, and keep. -/
structure Formed (k : Kernel) : Prop where
  /-- Every dependency names an op of the arena. -/
  depsExist : k.DepsExist
  /-- Every op the body places is in the arena. -/
  placedExist : ∀ x ∈ k.bodyOps, x.idx < k.ops.size
  /-- No op is placed twice. -/
  placedOnce : k.bodyOps.Nodup
  /-- The body runs each loop of the arena once, in creation order. -/
  loopsOnce : k.body.filterMap Stmt.loop? = k.loopIds
  /-- The ops of every loop body are in the arena. -/
  bodiesExist : ∀ l, ∀ x ∈ (k.loop l).body, x.idx < k.ops.size
  /-- Removed handles name ops of the arena. -/
  removedExist : k.RemovedExist
  /-- A removed op is placed no more. -/
  removedUnplaced : ∀ x ∈ k.removed, x ∉ k.bodyOps
  /-- Every op passes the operand checks. -/
  operandsChecked : ∀ x, x.idx < k.ops.size → k.checkOperands (k.op x) = .ok ()

namespace Formed

/-- In a formed kernel the live ops are the placed ones. -/
theorem liveOps_eq (hF : k.Formed) : k.liveOps = k.bodyOps :=
  List.filter_eq_self.2 fun x hx => by
    simpa [isRemoved] using fun hr => hF.removedUnplaced x hr hx

theorem loops_nodup (hF : k.Formed) : (k.body.filterMap Stmt.loop?).Nodup :=
  hF.loopsOnce ▸ nodup_loopIds

/-- An edit keeps a kernel formed when the buffers and ops look alike to the operand checks,
every op it adds passes them, dependencies and places name ops of the arena, each op is placed
once and each loop runs once, it places no removed op, and it removes only ops it no longer
places. -/
theorem of_edit (hF : k.Formed) (hbuf : k.BuffersAlike k') (hops : k.OpsAlike k')
    (hnew : ∀ x : OpId, k.ops.size ≤ x.idx → x.idx < k'.ops.size →
      k'.checkOperands (k'.op x) = .ok ())
    (hdeps : k'.DepsExist) (hnd : k'.bodyOps.Nodup)
    (hloops : k'.body.filterMap Stmt.loop? = k'.loopIds)
    (hplaced : ∀ x ∈ k'.bodyOps, x.idx < k'.ops.size ∧ x ∉ k.removed)
    (hbodies : ∀ l, ∀ x ∈ (k'.loop l).body, x.idx < k'.ops.size)
    (hrem : ∀ x ∈ k'.removed, x ∈ k.removed ∨ x ∈ k.bodyOps ∧ x ∉ k'.bodyOps) : k'.Formed where
  depsExist := hdeps
  placedExist x hx := (hplaced x hx).1
  placedOnce := hnd
  loopsOnce := hloops
  bodiesExist := hbodies
  removedExist x hx := (hrem x hx).elim (fun h => Nat.lt_of_lt_of_le (hF.removedExist x h) hops.size)
    fun h => Nat.lt_of_lt_of_le (hF.placedExist x h.1) hops.size
  removedUnplaced x hx hx' := by
    rcases hrem x hx with hr | ⟨-, hout⟩
    · exact (hplaced x hx').2 hr
    · exact hout hx'
  operandsChecked x hx := by
    by_cases hlt : x.idx < k.ops.size
    · rw [← checkOperands_detached, hops.detached x hlt, checkOperands_detached]
      exact checkOperands_of_alike hbuf (hF.operandsChecked x hlt)
    · exact hnew x (Nat.le_of_not_lt hlt) hx

end Formed

/-- A formed and valid kernel. -/
structure Sound (k : Kernel) : Prop extends Formed k, Valid k

/-- A formed kernel is sound when its placed ops depend on earlier ones and its loop windows
fit. -/
theorem Formed.sound (hF : k.Formed) (hd : DepsEarlier k.Waits k.bodyOps)
    (hw : ∀ l, l.idx < k.loops.size → ∀ h ∈ (k.loop l).body,
      k.WindowsFit (k.loop l).extent (k.op h)) : k.Sound where
  toFormed := hF
  operandsFit h hh := hF.operandsChecked h (hF.placedExist h (hF.liveOps_eq ▸ hh))
  depsEarlier := hF.liveOps_eq ▸ hd
  windowsFit := hw

/-! ### Windows under edits -/

theorem WindowsFit.of_windowsOf {n : Nat} {op a : TileOp} (h : k.WindowsFit n a)
    (hw : op.WindowsOf a) : k.WindowsFit n op :=
  fun o ho s hs => h o (hw o ho (by simp [hs])) s hs

/-- Windows that fit keep fitting where the buffers look alike. -/
theorem WindowsFit.of_alike (hbuf : k.BuffersAlike k') {n : Nat} {op : TileOp}
    (hc : k.checkOperands op = .ok ()) (h : k.WindowsFit n op) : k'.WindowsFit n op := by
  intro o ho s hs
  obtain ⟨x, hx⟩ := buffer?_of_checkOperands hc o ho
  obtain ⟨y, hy, -, hshape, -⟩ := hbuf _ x hx
  have same : (k'.buffer o.buffer).shape = (k.buffer o.buffer).shape := by
    simp only [buffer, hx, hy, Option.getD_some, hshape]
  rw [same]
  exact h o ho s hs

/-- The loop windows of a sound kernel keep fitting after an edit that keeps the loops and the
buffers, where every op of a loop body has its windows among those of an op the body had. -/
theorem Sound.windowsFit_of_bodies (hs : k.Sound) (hbuf : k.BuffersAlike k')
    (hsize : k'.loops.size = k.loops.size) (hext : ∀ l, (k'.loop l).extent = (k.loop l).extent)
    (hbody : ∀ l, ∀ x ∈ (k'.loop l).body, ∃ a ∈ (k.loop l).body, (k'.op x).WindowsOf (k.op a)) :
    ∀ l, l.idx < k'.loops.size → ∀ x ∈ (k'.loop l).body,
      k'.WindowsFit (k'.loop l).extent (k'.op x) := by
  intro l hl x hx
  obtain ⟨a, ha, hwin⟩ := hbody l x hx
  have fit := (hs.windowsFit l (hsize ▸ hl) a ha).of_alike hbuf
    (hs.operandsChecked a (hs.bodiesExist l a ha))
  rw [hext]
  exact fit.of_windowsOf hwin

end Kernel
end TileKernel
