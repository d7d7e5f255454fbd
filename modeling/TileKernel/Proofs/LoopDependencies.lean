import TileKernel.Proofs.AssignmentFailure
import TileKernel.Analysis.Dependence
import TileKernel.Analysis.Trace

/-!
# Loop dependencies against the trace

`loopDependencies` reports which ops of a loop's body touch a common buffer: within one iteration
from an earlier op to a later one, and across iterations (`carried`) between any two ops, except
that an operand with a window never carries. The trace of the loop says what the body does: in
iteration `m` an op reads and writes the regions its operands resolve to, a window starting at `m`
times its extent along its axis (`resolveAccess`).

* `Access.Overlaps`: two accesses touch a common element of the buffer they address.
* `effect_of_mem_trace`: every effect of the trace of a loop that is not pipelined, and whose body
  ops carry no schedule, is an execution of a body op, its accesses resolved from the op's
  operands at the effect's iteration.
* `not_overlaps_of_same_window`: two accesses through one window of a buffer in different
  iterations touch no common element. This is what leaving windows out of carried pairs relies
  on, and it holds only when both sides step through the buffer alike.
* `loopDependencies_sound`: for every write and read, read and write, or two writes of one buffer
  that overlap between an execution and a later one, the analysis reports the dependency with the
  matching kind and `carried` exactly when the iterations differ, unless the two executions are in
  different iterations and reach the buffer through operands of different windows.
* `windowedBump_misses_carried_flow`: a loop whose body writes a window of a buffer that it also
  reads whole; the write in iteration 0 overlaps the read in iteration 1, and no dependency
  reports it.
-/

set_option autoImplicit false

namespace TileKernel

/-! ### Regions and conflicts -/

/-- An index lies in the region of an access: one coordinate per axis, each from the origin on
and before the origin plus the tile's extent. -/
def Access.Contains (a : Access) (idx : List Nat) : Prop :=
  idx.length = a.origin.length ∧
    ∀ d < idx.length, a.origin.getD d 0 ≤ idx.getD d 0 ∧ idx.getD d 0 < a.origin.getD d 0 + a.tile.getD d 0

instance (a : Access) (idx : List Nat) : Decidable (a.Contains idx) :=
  inferInstanceAs (Decidable (_ ∧ _))

/-- Two accesses touch a common element of the buffer they address. -/
def Access.Overlaps (a b : Access) : Prop :=
  a.physical = b.physical ∧ ∃ idx, a.Contains idx ∧ b.Contains idx

/-- An execution and a later one conflict through an access of each: a write then a read, a read
then a write, or two writes. -/
inductive AccessConflict : DependencyKind → Effect → Effect → Access → Access → Prop
  | flow {e₁ e₂ : Effect} {a b : Access} : a ∈ e₁.writes → b ∈ e₂.reads → AccessConflict .dataFlow e₁ e₂ a b
  | anti {e₁ e₂ : Effect} {a b : Access} : a ∈ e₁.reads → b ∈ e₂.writes → AccessConflict .anti e₁ e₂ a b
  | output {e₁ e₂ : Effect} {a b : Access} :
      a ∈ e₁.writes → b ∈ e₂.writes → AccessConflict .output e₁ e₂ a b

/-- The sides of two ops that each kind of dependency compares: writes of the earlier op against
reads of the later, reads against writes, and writes against writes. -/
def dependencySides (src dst : List (BufferId × Bool) × List (BufferId × Bool)) :
    List (List (BufferId × Bool) × List (BufferId × Bool) × DependencyKind) :=
  [(src.2, dst.1, .dataFlow), (src.1, dst.2, .anti), (src.2, dst.2, .output)]

/-- Accesses `a` and `b` reach their buffer through operands of different windows: `o₁` of op
`h₁` in iteration `m`, and `o₂` of op `h₂` in iteration `n`. -/
def UnlikeWindows (k : Kernel) (h₁ h₂ : OpId) (m n : Nat) (a b : Access) : Prop :=
  ∃ o₁ ∈ (k.op h₁).operands, ∃ o₂ ∈ (k.op h₂).operands, o₁.step ≠ o₂.step ∧
    resolveAccess k o₁ m none = .ok a ∧ resolveAccess k o₂ n none = .ok b

/-! ### Origins and tiles of operands -/

namespace Operand

variable {o : Operand} {rank m : Nat} {origin : List Nat}

/-- A whole operand starts at zero. -/
theorem origin_of_whole (hs : o.step = none) (h : o.origin rank m = .ok origin) :
    origin = List.replicate rank 0 := by
  unfold Operand.origin at h
  rw [hs] at h
  exact (Except.ok.inj h).symm

/-- A window on an axis of the rank starts at the iteration times its extent along that axis, and
at zero on the others. -/
theorem origin_of_window {s : Step} (hs : o.step = some s) (hax : s.axis < rank)
    (h : o.origin rank m = .ok origin) :
    origin = (List.replicate rank 0).set s.axis (m * s.extent) := by
  unfold Operand.origin at h
  rw [hs] at h
  by_cases hfit : m * s.extent < Word.u32.bound
  · simp only [if_pos hax, Word.mul, Word.fit, if_pos hfit, bind, Except.bind, pure, Except.pure] at h
    exact (Except.ok.inj h).symm
  · simp [hax, Word.mul, Word.fit, hfit, bind, Except.bind] at h

/-- The origin has one coordinate per axis. -/
theorem origin_length (h : o.origin rank m = .ok origin) : origin.length = rank := by
  rcases hs : o.step with _ | s
  · rw [origin_of_whole hs h, List.length_replicate]
  · by_cases hax : s.axis < rank
    · rw [origin_of_window hs hax h, List.length_set, List.length_replicate]
    · unfold Operand.origin at h
      rw [hs] at h
      simp only [if_neg hax] at h
      obtain rfl := Except.ok.inj h
      exact List.length_replicate

/-- The start of a window along its axis. -/
theorem origin_getD_axis {s : Step} (hs : o.step = some s) (hax : s.axis < rank)
    (h : o.origin rank m = .ok origin) : origin.getD s.axis 0 = m * s.extent := by
  rw [origin_of_window hs hax h]
  simp [hax]

/-- The extent of a window's tile along its axis. -/
theorem tileShape_getD_axis {s : Step} {shape : Shape} (hs : o.step = some s)
    (hax : s.axis < shape.length) : (o.tileShape shape).getD s.axis 0 = s.extent := by
  simp [tileShape, hs, hax]

end Operand

/-- What an op reads are among its operands. -/
theorem TileOp.mem_operands_of_mem_reads {op : TileOp} {o : Operand} (h : o ∈ op.reads) :
    o ∈ op.operands := by
  unfold TileOp.reads at h
  split at h
  · exact h
  · exact List.mem_append_left _ h

/-- Every window of an op that passes the window checks lies on an axis of its buffer. -/
theorem Kernel.windowAxis_lt {k : Kernel} {op : TileOp} (hw : k.checkWindows op = .ok ())
    {o : Operand} (ho : o ∈ op.operands) {s : Step} (hs : o.step = some s) :
    s.axis < (k.buffer o.buffer).shape.length := by
  have hc := forM_except_eq_ok_iff.1 hw o ho
  rcases hbf : k.tryBuffer o.buffer with e | bf
  · rw [hbf] at hc
    cases hc
  rw [hbf] at hc
  obtain ⟨-, hbuf⟩ := tryBuffer_ok hbf
  simp only [bind, Except.bind, hs] at hc
  rw [hbuf]
  rcases hn : bf.shape[s.axis]? with _ | n
  · simp [hn] at hc
  · exact (List.getElem?_eq_some_iff.1 hn).1

/-! ### What a trace of a loop that is not pipelined holds -/

section Trace

variable {k : Kernel}

/-- A loop that is not pipelined runs its body once per iteration. -/
theorem traceLoop_unpipelined {l : LoopId} (hl : (k.loop l).expansion = none) :
    traceLoop k l = traceRepeat k (k.loop l).body (k.loop l).extent none := by
  unfold traceLoop
  simp only [hl]

/-- Without an expansion an operand addresses its own buffer, over its tile from its origin. -/
theorem resolveAccess_none {o : Operand} {m : Nat} {a : Access}
    (h : resolveAccess k o m none = .ok a) :
    a.physical = o.buffer ∧ a.tile = o.tileShape (k.buffer o.buffer).shape ∧
      o.origin (k.buffer o.buffer).shape.length m = .ok a.origin := by
  unfold resolveAccess at h
  obtain ⟨origin, horigin, h⟩ := except_bind_eq_ok.1 h
  obtain rfl := Except.ok.inj h
  exact ⟨rfl, rfl, horigin⟩

/-- An access resolved from a list of operands comes from one of them. -/
theorem operand_of_access {xs : List Operand} {m : Nat} {as : List Access}
    (h : xs.mapM (fun o => resolveAccess k o m none) = .ok as) {a : Access} (ha : a ∈ as) :
    ∃ o ∈ xs, resolveAccess k o m none = .ok a :=
  forall₂_exists_of_mem_right (mapM_eq_ok h) ha

/-- Each effect of a fold over passes comes from the accumulator or from one pass of the fold. -/
theorem mem_foldRange_passes {f : Nat → Checked (List Effect)} :
    ∀ (c i : Nat) (acc r : List Effect),
      foldRangeM.go (fun acc i => do return (← f i).reverse ++ acc) c i acc = .ok r →
      ∀ e ∈ r, e ∈ acc ∨ ∃ m, i ≤ m ∧ m < i + c ∧ ∃ es, f m = .ok es ∧ e ∈ es
  | 0, _, acc, r, h, e, he => by
    obtain rfl : acc = r := Except.ok.inj h
    exact .inl he
  | c + 1, i, acc, r, h, e, he => by
    rw [foldRangeM.go] at h
    obtain ⟨acc', hpass, h⟩ := except_bind_eq_ok.1 h
    obtain ⟨es, hes, hacc'⟩ := except_bind_eq_ok.1 hpass
    obtain rfl := Except.ok.inj hacc'
    rcases mem_foldRange_passes c (i + 1) _ r h e he with hin | ⟨m, hm₁, hm₂, hm⟩
    · rcases List.mem_append.1 hin with hnew | hold
      · exact .inr ⟨i, Nat.le_refl i, by omega, es, hes, List.mem_reverse.1 hnew⟩
      · exact .inl hold
    · exact .inr ⟨m, by omega, by omega, hm⟩

/-- Each effect of repeated passes comes from one pass, at a counter below the count. -/
theorem mem_traceRepeat {ops : List OpId} {count : Nat} {p : Option Expansion} {T : List Effect}
    (h : traceRepeat k ops count p = .ok T) {e : Effect} (he : e ∈ T) :
    ∃ m < count, ∃ es, traceBody k ops m p = .ok es ∧ e ∈ es := by
  unfold traceRepeat at h
  split at h
  · obtain rfl : [] = T := Except.ok.inj h
    cases he
  obtain ⟨reversed, hfold, h⟩ := except_bind_eq_ok.1 h
  obtain rfl : reversed.reverse = T := Except.ok.inj h
  rcases mem_foldRange_passes count 0 [] reversed hfold e (List.mem_reverse.1 he) with
    hnil | ⟨m, -, hm, hes⟩
  · cases hnil
  · exact ⟨m, by omega, hes⟩

/-- An effect of a pass over ops without schedules is an execution of one of them at the pass's
counter: its reads and writes are the op's operands resolved there. -/
theorem mem_traceBody {ops : List OpId} {i : Nat} {p : Option Expansion} {es : List Effect}
    (hs : ∀ x ∈ ops, (k.op x).sched = none) (h : traceBody k ops i p = .ok es) {e : Effect}
    (he : e ∈ es) :
    e.op ∈ ops ∧ e.iteration = i ∧
      (k.op e.op).reads.mapM (fun o => resolveAccess k o i p) = .ok e.reads ∧
      (k.op e.op).outputs.mapM (fun o => resolveAccess k o i p) = .ok e.writes := by
  obtain ⟨x, hx, hfx⟩ := filterMapM_mem h e he
  simp only [hs x hx, pure, Except.pure, bind, Except.bind] at hfx
  split at hfx
  · cases hfx
  rename_i reads hreads
  split at hfx
  · cases hfx
  rename_i writes hwrites
  split at hfx
  · cases hfx
  obtain rfl := Option.some.inj (Except.ok.inj hfx)
  exact ⟨hx, rfl, hreads, hwrites⟩

/-- **The trace of a loop that is not pipelined.** Every effect is an execution of an op of the
body in an iteration below the trip count, its reads and writes resolved from the op's operands
at that iteration. -/
theorem effect_of_mem_trace {l : LoopId} {T : List Effect} (hl : (k.loop l).expansion = none)
    (hs : ∀ x ∈ (k.loop l).body, (k.op x).sched = none) (hT : traceLoop k l = .ok T) {e : Effect}
    (he : e ∈ T) :
    e.op ∈ (k.loop l).body ∧ e.iteration < (k.loop l).extent ∧
      (k.op e.op).reads.mapM (fun o => resolveAccess k o e.iteration none) = .ok e.reads ∧
      (k.op e.op).outputs.mapM (fun o => resolveAccess k o e.iteration none) = .ok e.writes := by
  rw [traceLoop_unpipelined hl] at hT
  obtain ⟨m, hm, es, hes, hin⟩ := mem_traceRepeat hT he
  obtain ⟨hop, rfl, hreads, hwrites⟩ := mem_traceBody hs hes hin
  exact ⟨hop, hm, hreads, hwrites⟩

/-- **Windows that step alike never meet.** Two accesses through one window of a buffer, in
different iterations, touch no common element: along the window's axis they cover
`[m * e, m * e + e)` and `[n * e, n * e + e)`. -/
theorem not_overlaps_of_same_window {o₁ o₂ : Operand} {s : Step} {m n : Nat} {a b : Access}
    (h₁ : o₁.step = some s) (h₂ : o₂.step = some s) (hbuf : o₁.buffer = o₂.buffer)
    (hax : s.axis < (k.buffer o₁.buffer).shape.length) (hmn : m < n)
    (ha : resolveAccess k o₁ m none = .ok a) (hb : resolveAccess k o₂ n none = .ok b) :
    ¬ ∃ idx, a.Contains idx ∧ b.Contains idx := by
  rintro ⟨idx, ⟨hlen, hin₁⟩, -, hin₂⟩
  obtain ⟨-, htile₁, horigin₁⟩ := resolveAccess_none ha
  obtain ⟨-, htile₂, horigin₂⟩ := resolveAccess_none hb
  rw [← hbuf] at htile₂ horigin₂
  have haxis : s.axis < idx.length := by
    rw [hlen, Operand.origin_length horigin₁]
    exact hax
  obtain ⟨lo₁, hi₁⟩ := hin₁ s.axis haxis
  obtain ⟨lo₂, -⟩ := hin₂ s.axis haxis
  rw [Operand.origin_getD_axis h₁ hax horigin₁] at lo₁ hi₁
  rw [htile₁, Operand.tileShape_getD_axis h₁ hax] at hi₁
  rw [Operand.origin_getD_axis h₂ hax horigin₂] at lo₂
  -- The later window starts where the earlier one ends, or further on.
  have hstep : m * s.extent + s.extent ≤ n * s.extent := by
    rw [← Nat.succ_mul]
    exact Nat.mul_le_mul_right _ hmn
  omega

end Trace

/-! ### What the analysis reports -/

section Reports

variable {k : Kernel} {l : LoopId}

/-- A pair of ops is reported for a buffer when the kind's first side of the earlier op and its
second side of the later op both name the buffer, and a carried pair is windowed on neither
side. -/
theorem mem_loopDependencies {i j : Nat} (carried : Bool) (hi : i < (k.loop l).body.length)
    (hj : j < (k.loop l).body.length) (hord : carried = true ∨ i < j)
    {A B : List (BufferId × Bool)} {kind : DependencyKind}
    (hpair : (A, B, kind) ∈
      dependencySides (accessSets (k.op (k.loop l).body[i])) (accessSets (k.op (k.loop l).body[j])))
    {buffer : BufferId} {w₁ w₂ : Bool} (hA : (buffer, w₁) ∈ A) (hB : (buffer, w₂) ∈ B)
    (hw : (carried && (w₁ || w₂)) = false) :
    ⟨i, j, buffer, kind, carried⟩ ∈ loopDependencies k l := by
  have hset : ∀ x (hx : x < (k.loop l).body.length),
      (accessSets (k.op (k.loop l).body[x]), x) ∈
        ((k.loop l).body.map fun h => accessSets (k.op h)).zipIdx := fun x hx => by
    rw [List.mem_zipIdx_iff_getElem?]
    simp [hx]
  -- A pair in one iteration runs forward, so the pass over the pairs does not skip it.
  have hkept : (!carried && decide (j ≤ i)) = false := by
    rcases hord with rfl | hlt
    · rfl
    · simp [Nat.not_le.2 hlt]
  unfold loopDependencies
  refine List.mem_flatMap.2 ⟨_, hset i hi, List.mem_flatMap.2 ⟨_, hset j hj, ?_⟩⟩
  refine List.mem_flatMap.2 ⟨carried, by cases carried <;> simp, ?_⟩
  rw [if_neg (by simp [hkept])]
  unfold pairDependencies
  refine List.mem_flatMap.2 ⟨(A, B, kind), hpair, List.mem_filterMap.2 ⟨(buffer, w₁), hA, ?_⟩⟩
  dsimp only
  rw [if_pos (List.any_eq_true.2 ⟨(buffer, w₂), hB, by simp [hw]⟩)]

/-- The side of an op that a conflict's access lies on names the operand's buffer, with whether
the operand is windowed. -/
theorem mem_side_of_mem {xs : List Operand} {o : Operand} (ho : o ∈ xs) :
    (o.buffer, o.step.isSome) ∈ xs.map fun o => (o.buffer, o.step.isSome) :=
  List.mem_map_of_mem ho

/-- **Loop dependencies are sound up to windows.** In a formed kernel, take a loop that is not
pipelined and whose body ops carry no schedule, and two effects of its trace: body op `i` in
iteration `m` and body op `j` in iteration `n`, with `(m, i)` before `(n, j)`. If a write and a
read, a read and a write, or two writes of the two touch a common element of one buffer, the
analysis reports that buffer from `i` to `j` with the matching kind, carried exactly when
`m < n`; or else `m < n` and the two accesses reach the buffer through operands of different
windows, which the analysis assumes never meet. -/
theorem loopDependencies_sound {T : List Effect} (hF : k.Formed)
    (hl : (k.loop l).expansion = none) (hs : ∀ x ∈ (k.loop l).body, (k.op x).sched = none)
    (hT : traceLoop k l = .ok T) {i j m n : Nat} (hi : i < (k.loop l).body.length)
    (hj : j < (k.loop l).body.length) (hbefore : m < n ∨ m = n ∧ i < j) {e₁ e₂ : Effect}
    (he₁ : e₁ ∈ T) (he₂ : e₂ ∈ T) (h₁ : e₁.op = (k.loop l).body[i] ∧ e₁.iteration = m)
    (h₂ : e₂.op = (k.loop l).body[j] ∧ e₂.iteration = n) {kind : DependencyKind} {a b : Access}
    (hc : AccessConflict kind e₁ e₂ a b) (ho : a.Overlaps b) :
    ⟨i, j, a.physical, kind, decide (m < n)⟩ ∈ loopDependencies k l ∨
      m < n ∧ UnlikeWindows k (k.loop l).body[i] (k.loop l).body[j] m n a b := by
  obtain ⟨hop₁, hit₁⟩ := h₁
  obtain ⟨hop₂, hit₂⟩ := h₂
  obtain ⟨-, -, hr₁, hw₁⟩ := effect_of_mem_trace hl hs hT he₁
  obtain ⟨-, -, hr₂, hw₂⟩ := effect_of_mem_trace hl hs hT he₂
  rw [hop₁, hit₁] at hr₁ hw₁
  rw [hop₂, hit₂] at hr₂ hw₂
  -- The two accesses come from an operand of each op, on the sides the conflict's kind compares.
  obtain ⟨o₁, o₂, A, B, hpair, hA, hB, hmem₁, hmem₂, ha, hb⟩ : ∃ o₁ o₂ A B,
      (A, B, kind) ∈
        dependencySides (accessSets (k.op (k.loop l).body[i])) (accessSets (k.op (k.loop l).body[j])) ∧
      (o₁.buffer, o₁.step.isSome) ∈ A ∧ (o₂.buffer, o₂.step.isSome) ∈ B ∧
      o₁ ∈ (k.op (k.loop l).body[i]).operands ∧ o₂ ∈ (k.op (k.loop l).body[j]).operands ∧
      resolveAccess k o₁ m none = .ok a ∧ resolveAccess k o₂ n none = .ok b := by
    cases hc with
    | flow ha hb =>
      obtain ⟨o₁, ho₁, ha⟩ := operand_of_access hw₁ ha
      obtain ⟨o₂, ho₂, hb⟩ := operand_of_access hr₂ hb
      exact ⟨o₁, o₂, _, _, List.mem_cons_self, mem_side_of_mem ho₁, mem_side_of_mem ho₂,
        List.mem_append_right _ ho₁, TileOp.mem_operands_of_mem_reads ho₂, ha, hb⟩
    | anti ha hb =>
      obtain ⟨o₁, ho₁, ha⟩ := operand_of_access hr₁ ha
      obtain ⟨o₂, ho₂, hb⟩ := operand_of_access hw₂ hb
      exact ⟨o₁, o₂, _, _, List.mem_cons_of_mem _ List.mem_cons_self, mem_side_of_mem ho₁,
        mem_side_of_mem ho₂, TileOp.mem_operands_of_mem_reads ho₁, List.mem_append_right _ ho₂, ha, hb⟩
    | output ha hb =>
      obtain ⟨o₁, ho₁, ha⟩ := operand_of_access hw₁ ha
      obtain ⟨o₂, ho₂, hb⟩ := operand_of_access hw₂ hb
      exact ⟨o₁, o₂, _, _, List.mem_cons_of_mem _ (List.mem_cons_of_mem _ List.mem_cons_self),
        mem_side_of_mem ho₁, mem_side_of_mem ho₂, List.mem_append_right _ ho₁,
        List.mem_append_right _ ho₂, ha, hb⟩
  obtain ⟨hphys₁, -, -⟩ := resolveAccess_none ha
  obtain ⟨hphys₂, -, -⟩ := resolveAccess_none hb
  have hbuf₂ : o₂.buffer = a.physical := hphys₂ ▸ ho.1.symm
  have hsame : o₁.buffer = o₂.buffer := hphys₁.symm.trans hbuf₂.symm
  rw [← hphys₁] at hA
  rw [hbuf₂] at hB
  rcases hbefore with hlt | ⟨rfl, hij⟩
  · -- Across iterations: whole operands are reported, one window never meets itself, and
    -- different windows are the exception.
    by_cases hsteps : o₁.step = o₂.step
    · rcases hstep : o₁.step with _ | s
      · have hstep₂ : o₂.step = none := hsteps ▸ hstep
        rw [hstep] at hA
        rw [hstep₂] at hB
        exact .inl (by simpa [hlt] using
          mem_loopDependencies true hi hj (.inl rfl) hpair hA hB rfl)
      · have hax : s.axis < (k.buffer o₁.buffer).shape.length :=
          Kernel.windowAxis_lt (Kernel.checkWindows_of_checkOperands
            (hF.operandsChecked _ (hF.bodiesExist l _ (List.getElem_mem hi)))) hmem₁ hstep
        exact absurd ho.2 (not_overlaps_of_same_window hstep (hsteps ▸ hstep) hsame hax hlt ha hb)
    · exact .inr ⟨hlt, o₁, hmem₁, o₂, hmem₂, hsteps, ha, hb⟩
  · -- Within one iteration every pair from an earlier op to a later one is reported.
    exact .inl (by simpa using mem_loopDependencies false hi hj (.inr hij) hpair hA hB rfl)

end Reports

/-! ### A carried dependency left out -/

/-- Adds the iteration's 16-column window of buffer 0 to itself, in place. -/
def bumpOp : TileOp :=
  { name := "bump", kind := .elementwise .add, inputs := [.stepped ⟨0⟩ 1 16, .stepped ⟨0⟩ 1 16],
    outputs := [.stepped ⟨0⟩ 1 16] }

/-- A loop of two iterations that copies all of a global buffer `g` into a shared buffer `s`, and
then adds the iteration's 16-column window of `g` to itself in place (`bumpOp`). -/
def windowedBump : Kernel where
  name := "k"
  buffers := #[{ name := "g", shape := [16, 32], dtype := .f32, scope := .global },
    { name := "s", shape := [16, 32], dtype := .f32, scope := .shared }]
  ops := #[TileOp.copy "load" (.whole ⟨0⟩) (.whole ⟨1⟩), bumpOp]
  loops := #[{ name := "l", extent := 2, body := [⟨0⟩, ⟨1⟩] }]
  body := [.loop ⟨0⟩]

theorem windowedBump_built : windowedBump.Built :=
  ⟨"k", .head (Kernel.Call.addBuffer
      (b := { name := "g", shape := [16, 32], dtype := .f32, scope := .global })
      (by with_unfolding_all rfl)) <|
    .head (Kernel.Call.addBuffer
      (b := { name := "s", shape := [16, 32], dtype := .f32, scope := .shared })
      (by with_unfolding_all rfl)) <|
    .head (Kernel.Call.pushLoop (n := { name := "l", extent := 2 }) (by with_unfolding_all rfl)) <|
    .head (Kernel.Call.addOp (o := TileOp.copy "load" (.whole ⟨0⟩) (.whole ⟨1⟩))
      (by with_unfolding_all rfl)) <|
    .head (Kernel.Call.pushToLoop (l := ⟨0⟩) (h := ⟨0⟩) (by with_unfolding_all rfl)) <|
    .head (Kernel.Call.addOp (o := bumpOp) (by with_unfolding_all rfl)) <|
    .single (Kernel.Call.pushToLoop (l := ⟨0⟩) (h := ⟨1⟩) (by with_unfolding_all rfl))⟩

/-- The write of `g`'s first window in iteration 0. -/
def bumpWrite : Access := ⟨⟨0⟩, ⟨0⟩, [0, 0], [16, 16]⟩

/-- The read of all of `g`. -/
def loadRead : Access := ⟨⟨0⟩, ⟨0⟩, [0, 0], [16, 32]⟩

/-- The trace of `windowedBump`'s loop: the load and the add of iteration 0, then of iteration 1. -/
def windowedBumpTrace : List Effect :=
  [⟨⟨0⟩, 0, [loadRead], [⟨⟨1⟩, ⟨1⟩, [0, 0], [16, 32]⟩]⟩,
   ⟨⟨1⟩, 0, [bumpWrite, bumpWrite], [bumpWrite]⟩,
   ⟨⟨0⟩, 1, [loadRead], [⟨⟨1⟩, ⟨1⟩, [0, 0], [16, 32]⟩]⟩,
   ⟨⟨1⟩, 1, [⟨⟨0⟩, ⟨0⟩, [0, 16], [16, 16]⟩, ⟨⟨0⟩, ⟨0⟩, [0, 16], [16, 16]⟩], [⟨⟨0⟩, ⟨0⟩, [0, 16], [16, 16]⟩]⟩]

theorem windowedBump_trace : traceLoop windowedBump ⟨0⟩ = .ok windowedBumpTrace := by
  decide

/-- On `windowedBump` the soundness theorem leaves the flow from the add in iteration 0 to the
load in iteration 1 to its exception: the add writes a window of `g` and the load reads all of it. -/
theorem windowedBump_flow_through_unlike_windows : windowedBump.Formed ∧
    traceLoop windowedBump ⟨0⟩ = .ok windowedBumpTrace ∧
    ((⟨1, 0, bumpWrite.physical, .dataFlow, decide (0 < 1)⟩ : LoopDependency) ∈
        loopDependencies windowedBump ⟨0⟩ ∨
      0 < 1 ∧ UnlikeWindows windowedBump (windowedBump.loop ⟨0⟩).body[1] (windowedBump.loop ⟨0⟩).body[0]
        0 1 bumpWrite loadRead) :=
  ⟨windowedBump_built.formed, windowedBump_trace,
    loopDependencies_sound windowedBump_built.formed rfl (by decide) windowedBump_trace
      (i := 1) (j := 0) (m := 0) (n := 1) (by decide) (by decide) (.inl (by decide))
      (show windowedBumpTrace[1] ∈ windowedBumpTrace by decide)
      (show windowedBumpTrace[2] ∈ windowedBumpTrace by decide) ⟨rfl, rfl⟩ ⟨rfl, rfl⟩
      (.flow (by decide) (by decide)) ⟨rfl, [0, 0], by decide, by decide⟩⟩

/-- **A carried flow the analysis leaves out.** In `windowedBump` the add writes `g`'s columns
0 to 15 in iteration 0, and the load of iteration 1 reads all of `g`: the two overlap at index
`[0, 0]`, yet `loopDependencies` reports no carried flow from the add to the load, because the
add's operand is windowed. -/
theorem windowedBump_misses_carried_flow : windowedBump.Formed ∧
    ∃ T, traceLoop windowedBump ⟨0⟩ = .ok T ∧ ∃ e₁ ∈ T, ∃ e₂ ∈ T,
      e₁.op = (windowedBump.loop ⟨0⟩).body[1] ∧ e₁.iteration = 0 ∧
      e₂.op = (windowedBump.loop ⟨0⟩).body[0] ∧ e₂.iteration = 1 ∧
      ∃ a b, AccessConflict .dataFlow e₁ e₂ a b ∧ a.Overlaps b ∧
        (⟨1, 0, a.physical, .dataFlow, true⟩ : LoopDependency) ∉ loopDependencies windowedBump ⟨0⟩ :=
  ⟨windowedBump_built.formed, windowedBumpTrace, windowedBump_trace, windowedBumpTrace[1], by decide,
    windowedBumpTrace[2], by decide, rfl, rfl, rfl, rfl, bumpWrite, loadRead,
    .flow (by decide) (by decide), ⟨rfl, [0, 0], by decide, by decide⟩, by decide⟩

end TileKernel
