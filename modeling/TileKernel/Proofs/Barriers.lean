import Mathlib.Data.List.Basic

/-!
# Barriers of a pipelined loop

A pipelined loop issues its loads as asynchronous copy groups, one group for each load slot and
source iteration, and orders its computations against them with two barriers: a wait that lets
at most `pending` groups stay in flight, and a block-wide synchronization. This module gives
the barriers their meaning on the list of events a run executes, and proves them sufficient for
the shape the pipeliner emits: a prologue issuing the loads of the first `ahead` iterations, a
steady block run `trips` times that issues the load of iteration `i + ahead`, waits with
`ahead` groups in flight, computes iteration `i` and synchronizes, and a drain that waits for
each remaining group in turn and computes its iteration.

A `Run` times the events. Each event starts no earlier than the one before it and finishes after
it starts; a barrier holds back the next event until it finishes; a copy group completes after
its loads are issued, at any time the waits allow; a wait finishes only once every issued group
but the `pending` most recent has completed, and a synchronization only once every earlier
computation has finished.

`schedule_computes_after_loads`: in every run, each computation of iteration `t` starts after
the copy group of `t` has completed. `schedule_loads_after_computes`: in every run, a load for
iteration `u` starts only after every computation of an iteration `t` with `t + ahead < u` has
finished, so a ring instance is refilled only once its last reader is done. Together they make
every run `Run.Safe` (`schedule_safe`).
-/

set_option autoImplicit false

namespace TileKernel

/-- One executed op of a pipelined loop, as its barriers see it. -/
inductive Event where
  /-- A load-stage clone for source iteration `t`: part of the copy group of `t`. -/
  | load (t : Nat)
  /-- A computation for source iteration `t`. -/
  | compute (t : Nat)
  /-- Waits until all issued copy groups but the `pending` most recent have completed. -/
  | wait (pending : Nat)
  /-- Waits until every earlier computation has finished. -/
  | sync
deriving DecidableEq, Repr

namespace Event

/-- The copy group a load belongs to. -/
def group? : Event → Option Nat
  | load t => some t
  | _ => none

/-- Barriers hold back the events after them. -/
def IsBarrier : Event → Prop
  | wait _ | sync => True
  | _ => False

/-- What a compute slot for iteration `t` runs: computations of `t`, and barriers cloned from
the loop body. -/
def ComputesAt (t : Nat) (e : Event) : Prop := e = compute t ∨ e.IsBarrier

theorem group?_of_computesAt {t : Nat} {e : Event} (h : e.ComputesAt t) : e.group? = none := by
  rcases h with rfl | h
  · rfl
  · cases e <;> simp_all [IsBarrier, group?]

end Event

/-- The copy groups issued by the events `pre`, in order of issue: a group is issued by its
first load. -/
def issued (pre : List Event) : List Nat := (pre.filterMap Event.group?).eraseDups

/-- The groups a wait after `pre` waits for: every issued group but the `pending` most recent. -/
def awaited (pre : List Event) (pending : Nat) : List Nat :=
  (issued pre).take ((issued pre).length - pending)

/-- A timing of a run of the events `E`: when each event starts and finishes, and when each copy
group completes. -/
structure Run (E : List Event) where
  start : Nat → Nat
  finish : Nat → Nat
  done : Nat → Nat
  next : ∀ j, j + 1 < E.length → start j ≤ start (j + 1)
  started : ∀ j, start j ≤ finish j
  blocks : ∀ j e, E[j]? = some e → e.IsBarrier → finish j ≤ start (j + 1)
  issue : ∀ j t, E[j]? = some (.load t) → start j ≤ done t
  waits : ∀ w p, E[w]? = some (.wait p) → ∀ t ∈ awaited (E.take w) p, done t ≤ finish w
  syncs : ∀ s j t, E[s]? = some .sync → j < s → E[j]? = some (.compute t) →
    finish j ≤ finish s

namespace Run

variable {E : List Event} (run : Run E)

theorem start_le {i j : Nat} (hij : i ≤ j) (hj : j < E.length) : run.start i ≤ run.start j := by
  induction j with
  | zero =>
    obtain rfl := Nat.le_zero.1 hij
    exact Nat.le_refl _
  | succ j ih =>
    rcases Nat.lt_or_ge i (j + 1) with hi | hi
    · exact Nat.le_trans (ih (by omega) (by omega)) (run.next j hj)
    · obtain rfl := Nat.le_antisymm hij hi
      exact Nat.le_refl _

/-- An event after a barrier starts once the barrier has finished. -/
theorem finish_le_start_of_barrier {w j : Nat} {e : Event} (hw : E[w]? = some e) (he : e.IsBarrier)
    (hwj : w < j) (hj : j < E.length) : run.finish w ≤ run.start j :=
  Nat.le_trans (run.blocks w e hw he) (run.start_le hwj hj)

/-- An event after a wait starts once the groups the wait awaits have completed. -/
theorem done_le_start {w j p t : Nat} (hw : E[w]? = some (.wait p))
    (ht : t ∈ awaited (E.take w) p) (hwj : w < j) (hj : j < E.length) :
    run.done t ≤ run.start j :=
  Nat.le_trans (run.waits w p hw t ht) (run.finish_le_start_of_barrier hw trivial hwj hj)

/-- An event after a synchronization starts once every computation before it has finished. -/
theorem finish_le_start_of_sync {j s j' t : Nat} (hc : E[j]? = some (.compute t))
    (hs : E[s]? = some .sync) (hjs : j < s) (hsj : s < j') (hj' : j' < E.length) :
    run.finish j ≤ run.start j' :=
  Nat.le_trans (run.syncs s j t hs hjs hc) (run.finish_le_start_of_barrier hs trivial hsj hj')

/-- What the barriers of a loop of `n` iterations pipelined `d` deep owe a run: each computation
of an iteration `t` is of one of the `n` iterations, comes after a load of `t` and starts once
the copy group of `t` has completed; and a load of iteration `t + d` or later, which refills the
ring instance of `t`, starts only after every computation of `t` has finished. -/
def Safe (n d : Nat) : Prop :=
  (∀ j t, E[j]? = some (.compute t) →
      t < n ∧ (∃ j' < j, E[j']? = some (.load t)) ∧ run.done t ≤ run.start j) ∧
    ∀ j t j' u, E[j]? = some (.compute t) → E[j']? = some (.load u) → t + d ≤ u →
      run.finish j ≤ run.start j'

end Run

/-! ### Blocks of events -/

section Blocks

variable {β : Type} {f : Nat → List β}

/-- An event of a concatenation of blocks sits at some offset of one block. -/
theorem getElem?_flatMap_range {e : β} :
    ∀ {m j : Nat}, ((List.range m).flatMap f)[j]? = some e →
      ∃ i < m, ∃ r, j = ((List.range i).flatMap f).length + r ∧ (f i)[r]? = some e
  | 0, j, h => by simp at h
  | m + 1, j, h => by
    rw [List.range_succ, List.flatMap_append, List.flatMap_singleton] at h
    rcases Nat.lt_or_ge j ((List.range m).flatMap f).length with hj | hj
    · rw [List.getElem?_append_left hj] at h
      obtain ⟨i, hi, r, rfl, hr⟩ := getElem?_flatMap_range h
      exact ⟨i, by omega, r, rfl, hr⟩
    · rw [List.getElem?_append_right hj] at h
      exact ⟨m, by omega, j - ((List.range m).flatMap f).length, by omega, h⟩

theorem length_flatMap_range_succ (i : Nat) :
    ((List.range (i + 1)).flatMap f).length = ((List.range i).flatMap f).length + (f i).length := by
  simp [List.range_succ]

theorem length_flatMap_range_mono {i m : Nat} (h : i ≤ m) :
    ((List.range i).flatMap f).length ≤ ((List.range m).flatMap f).length := by
  induction m with
  | zero =>
    obtain rfl := Nat.le_zero.1 h
    exact Nat.le_refl _
  | succ m ih =>
    rcases Nat.lt_or_ge i (m + 1) with hi | hi
    · rw [length_flatMap_range_succ]
      exact Nat.le_trans (ih (by omega)) (Nat.le_add_right _ _)
    · obtain rfl := Nat.le_antisymm h hi
      exact Nat.le_refl _

theorem flatMap_range' (s n : Nat) :
    (List.range' s n).flatMap f = (List.range n).flatMap fun k => f (s + k) := by
  rw [List.range'_eq_map_range, List.flatMap_map]

/-- The prefix of the blocks up to an offset of block `i`. -/
theorem take_flatMap_range {i m r : Nat} (hi : i < m) (hr : r ≤ (f i).length) :
    ((List.range m).flatMap f).take (((List.range i).flatMap f).length + r) =
      (List.range i).flatMap f ++ (f i).take r := by
  have whole : ((List.range (i + 1)).flatMap f).take (((List.range i).flatMap f).length + r) =
      (List.range i).flatMap f ++ (f i).take r := by
    rw [List.range_succ, List.flatMap_append, List.flatMap_singleton, List.take_append,
      Nat.add_sub_cancel_left, List.take_of_length_le (by omega)]
  have split : (List.range m).flatMap f =
      (List.range (i + 1)).flatMap f ++ (List.range' (i + 1) (m - (i + 1))).flatMap f := by
    have hm : m = (i + 1) + (m - (i + 1)) := by omega
    conv_lhs => rw [hm, List.range_add, List.flatMap_append, List.flatMap_map]
    rw [flatMap_range']
  rw [split, List.take_append_of_le_length (by rw [length_flatMap_range_succ]; omega), whole]

/-- The event at an offset of block `i`. -/
theorem getElem?_flatMap_range_offset {i m r : Nat} (hi : i < m) (hr : r < (f i).length) :
    ((List.range m).flatMap f)[((List.range i).flatMap f).length + r]? = (f i)[r]? := by
  have inTake := List.getElem?_take_of_lt (l := (List.range m).flatMap f)
    (show ((List.range i).flatMap f).length + r <
      ((List.range i).flatMap f).length + (r + 1) by omega)
  rw [← inTake, take_flatMap_range hi (by omega), List.getElem?_append_right (by omega),
    Nat.add_sub_cancel_left, List.getElem?_take_of_lt (by omega)]

end Blocks

/-! ### Issued groups -/

theorem mem_issued {pre : List Event} {t : Nat} : t ∈ issued pre ↔ Event.load t ∈ pre := by
  simp only [issued, List.mem_eraseDups, List.mem_filterMap]
  constructor
  · rintro ⟨e, he, hg⟩
    cases e <;> simp_all [Event.group?]
  · intro h
    exact ⟨_, h, rfl⟩

/-- Groups issued one after another, each by a slot of `L` loads. -/
theorem eraseDups_flatMap_replicate {L : Nat} (hL : 0 < L) :
    ∀ n, ((List.range n).flatMap fun t => List.replicate L t).eraseDups = List.range n
  | 0 => rfl
  | n + 1 => by
    have fresh : (List.replicate L n).removeAll
        ((List.range n).flatMap fun t => List.replicate L t) = List.replicate L n := by
      simp only [List.removeAll, List.filter_eq_self]
      intro x hx
      rw [List.eq_of_mem_replicate hx]
      simp
    have once : (List.replicate L n).eraseDups = [n] := by
      obtain ⟨L, rfl⟩ : ∃ L', L = L' + 1 := ⟨L - 1, by omega⟩
      rw [List.replicate_succ, List.eraseDups_cons]
      simp
    rw [List.range_succ, List.flatMap_append, List.flatMap_singleton, List.eraseDups_append,
      eraseDups_flatMap_replicate hL n, fresh, once]

/-! ### The pipelined schedule -/

section Schedule

variable (L ahead trips : Nat)

/-- The loads of one slot, for iteration `t`. -/
def loadSlot (t : Nat) : List Event := List.replicate L (.load t)

/-- One trip of the steady block at counter `i`, whose compute slot runs `C`: the loads of
iteration `i + ahead`, a wait with `ahead` groups in flight, the computations, a
synchronization. -/
def steadyTrip (C : List Event) (i : Nat) : List Event :=
  loadSlot L (i + ahead) ++ .wait ahead :: (C ++ [.sync])

/-- One step of the drain, for iteration `t`, whose compute slot runs `C`: a wait that leaves in
flight only the groups of the iterations after `t`, then the computations. -/
def drainStep (C : List Event) (t : Nat) : List Event :=
  .wait (trips + ahead - 1 - t) :: C

/-- The prologue: the loads of the first `ahead` iterations. -/
def prologue : List Event := (List.range ahead).flatMap (loadSlot L)

/-- The first `n` trips of the steady block; `steady i` is the compute slot at counter `i`. -/
def steadyRounds (steady : Nat → List Event) (n : Nat) : List Event :=
  (List.range n).flatMap fun i => steadyTrip L ahead (steady i) i

/-- The first `n` steps of the drain; `drain t` is the compute slot for iteration `t`. -/
def drainRounds (drain : Nat → List Event) (n : Nat) : List Event :=
  (List.range n).flatMap fun k => drainStep ahead trips (drain (trips + k)) (trips + k)

/-- The events of a loop of `trips + ahead` iterations pipelined `ahead` iterations deep, with
`L` loads in a slot. -/
def schedule (steady drain : Nat → List Event) : List Event :=
  prologue L ahead ++ steadyRounds L ahead steady trips ++ drainRounds ahead trips drain ahead

end Schedule

section Slots

variable {L ahead trips i t r : Nat} {C : List Event} {e : Event}

theorem loadSlot_getElem? (h : (loadSlot L t)[r]? = some e) : e = .load t ∧ r < L := by
  simp only [loadSlot, List.getElem?_replicate] at h
  split_ifs at h with hr
  · exact ⟨(Option.some.inj h).symm, hr⟩

theorem filterMap_group_loadSlot : (loadSlot L t).filterMap Event.group? = List.replicate L t := by
  simp [loadSlot, List.filterMap_replicate, Event.group?]

theorem filterMap_group_of_computesAt (hC : ∀ e ∈ C, e.ComputesAt t) :
    C.filterMap Event.group? = [] :=
  List.filterMap_eq_nil_iff.2 fun e he => Event.group?_of_computesAt (hC e he)

theorem length_steadyTrip : (steadyTrip L ahead C i).length = L + 1 + C.length + 1 := by
  simp [steadyTrip, loadSlot]
  omega

/-- Where a steady trip computes: inside its compute slot, for its own iteration. -/
theorem steadyTrip_compute (hC : ∀ e ∈ C, e.ComputesAt i)
    (h : (steadyTrip L ahead C i)[r]? = some (.compute t)) :
    t = i ∧ L < r ∧ r < L + 1 + C.length := by
  unfold steadyTrip at h
  rcases Nat.lt_or_ge r (loadSlot L (i + ahead)).length with hr | hr
  · rw [List.getElem?_append_left hr] at h
    cases (loadSlot_getElem? h).1
  rw [List.getElem?_append_right hr] at h
  have hlen : (loadSlot L (i + ahead)).length = L := by simp [loadSlot]
  rw [hlen] at h hr
  obtain ⟨s, hs⟩ : ∃ s, r - L = s + 1 := by
    rcases hrL : r - L with _ | s
    · rw [hrL] at h
      cases h
    · exact ⟨s, rfl⟩
  rw [hs, List.getElem?_cons_succ] at h
  rcases Nat.lt_or_ge s C.length with hsC | hsC
  · rw [List.getElem?_append_left hsC] at h
    rcases hC _ (List.mem_of_getElem? h) with he | he
    · exact ⟨(Event.compute.inj he), by omega, by omega⟩
    · cases he
  · rw [List.getElem?_append_right hsC] at h
    rcases hsC' : s - C.length with _ | _ <;> simp [hsC'] at h

/-- A steady trip loads only in its load slot, for iteration `i + ahead`. -/
theorem steadyTrip_load (hC : ∀ e ∈ C, e.ComputesAt i) {u : Nat}
    (h : (steadyTrip L ahead C i)[r]? = some (.load u)) : u = i + ahead ∧ r < L := by
  unfold steadyTrip at h
  rcases Nat.lt_or_ge r (loadSlot L (i + ahead)).length with hr | hr
  · rw [List.getElem?_append_left hr] at h
    exact ⟨Event.load.inj (loadSlot_getElem? h).1, (loadSlot_getElem? h).2⟩
  rw [List.getElem?_append_right hr] at h
  have mem := List.mem_of_getElem? h
  simp only [List.mem_cons, List.mem_append, List.not_mem_nil, or_false] at mem
  rcases mem with he | he | he
  · cases he
  · rcases hC _ he with he' | he'
    · cases he'
    · cases he'
  · cases he

theorem steadyTrip_sync : (steadyTrip L ahead C i)[L + 1 + C.length]? = some .sync := by
  have hlen : (loadSlot L (i + ahead)).length = L := by simp [loadSlot]
  unfold steadyTrip
  rw [List.getElem?_append_right (by omega), hlen,
    show L + 1 + C.length - L = C.length + 1 by omega]
  simp

theorem steadyTrip_wait : (steadyTrip L ahead C i)[L]? = some (.wait ahead) := by
  have hlen : (loadSlot L (i + ahead)).length = L := by simp [loadSlot]
  unfold steadyTrip
  rw [List.getElem?_append_right (by omega), hlen, Nat.sub_self]
  rfl

theorem take_steadyTrip : (steadyTrip L ahead C i).take L = loadSlot L (i + ahead) := by
  simp [steadyTrip, loadSlot]

/-- Where a drain step computes: after its wait, for its own iteration. -/
theorem drainStep_compute (hC : ∀ e ∈ C, e.ComputesAt i)
    (h : (drainStep ahead trips C i)[r]? = some (.compute t)) : t = i ∧ 0 < r := by
  unfold drainStep at h
  rcases r with _ | r
  · cases h
  rw [List.getElem?_cons_succ] at h
  rcases hC _ (List.mem_of_getElem? h) with he | he
  · exact ⟨Event.compute.inj he, by omega⟩
  · cases he

theorem drainStep_not_load (hC : ∀ e ∈ C, e.ComputesAt i) {u : Nat} :
    (drainStep ahead trips C i)[r]? ≠ some (.load u) := by
  intro h
  have mem := List.mem_of_getElem? h
  simp only [drainStep, List.mem_cons] at mem
  rcases mem with he | he
  · cases he
  · rcases hC _ he with he' | he'
    · cases he'
    · cases he'

end Slots

/-! ### Safety of the schedule -/

section Safety

variable {L ahead trips : Nat} {steady drain : Nat → List Event}

theorem filterMap_group_prologue :
    (prologue L ahead).filterMap Event.group? =
      (List.range ahead).flatMap fun t => List.replicate L t := by
  simp only [prologue, List.filterMap_flatMap, filterMap_group_loadSlot]

theorem filterMap_group_steadyRounds (hsteady : ∀ i, ∀ e ∈ steady i, e.ComputesAt i)
    (n : Nat) :
    (steadyRounds L ahead steady n).filterMap Event.group? =
      (List.range n).flatMap fun i => List.replicate L (i + ahead) := by
  simp only [steadyRounds, steadyTrip, List.filterMap_flatMap, List.filterMap_append,
    List.filterMap_cons, filterMap_group_loadSlot, filterMap_group_of_computesAt (hsteady _)]
  simp [Event.group?]

theorem filterMap_group_drainRounds (hdrain : ∀ t, ∀ e ∈ drain t, e.ComputesAt t) (n : Nat) :
    (drainRounds ahead trips drain n).filterMap Event.group? = [] := by
  simp only [drainRounds, drainStep, List.filterMap_flatMap, List.filterMap_cons,
    filterMap_group_of_computesAt (hdrain _)]
  simp [Event.group?]

/-- After the prologue and `n` steady trips, the groups of the first `ahead + n` iterations are
issued, in order. -/
theorem issued_steadyRounds (hL : 0 < L) (hsteady : ∀ i, ∀ e ∈ steady i, e.ComputesAt i)
    (n : Nat) :
    issued (prologue L ahead ++ steadyRounds L ahead steady n) = List.range (ahead + n) := by
  have groups : (prologue L ahead ++ steadyRounds L ahead steady n).filterMap Event.group? =
      (List.range (ahead + n)).flatMap fun t => List.replicate L t := by
    rw [List.filterMap_append, filterMap_group_prologue, filterMap_group_steadyRounds hsteady,
      List.range_add, List.flatMap_append, List.flatMap_map]
    simp only [Nat.add_comm ahead]
  rw [issued, groups, eraseDups_flatMap_replicate hL]

theorem length_steadyRounds_succ (n : Nat) :
    (steadyRounds L ahead steady (n + 1)).length =
      (steadyRounds L ahead steady n).length + (L + 1 + (steady n).length + 1) := by
  rw [steadyRounds, length_flatMap_range_succ, length_steadyTrip]
  rfl

/-- What the events before the wait of steady trip `i` are. -/
theorem take_schedule_steadyWait {i : Nat} (hi : i < trips) :
    (schedule L ahead trips steady drain).take
        ((prologue L ahead).length + (steadyRounds L ahead steady i).length + L) =
      prologue L ahead ++ steadyRounds L ahead steady i ++ loadSlot L (i + ahead) := by
  have within : (steadyRounds L ahead steady i).length + L ≤
      (steadyRounds L ahead steady trips).length := by
    have := length_flatMap_range_mono (f := fun i => steadyTrip L ahead (steady i) i)
      (show i + 1 ≤ trips by omega)
    rw [length_flatMap_range_succ, length_steadyTrip] at this
    simp only [steadyRounds]
    omega
  rw [schedule, List.take_append_of_le_length (by simp only [List.length_append]; omega),
    List.take_append, List.take_of_length_le (by omega), Nat.add_assoc, Nat.add_sub_cancel_left]
  simp only [steadyRounds]
  rw [take_flatMap_range hi (by rw [length_steadyTrip]; omega), take_steadyTrip, List.append_assoc]

theorem schedule_steadyWait {i : Nat} (hi : i < trips) :
    (schedule L ahead trips steady drain)[(prologue L ahead).length +
      (steadyRounds L ahead steady i).length + L]? = some (.wait ahead) := by
  have inside :
      (steadyRounds L ahead steady i).length + L < (steadyRounds L ahead steady trips).length := by
    have := length_flatMap_range_mono (f := fun i => steadyTrip L ahead (steady i) i)
      (show i + 1 ≤ trips by omega)
    rw [length_flatMap_range_succ, length_steadyTrip] at this
    simp only [steadyRounds]
    omega
  rw [schedule, List.getElem?_append_left (by simp only [List.length_append]; omega),
    List.getElem?_append_right (by omega), Nat.add_assoc, Nat.add_sub_cancel_left]
  simp only [steadyRounds]
  rw [getElem?_flatMap_range_offset hi (by rw [length_steadyTrip]; omega), steadyTrip_wait]

theorem schedule_steadySync {i : Nat} (hi : i < trips) :
    (schedule L ahead trips steady drain)[(prologue L ahead).length +
      (steadyRounds L ahead steady i).length + (L + 1 + (steady i).length)]? = some .sync := by
  have inside : (steadyRounds L ahead steady i).length + (L + 1 + (steady i).length) <
      (steadyRounds L ahead steady trips).length := by
    have := length_flatMap_range_mono (f := fun i => steadyTrip L ahead (steady i) i)
      (show i + 1 ≤ trips by omega)
    rw [length_flatMap_range_succ, length_steadyTrip] at this
    simp only [steadyRounds]
    omega
  rw [schedule, List.getElem?_append_left (by simp only [List.length_append]; omega),
    List.getElem?_append_right (by omega), Nat.add_assoc, Nat.add_sub_cancel_left]
  simp only [steadyRounds]
  rw [getElem?_flatMap_range_offset hi (by rw [length_steadyTrip]; omega), steadyTrip_sync]

theorem length_steadyRounds_mono {i n : Nat} (h : i ≤ n) :
    (steadyRounds L ahead steady i).length ≤ (steadyRounds L ahead steady n).length :=
  length_flatMap_range_mono h

/-- Where an event of the schedule sits: in the prologue, where only loads of the first `ahead`
iterations are; at an offset of a steady trip; or at an offset of a drain step. -/
theorem schedule_getElem? {j : Nat} {e : Event}
    (h : (schedule L ahead trips steady drain)[j]? = some e) :
    (∃ k < ahead, e = .load k) ∨
    (∃ i < trips, ∃ r,
      j = (prologue L ahead).length + (steadyRounds L ahead steady i).length + r ∧
      (steadyTrip L ahead (steady i) i)[r]? = some e) ∨
    (∃ k < ahead, ∃ r,
      j = (prologue L ahead).length + (steadyRounds L ahead steady trips).length +
        (drainRounds ahead trips drain k).length + r ∧
      (drainStep ahead trips (drain (trips + k)) (trips + k))[r]? = some e) := by
  rw [schedule] at h
  rcases Nat.lt_or_ge j (prologue L ahead ++ steadyRounds L ahead steady trips).length with hj | hj
  · rw [List.getElem?_append_left hj] at h
    rcases Nat.lt_or_ge j (prologue L ahead).length with hjP | hjP
    · rw [List.getElem?_append_left hjP, prologue] at h
      obtain ⟨k, hk, r, -, hr⟩ := getElem?_flatMap_range h
      exact .inl ⟨k, hk, (loadSlot_getElem? hr).1⟩
    · rw [List.getElem?_append_right hjP, steadyRounds] at h
      obtain ⟨i, hi, r, hjr, hr⟩ := getElem?_flatMap_range h
      exact .inr (.inl ⟨i, hi, r, by rw [steadyRounds]; omega, hr⟩)
  · rw [List.getElem?_append_right hj, drainRounds] at h
    obtain ⟨k, hk, r, hjr, hr⟩ := getElem?_flatMap_range h
    simp only [List.length_append] at hj hjr
    exact .inr (.inr ⟨k, hk, r, by rw [drainRounds]; omega, hr⟩)

theorem take_schedule_drainWait {k : Nat} (hk : k < ahead) :
    (schedule L ahead trips steady drain).take ((prologue L ahead).length +
        (steadyRounds L ahead steady trips).length + (drainRounds ahead trips drain k).length) =
      prologue L ahead ++ steadyRounds L ahead steady trips ++ drainRounds ahead trips drain k := by
  have whole : (prologue L ahead ++ steadyRounds L ahead steady trips).length =
      (prologue L ahead).length + (steadyRounds L ahead steady trips).length := List.length_append
  rw [schedule, List.take_append, List.take_of_length_le (by omega), whole, Nat.add_sub_cancel_left]
  simp only [drainRounds]
  rw [← Nat.add_zero (List.length _), take_flatMap_range hk (Nat.zero_le _), List.take_zero,
    List.append_nil]

theorem schedule_drainWait {k : Nat} (hk : k < ahead) :
    (schedule L ahead trips steady drain)[(prologue L ahead).length +
        (steadyRounds L ahead steady trips).length + (drainRounds ahead trips drain k).length]? =
      some (.wait (trips + ahead - 1 - (trips + k))) := by
  have whole : (prologue L ahead ++ steadyRounds L ahead steady trips).length =
      (prologue L ahead).length + (steadyRounds L ahead steady trips).length := List.length_append
  rw [schedule, List.getElem?_append_right (by omega), whole, Nat.add_sub_cancel_left]
  simp only [drainRounds]
  rw [← Nat.add_zero (List.length _), getElem?_flatMap_range_offset hk (by simp [drainStep])]
  rfl

theorem issued_steadyWait (hL : 0 < L) (hsteady : ∀ i, ∀ e ∈ steady i, e.ComputesAt i)
    (i : Nat) :
    issued (prologue L ahead ++ steadyRounds L ahead steady i ++ loadSlot L (i + ahead)) =
      List.range (ahead + i + 1) := by
  have groups :
      (prologue L ahead ++ steadyRounds L ahead steady i ++ loadSlot L (i + ahead)).filterMap
        Event.group? = (List.range (ahead + i + 1)).flatMap fun t => List.replicate L t := by
    rw [List.filterMap_append, List.filterMap_append, filterMap_group_prologue,
      filterMap_group_steadyRounds hsteady, filterMap_group_loadSlot, List.range_succ,
      List.flatMap_append, List.range_add, List.flatMap_append, List.flatMap_map]
    simp [Nat.add_comm ahead]
  rw [issued, groups, eraseDups_flatMap_replicate hL]

theorem issued_drainWait (hL : 0 < L) (hsteady : ∀ i, ∀ e ∈ steady i, e.ComputesAt i)
    (hdrain : ∀ t, ∀ e ∈ drain t, e.ComputesAt t) (k : Nat) :
    issued (prologue L ahead ++ steadyRounds L ahead steady trips ++
      drainRounds ahead trips drain k) = List.range (ahead + trips) := by
  rw [← issued_steadyRounds hL hsteady trips, issued, issued, List.filterMap_append,
    filterMap_group_drainRounds hdrain, List.append_nil]

/-- Every computation of the schedule comes after a wait that awaits the copy group of its
iteration. -/
theorem schedule_compute_awaited (hL : 0 < L) (hsteady : ∀ i, ∀ e ∈ steady i, e.ComputesAt i)
    (hdrain : ∀ t, ∀ e ∈ drain t, e.ComputesAt t) {j t : Nat}
    (h : (schedule L ahead trips steady drain)[j]? = some (.compute t)) :
    t < trips + ahead ∧ ∃ w < j, ∃ p,
      (schedule L ahead trips steady drain)[w]? = some (.wait p) ∧
        t ∈ awaited ((schedule L ahead trips steady drain).take w) p := by
  rcases schedule_getElem? h with ⟨k, -, he⟩ | ⟨i, hi, r, rfl, hr⟩ | ⟨k, hk, r, rfl, hr⟩
  · cases he
  · -- A steady trip computes its own iteration after waiting with `ahead` groups in flight.
    obtain ⟨rfl, hLr, -⟩ := steadyTrip_compute (hsteady _) hr
    refine ⟨by omega, _, by omega, ahead, schedule_steadyWait hi, ?_⟩
    rw [take_schedule_steadyWait hi, awaited, issued_steadyWait hL hsteady, List.length_range,
      List.take_range, List.mem_range]
    omega
  · -- A drain step waits until the group of its iteration is the last one not awaited.
    obtain ⟨rfl, hr0⟩ := drainStep_compute (hdrain _) hr
    refine ⟨by omega, _, by omega, _, schedule_drainWait hk, ?_⟩
    rw [take_schedule_drainWait hk, awaited, issued_drainWait hL hsteady hdrain, List.length_range,
      List.take_range, List.mem_range]
    omega

/-- Between a computation of iteration `t` and a load of an iteration after `t + ahead` the
schedule synchronizes. -/
theorem schedule_sync_between (hsteady : ∀ i, ∀ e ∈ steady i, e.ComputesAt i)
    (hdrain : ∀ t, ∀ e ∈ drain t, e.ComputesAt t) {j t j' u : Nat}
    (hc : (schedule L ahead trips steady drain)[j]? = some (.compute t))
    (hl : (schedule L ahead trips steady drain)[j']? = some (.load u)) (htu : t + ahead < u) :
    ∃ s, j < s ∧ s < j' ∧ (schedule L ahead trips steady drain)[s]? = some .sync := by
  -- The load sits in the load slot of a steady trip `i'`, for iteration `i' + ahead`.
  obtain ⟨i', hi', r', rfl, hr'⟩ : ∃ i' < trips, ∃ r', j' = (prologue L ahead).length +
      (steadyRounds L ahead steady i').length + r' ∧ (steadyTrip L ahead (steady i') i')[r']? =
        some (.load u) := by
    rcases schedule_getElem? hl with ⟨k, hk, he⟩ | found | ⟨k, -, r, -, hr⟩
    · cases he
      omega
    · exact found
    · exact absurd hr (drainStep_not_load (hdrain _))
  obtain ⟨rfl, -⟩ := steadyTrip_load (hsteady _) hr'
  -- So the computation sits in an earlier steady trip, which ends with a synchronization.
  rcases schedule_getElem? hc with ⟨k, -, he⟩ | ⟨i, hi, r, rfl, hr⟩ | ⟨k, -, r, -, hr⟩
  · cases he
  · obtain ⟨rfl, -, hr⟩ := steadyTrip_compute (hsteady _) hr
    have before : (steadyRounds L ahead steady (t + 1)).length ≤
        (steadyRounds L ahead steady i').length := length_steadyRounds_mono (by omega)
    rw [length_steadyRounds_succ] at before
    exact ⟨_, by omega, by omega, schedule_steadySync hi⟩
  · obtain ⟨rfl, -⟩ := drainStep_compute (hdrain _) hr
    omega

/-- **The barriers order the copies and the computations.** In every run of the schedule, each
computation of iteration `t` belongs to one of the loop's iterations and starts after the copy
group of `t` was issued and has completed. -/
theorem schedule_computes_after_loads (hL : 0 < L)
    (hsteady : ∀ i, ∀ e ∈ steady i, e.ComputesAt i)
    (hdrain : ∀ t, ∀ e ∈ drain t, e.ComputesAt t)
    (run : Run (schedule L ahead trips steady drain))
    {j t : Nat} (h : (schedule L ahead trips steady drain)[j]? = some (.compute t)) :
    t < trips + ahead ∧
      (∃ j' < j, (schedule L ahead trips steady drain)[j']? = some (.load t)) ∧
      run.done t ≤ run.start j := by
  obtain ⟨ht, w, hwj, p, hw, hawait⟩ := schedule_compute_awaited hL hsteady hdrain h
  have hj : j < (schedule L ahead trips steady drain).length := (List.getElem?_eq_some_iff.1 h).1
  -- The awaited group was issued by a load before the wait.
  have issuedBefore : Event.load t ∈ (schedule L ahead trips steady drain).take w :=
    mem_issued.1 (List.mem_of_mem_take hawait)
  obtain ⟨j', hj'⟩ := List.mem_iff_getElem?.1 issuedBefore
  have hj'w : j' < w := by
    have := (List.getElem?_eq_some_iff.1 hj').1
    simp only [List.length_take] at this
    omega
  rw [List.getElem?_take_of_lt hj'w] at hj'
  exact ⟨ht, ⟨j', by omega, hj'⟩, run.done_le_start hw hawait hwj hj⟩

/-- **No ring instance is refilled too early.** In every run of the schedule, a load for
iteration `u` starts only after every computation of an iteration `t` with `t + ahead < u` has
finished. -/
theorem schedule_loads_after_computes (hsteady : ∀ i, ∀ e ∈ steady i, e.ComputesAt i)
    (hdrain : ∀ t, ∀ e ∈ drain t, e.ComputesAt t)
    (run : Run (schedule L ahead trips steady drain))
    {j t j' u : Nat} (hc : (schedule L ahead trips steady drain)[j]? = some (.compute t))
    (hl : (schedule L ahead trips steady drain)[j']? = some (.load u)) (htu : t + ahead < u) :
    run.finish j ≤ run.start j' := by
  obtain ⟨s, hjs, hsj, hs⟩ := schedule_sync_between hsteady hdrain hc hl htu
  exact run.finish_le_start_of_sync hc hs hjs hsj (List.getElem?_eq_some_iff.1 hl).1

/-- Every run of the schedule is safe for `trips + ahead` iterations at depth `ahead + 1`. -/
theorem schedule_safe (hL : 0 < L) (hsteady : ∀ i, ∀ e ∈ steady i, e.ComputesAt i)
    (hdrain : ∀ t, ∀ e ∈ drain t, e.ComputesAt t)
    (run : Run (schedule L ahead trips steady drain)) :
    run.Safe (trips + ahead) (ahead + 1) :=
  ⟨fun _ _ hc => schedule_computes_after_loads hL hsteady hdrain run hc,
    fun _ _ _ _ hc hl htu => schedule_loads_after_computes hsteady hdrain run hc hl (by omega)⟩

end Safety

end TileKernel
