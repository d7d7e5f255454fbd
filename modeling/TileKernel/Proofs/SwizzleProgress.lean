import TileKernel.Proofs.SwizzleChoice
import TileKernel.Proofs.PipelineProgress
import TileKernel.Proofs.AccessCoverage

/-!
# The swizzle search succeeds

`swizzleBuffer` fails only where its checks say so. A shared buffer whose accessors conflict is
given a swizzle when every candidate of the family answers without fault and one of them removes
every conflict (`swizzleBuffer_runs`); a swizzle stage in which every treated buffer is such a
buffer attaches a swizzle to each of them (`swizzleWhere_runs`).

* No access faults when every lane access stays inside the buffer and the swizzle keeps it there:
  the words are then counted in 64-bit words without overflow (`checkAccesses_ok`,
  `conflictDegree_answers`), so no candidate of the family faults (`conflictFreeUnder_answers`),
  and the worst degree without a swizzle is at least the busiest bank of any wavefront
  (`worstDegree_answers`).
* A wavefront is conflict-free when no bank serves two different words of it. `bankInjective`
  decides that with a table of the banks instead of the sort `busiestBank` makes
  (`bankInjective_sound`, `busiestBank_le_one`), which is what makes a conflict-free swizzle of a
  concrete buffer cheap to check by evaluation (`conflictFree_of_tableFree`).
* The analysis reads, of the buffers an op pairs with the one it analyses, only whether their
  layout is a fragment and, if dense, its rank and innermost axis (`accessPatterns_congr`): the
  patterns of a buffer do not change when its partners grow along their other axes.
-/

set_option autoImplicit false

namespace TileKernel

/-! ### A table of the banks -/

namespace BankModel

/-- Claims the bank of a word in a table of each bank's word: a second, different word of one
bank fails. -/
def claimBank (banks : Nat) (t : List (Option Nat)) (w : Nat) : Option (List (Option Nat)) :=
  match t[w % banks]? with
  | some (some v) => if v = w then some t else none
  | _ => some (t.set (w % banks) (some w))

/-- Whether no bank serves two different words of the list. -/
def bankInjective (banks : Nat) (ws : List Nat) : Bool :=
  (ws.foldlM (claimBank banks) (List.replicate banks none)).isSome

/-- What a table of the banks holds after some words: one entry per bank, each entry a word of its
own bank, and each word seen standing in the entry of its bank. -/
structure TableHolds (banks : Nat) (t : List (Option Nat)) (seen : List Nat) : Prop where
  size : t.length = banks
  own : ∀ i v, t[i]? = some (some v) → v % banks = i
  stands : ∀ w ∈ seen, t[w % banks]? = some (some w)

theorem claimBank_holds {banks w : Nat} {t t' : List (Option Nat)} {seen : List Nat}
    (hbanks : 0 < banks) (hI : TableHolds banks t seen) (h : claimBank banks t w = some t') :
    TableHolds banks t' (seen ++ [w]) := by
  obtain ⟨size, own, stands⟩ := hI
  unfold claimBank at h
  split at h
  · rename_i v hv
    split_ifs at h with hvw
    obtain rfl := Option.some.inj h
    subst hvw
    exact ⟨size, own, fun x hx => by
      rcases List.mem_append.1 hx with hx | hx
      · exact stands x hx
      · rw [List.mem_singleton.1 hx]
        exact hv⟩
  · rename_i hfree
    obtain rfl := Option.some.inj h
    -- The bank of `w` held no word yet, so no word seen is of that bank.
    have other : ∀ x ∈ seen, x % banks ≠ w % banks := fun x hx same =>
      hfree x (by rw [← same]; exact stands x hx)
    refine ⟨by rw [List.length_set, size], fun i v hv => ?_, fun x hx => ?_⟩
    · rw [List.getElem?_set] at hv
      split_ifs at hv with hi
      · obtain rfl : w = v := by simpa using hv
        exact hi
      · exact own i v hv
    · rcases List.mem_append.1 hx with hx | hx
      · rw [List.getElem?_set_ne (other x hx).symm]
        exact stands x hx
      · rw [List.mem_singleton.1 hx]
        have hlt : w % banks < t.length := by
          rw [size]
          exact Nat.mod_lt w hbanks
        simp [List.getElem?_set_self hlt]

theorem foldlM_claimBank_holds {banks : Nat} (hbanks : 0 < banks) :
    ∀ {ws : List Nat} {t t' : List (Option Nat)} {seen : List Nat}, TableHolds banks t seen →
      ws.foldlM (claimBank banks) t = some t' → TableHolds banks t' (seen ++ ws)
  | [], t, t', seen, hI, h => by
    obtain rfl := Option.some.inj h
    simpa using hI
  | w :: ws, t, t', seen, hI, h => by
    rw [List.foldlM_cons] at h
    rcases hc : claimBank banks t w with _ | t₁
    · simp [hc] at h
    rw [hc] at h
    simpa using foldlM_claimBank_holds hbanks (claimBank_holds hbanks hI hc) h

/-- The table check is sound: no bank serves two different words of a list it passes. -/
theorem bankInjective_sound {banks : Nat} {ws : List Nat} (hbanks : 0 < banks)
    (h : bankInjective banks ws = true) : ∀ a ∈ ws, ∀ b ∈ ws, a % banks = b % banks → a = b := by
  obtain ⟨t, ht⟩ := Option.isSome_iff_exists.1 h
  have empty : TableHolds banks (List.replicate banks none) [] :=
    ⟨List.length_replicate, fun i v hv => by simp [List.getElem?_replicate] at hv, by simp⟩
  have hI := foldlM_claimBank_holds hbanks empty ht
  intro a ha b hb same
  have stand := hI.stands a (by simpa using ha)
  rw [same, hI.stands b (by simpa using hb)] at stand
  exact (Option.some.inj (Option.some.inj stand)).symm

/-- What the scan of `busiestBank` keeps while no bank serves two different words: no run and no
best above one, and the last key read is one of the words, keyed by its bank. -/
structure ScanHolds (m : BankModel) (words : List Nat) (acc : Option (Nat × Nat) × Nat × Nat) :
    Prop where
  run : acc.2.1 ≤ 1
  best : acc.2.2 ≤ 1
  last : ∀ p, acc.1 = some p → p.1 = p.2 % m.banks ∧ p.2 ∈ words

/-- When no bank serves two different words, the busiest bank serves one. -/
theorem busiestBank_le_one {m : BankModel} {words : List Nat}
    (hinj : ∀ a ∈ words, ∀ b ∈ words, a % m.banks = b % m.banks → a = b) : m.busiestBank words ≤ 1 := by
  -- One step of the scan, on a key of one of the words: a key of the bank of the last one is the
  -- last word again.
  have step : ∀ acc, ∀ bw : Nat × Nat, bw.1 = bw.2 % m.banks → bw.2 ∈ words → ScanHolds m words acc →
      ScanHolds m words (busiestStep acc bw) := by
    rintro ⟨prev, run, best⟩ ⟨b', w'⟩ hkey hw ⟨hrun, hbest, hlast⟩
    dsimp only at hkey hw hrun hbest hlast
    rcases prev with _ | ⟨b, w⟩
    · dsimp only [busiestStep]
      exact ⟨le_refl 1, by simp [hbest], by simp_all⟩
    obtain ⟨hb, hwm⟩ := hlast _ rfl
    dsimp only at hb hwm
    dsimp only [busiestStep]
    split_ifs with hbank hword
    · exact ⟨hrun, hbest, hlast⟩
    · exact absurd (hinj w hwm w' hw (by rw [← hb, ← hkey, hbank])) hword
    · exact ⟨le_refl 1, by simp [hbest], by simp_all⟩
  have scan : ∀ (keys : List (Nat × Nat)) acc, (∀ x ∈ keys, x.1 = x.2 % m.banks ∧ x.2 ∈ words) →
      ScanHolds m words acc → ScanHolds m words (keys.foldl busiestStep acc) := by
    intro keys
    induction keys with
    | nil => exact fun _ _ h => h
    | cons x keys ih =>
      intro acc hkeys hacc
      exact ih _ (fun y hy => hkeys y (List.mem_cons_of_mem _ hy))
        (step acc x (hkeys x List.mem_cons_self).1 (hkeys x List.mem_cons_self).2 hacc)
  refine (scan _ _ (fun x hx => ?_) ⟨Nat.zero_le 1, le_refl 1, fun _ h => by simp at h⟩).best
  obtain ⟨w, hw, rfl⟩ := List.mem_map.1 (List.mem_mergeSort.1 hx)
  exact ⟨rfl, hw⟩

/-- Whether every wavefront of the pattern, under the swizzle, asks each bank for at most one
word, checked with a table of the banks. -/
def tableFree (m : BankModel) (p : AccessPattern) (eb : Nat) (s : Option Swizzle) : Bool :=
  (m.waves p (max eb 1)).all fun wave =>
    (m.waveWords (max eb 1) s wave).toOption.any (bankInjective m.banks)

/-- A pattern the table check passes is conflict-free. -/
theorem conflictFree_of_tableFree {m : BankModel} {p : AccessPattern} {eb : Nat} {s : Option Swizzle}
    (h : m.tableFree p eb s = true) : m.conflictFree p eb s = true := by
  unfold conflictFree
  unfold tableFree at h
  by_cases hb : m.banks ≤ 1
  · simp [hb]
  simp only [hb, decide_false, Bool.false_or, List.all_eq_true] at h ⊢
  intro wave hw
  have free := h wave hw
  rcases hwords : m.waveWords (max eb 1) s wave with _ | words
  · rw [hwords] at free
    cases free
  · rw [hwords] at free
    exact decide_eq_true (busiestBank_le_one (bankInjective_sound (by omega) free))

end BankModel

/-! ### Folds that answer -/

section Folds

variable {α β ε : Type}

/-- A fold in `Except` answers when every step answers. -/
theorem foldlM_except_answers {f : β → α → Except ε β} :
    ∀ {l : List α} {init : β}, (∀ b, ∀ x ∈ l, ∃ b', f b x = .ok b') → ∃ r, l.foldlM f init = .ok r
  | [], init, _ => ⟨init, rfl⟩
  | x :: l, init, h => by
    obtain ⟨b, hb⟩ := h init x List.mem_cons_self
    rw [List.foldlM_cons, hb]
    exact foldlM_except_answers fun b' y hy => h b' y (List.mem_cons_of_mem _ hy)

/-- A fold over a range in `Except` answers when every step at a position of the range answers. -/
theorem foldRangeM_go_answers {f : β → Nat → Except ε β} :
    ∀ (count i : Nat) (acc : β), (∀ b j, i ≤ j → j < i + count → ∃ b', f b j = .ok b') →
      ∃ r, foldRangeM.go f count i acc = .ok r
  | 0, _, acc, _ => ⟨acc, rfl⟩
  | count + 1, i, acc, h => by
    obtain ⟨b, hb⟩ := h acc i (Nat.le_refl i) (by omega)
    simp only [foldRangeM.go, hb, bind, Except.bind]
    exact foldRangeM_go_answers count (i + 1) b fun b' j hj hj' => h b' j (by omega) (by omega)

theorem foldRangeM_answers {f : β → Nat → Except ε β} {n : Nat} (init : β)
    (h : ∀ b j, j < n → ∃ b', f b j = .ok b') : ∃ r, foldRangeM n f init = .ok r :=
  foldRangeM_go_answers n 0 init fun b j _ hj => h b j (by omega)

/-- A loop over a range that returns nothing finishes when each of its steps does. -/
theorem foldRangeM_unit_ok {f : Unit → Nat → Except ε Unit} {n : Nat}
    (h : ∀ j < n, ∃ b, f () j = .ok b) : foldRangeM n f () = .ok () := by
  obtain ⟨r, hr⟩ := foldRangeM_answers () fun () j hj => h j hj
  exact hr

/-- A running maximum answers when every value does. -/
theorem foldlM_max_answers {f : α → Checked Nat} :
    ∀ {xs : List α} {init : Nat}, (∀ x ∈ xs, ∃ b, f x = .ok b) →
      ∃ w, xs.foldlM (fun w x => do return max w (← f x)) init = .ok w
  | [], init, _ => ⟨init, rfl⟩
  | x :: xs, init, h => by
    obtain ⟨b, hb⟩ := h x List.mem_cons_self
    rw [List.foldlM_cons]
    simp only [hb, bind, Except.bind, pure, Except.pure]
    exact foldlM_max_answers fun y hy => h y (List.mem_cons_of_mem _ hy)

end Folds

/-! ### Accesses inside the buffer -/

/-- Where the swizzle of an access, if any, sends an offset. -/
def physicalOffset (s : Option Swizzle) (x : Nat) : Nat :=
  s.elim x fun s => s.applyBits x

/-- The swizzle, if any, keeps the offsets of a buffer of `n` elements inside it. -/
def KeepsWithin (s : Option Swizzle) (n : Nat) : Prop := ∀ x < n, physicalOffset s x < n

theorem keepsWithin_none (n : Nat) : KeepsWithin none n := fun _ h => h

/-- A swizzle whose source lies above its field and that permutes the buffer keeps its offsets
inside it. -/
theorem keepsWithin_some {s : Swizzle} {n : Nat} (h : s.bits ≤ s.shift)
    (hb : s.isBijectiveOn n = true) : KeepsWithin (some s) n := fun x hx => by
  show s.applyBits x < n
  rw [Swizzle.applyBits_eq]
  exact s.apply_lt_of_isBijectiveOn h hb hx

/-- Every lane access of the pattern stays inside a buffer of `n` elements. -/
def AccessPattern.Within (p : AccessPattern) (n : Nat) : Prop :=
  ∀ ph ∈ p.phases, ∀ l ∈ ph, l.offset + l.elems ≤ n

instance (p : AccessPattern) (n : Nat) : Decidable (p.Within n) :=
  inferInstanceAs (Decidable (∀ ph ∈ p.phases, ∀ l ∈ ph, l.offset + l.elems ≤ n))

namespace BankModel

variable {m : BankModel} {s : Option Swizzle} {n eb : Nat}

/-- The word of an element inside the buffer is computed without overflow. -/
theorem wordOf_answers (hs : KeepsWithin s n) (heb : 0 < eb) (hn : n * eb ≤ Word.u64.bound)
    {lane : LaneAccess} {e : Nat} (he : lane.offset + e < n) : ∃ w, m.wordOf eb s lane e = .ok w := by
  have hsum : lane.offset + e < Word.u64.bound :=
    calc lane.offset + e < n := he
      _ ≤ n * eb := Nat.le_mul_of_pos_right n heb
      _ ≤ Word.u64.bound := hn
  have hprod : physicalOffset s (lane.offset + e) * eb < Word.u64.bound :=
    lt_of_lt_of_le (Nat.mul_lt_mul_of_pos_right (hs _ he) heb) hn
  unfold wordOf
  rw [Word.add_eq_ok hsum]
  cases s <;>
    simp only [bind, Except.bind, pure, Except.pure, physicalOffset, Option.elim] at hprod ⊢ <;>
    simp [Word.mul_eq_ok hprod]

/-- A lane of a wavefront is a lane of one of the pattern's instructions. -/
theorem mem_phase_of_mem_waves {p : AccessPattern} {wave : List LaneAccess} {lane : LaneAccess}
    (hw : wave ∈ m.waves p eb) (hl : lane ∈ wave) : ∃ ph ∈ p.phases, lane ∈ ph := by
  obtain ⟨ph, hph, hwave⟩ := List.mem_flatMap.1 hw
  refine ⟨ph, hph, ?_⟩
  rw [← BankModel.flatten_chunks (max (m.banks * m.width / (max p.vector 1 * eb)) 1) ph]
  exact List.mem_flatten.2 ⟨wave, hwave, hl⟩

/-- The words of a wavefront inside the buffer are computed without overflow. -/
theorem waveWords_answers (hs : KeepsWithin s n) (heb : 0 < eb) (hn : n * eb ≤ Word.u64.bound)
    (wave : List LaneAccess) (hw : ∀ l ∈ wave, l.offset + l.elems ≤ n) :
    ∃ words, m.waveWords eb s wave = .ok words := by
  unfold waveWords
  refine foldlM_except_answers fun acc lane hl => foldRangeM_answers acc fun acc' e he => ?_
  obtain ⟨w, hword⟩ := wordOf_answers (m := m) hs heb hn (show lane.offset + e < n by
    have := hw lane hl
    omega)
  rw [hword]
  exact ⟨_, rfl⟩

/-- The accesses of a pattern inside the buffer are all taken without fault. -/
theorem checkAccesses_ok (hs : KeepsWithin s n) (hn : n * max eb 1 ≤ Word.u64.bound)
    {p : AccessPattern} (hp : p.Within n) : m.checkAccesses p eb s = .ok () := by
  unfold checkAccesses
  split
  · rfl
  refine Kernel.forM_except_of_ok fun phase hph => Kernel.forM_except_of_ok fun lane hl => ?_
  refine foldRangeM_unit_ok fun e he => ?_
  obtain ⟨w, hword⟩ := wordOf_answers (m := m) hs (Nat.lt_of_lt_of_le Nat.zero_lt_one
    (Nat.le_max_right eb 1)) hn (show lane.offset + e < n by
      have := hp phase hph lane hl
      omega)
  rw [hword]
  exact ⟨(), rfl⟩

/-- The conflict degree of a pattern inside the buffer is computed without fault. -/
theorem conflictDegree_answers (hs : KeepsWithin s n) (hn : n * max eb 1 ≤ Word.u64.bound)
    {p : AccessPattern} (hp : p.Within n) : ∃ d, m.conflictDegree p eb s = .ok d := by
  unfold conflictDegree
  split
  · exact ⟨1, rfl⟩
  refine foldlM_except_answers fun worst wave hw => ?_
  obtain ⟨words, hwords⟩ := waveWords_answers (m := m) hs (Nat.lt_of_lt_of_le Nat.zero_lt_one
    (Nat.le_max_right eb 1)) hn wave fun l hl => by
      obtain ⟨ph, hph, hl'⟩ := mem_phase_of_mem_waves hw hl
      exact hp ph hph l hl'
  rw [hwords]
  exact ⟨_, rfl⟩

end BankModel

/-! ### The search answers -/

section Search

variable {t : Target} {ps : List AccessPattern} {eb n : Nat} {s : Swizzle}

/-- No candidate that keeps the buffer's offsets inside it faults. -/
theorem conflictFreeUnder_answers (hs : KeepsWithin (some s) n)
    (hn : n * max eb 1 ≤ Word.u64.bound) (hps : ∀ p ∈ ps, p.Within n) :
    conflictFreeUnder t ps eb s = .ok (ps.all fun p => (BankModel.ofTarget t).conflictFree p eb (some s)) := by
  unfold conflictFreeUnder
  dsimp only
  rw [Kernel.forM_except_of_ok fun p hp => BankModel.checkAccesses_ok hs hn (hps p hp)]
  rfl

/-- A candidate under which the bank table of every wavefront fills is found conflict-free. -/
theorem conflictFreeUnder_of_tableFree (hs : KeepsWithin (some s) n)
    (hn : n * max eb 1 ≤ Word.u64.bound) (hps : ∀ p ∈ ps, p.Within n)
    (hfree : ∀ p ∈ ps, (BankModel.ofTarget t).tableFree p eb (some s) = true) :
    conflictFreeUnder t ps eb s = .ok true := by
  rw [conflictFreeUnder_answers hs hn hps, List.all_eq_true.2 fun p hp =>
    BankModel.conflictFree_of_tableFree (hfree p hp)]

/-- Without a swizzle the worst degree of patterns inside the buffer answers, and is at least the
busiest bank of every wavefront, so one conflicting wavefront makes the buffer conflict. -/
theorem worstDegree_answers (hbanks : ¬ (BankModel.ofTarget t).banks ≤ 1)
    (hn : n * max eb 1 ≤ Word.u64.bound) (hps : ∀ p ∈ ps, p.Within n) :
    ∃ w, worstDegree t ps eb none = .ok w ∧ ∀ p ∈ ps, ∀ wave ∈ (BankModel.ofTarget t).waves p (max eb 1),
      ∀ words, (BankModel.ofTarget t).waveWords (max eb 1) none wave = .ok words →
        (BankModel.ofTarget t).busiestBank words ≤ w := by
  obtain ⟨w, hw⟩ : ∃ w, worstDegree t ps eb none = .ok w := foldlM_max_answers fun p hp =>
    BankModel.conflictDegree_answers (keepsWithin_none n) hn (hps p hp)
  refine ⟨w, hw, fun p hp wave hwave words hwords => ?_⟩
  obtain ⟨d, hd, hdw⟩ := (foldlM_max_ok (g := id) hw).2 p hp
  -- The degree of the pattern is the running maximum over its wavefronts.
  have hfold : ((BankModel.ofTarget t).waves p (max eb 1)).foldlM (fun worst wave => do
      return max worst ((BankModel.ofTarget t).busiestBank (← (BankModel.ofTarget t).waveWords (max eb 1) none wave))) 1 =
      .ok d := by
    rw [← hd]
    exact (if_neg hbanks).symm
  obtain ⟨words', hwords', hle⟩ := (foldlM_max_ok hfold).2 wave hwave
  rw [hwords] at hwords'
  obtain rfl := Except.ok.inj hwords'
  exact hle.trans hdw

variable {α : Type} {q : α → Checked Bool}

/-- A search in which every test answers and one passes finds an element. -/
theorem findM?_eq_ok_some_of_answers :
    ∀ {l : List α}, (∀ x ∈ l, ∃ b, q x = .ok b) → (∃ x ∈ l, q x = .ok true) →
      ∃ a ∈ l, l.findM? q = .ok (some a)
  | [], _, ⟨_, hx, _⟩ => absurd hx List.not_mem_nil
  | x :: xs, hans, ⟨y, hy, hpass⟩ => by
    obtain ⟨b, hb⟩ := hans x List.mem_cons_self
    rw [List.findM?]
    cases b with
    | true =>
      refine ⟨x, List.mem_cons_self, ?_⟩
      simp [hb, bind, Except.bind, pure, Except.pure]
    | false =>
      -- The element that passes lies further on.
      have hy' : y ∈ xs := by
        rcases List.mem_cons.1 hy with rfl | hy'
        · rw [hb] at hpass
          cases hpass
        · exact hy'
      obtain ⟨a, ha, hfound⟩ := findM?_eq_ok_some_of_answers
        (fun z hz => hans z (List.mem_cons_of_mem _ hz)) ⟨y, hy', hpass⟩
      refine ⟨a, List.mem_cons_of_mem _ ha, ?_⟩
      simpa [hb, bind, Except.bind] using hfound

end Search

section Runs

variable {o : CompileOptions} {k : Kernel} {d : DefUse} {h : BufferId}

/-- The widest vector of every pattern fits a 32-bit word, so rounding it up does not fault. -/
theorem foldlM_ceilLog2_answers {ps : List AccessPattern} (hvec : ∀ p ∈ ps, p.vector ≤ Nat.pow 2 31) :
    ps.foldlM (fun m p => do return max m (← ceilLog2Checked (max p.vector 1))) 0 =
      .ok (vectorBase ps) := by
  have rounded : ∀ p ∈ ps, ∃ e, ceilLog2Checked (max p.vector 1) = .ok e := fun p hp =>
    ⟨_, if_neg (by
      have := hvec p hp
      have : 1 ≤ Nat.pow 2 31 := Nat.one_le_two_pow
      omega)⟩
  obtain ⟨m, hm⟩ : ∃ m, ps.foldlM (fun m p => do return max m (← ceilLog2Checked (max p.vector 1))) 0 =
      .ok m := foldlM_max_answers rounded
  rw [hm, foldlM_ceilLog2_eq_ok hm]
  rfl

/-- What the search over a buffer's data needs to succeed: the buffer's accessors conflict, stay
inside its `extent` elements and use vectors that fit a word, and some candidate fills every bank
table. -/
structure SearchFinds (t : Target) (ps : List AccessPattern) (extent eb : Nat) (cs : List Swizzle) :
    Prop where
  nonempty : ps ≠ []
  conflicting : ∃ w, worstDegree t ps eb none = .ok w ∧ 1 < w
  vectors : ∀ p ∈ ps, p.vector ≤ Nat.pow 2 31
  within : ∀ p ∈ ps, p.Within extent
  bound : extent * max eb 1 ≤ Word.u64.bound
  free : ∃ s ∈ cs, ∀ p ∈ ps, (BankModel.ofTarget t).tableFree p eb (some s) = true

/-- **The search for a conflicting buffer succeeds.** A shared buffer with a dense layout and no
swizzle whose search data find a candidate gets a candidate of its family attached: the search
answers and changes nothing else. -/
theorem swizzleBuffer_runs (S : SearchData o k d h)
    (hS : SearchFinds o.target S.patterns S.extent S.elemBytes S.candidates) {bf : Buffer} {dl : DenseLayout}
    (hb : k.buffer? h = some bf) (hshared : bf.scope = .shared) (hnone : bf.swizzle = none)
    (hlayout : bf.layout = some (.dense dl)) :
    ∃ s ∈ S.candidates, (swizzleBuffer o d h).run k =
      .ok (.ok (some s), k.modifyBuffer h ({ · with swizzle := some s })) := by
  have hbuf : k.buffer h = bf := by simp [Kernel.buffer, hb]
  obtain ⟨w, hw, hgt⟩ := hS.conflicting
  -- Every candidate is a member of the family, so it keeps the offsets inside the buffer.
  have keeps : ∀ s ∈ S.candidates, KeepsWithin (some s) S.extent := fun s hs => by
    obtain ⟨hmk, -, -, -, hbij⟩ := S.listing.member s hs
    exact keepsWithin_some (Swizzle.make_eq_ok hmk).2.2.1 hbij
  obtain ⟨s₀, hs₀, hfree⟩ := hS.free
  obtain ⟨s, hs, hfound⟩ := findM?_eq_ok_some_of_answers (q := conflictFreeUnder o.target S.patterns S.elemBytes)
    (fun s hs => ⟨_, conflictFreeUnder_answers (keeps s hs) hS.bound hS.within⟩)
    ⟨s₀, hs₀, conflictFreeUnder_of_tableFree (keeps s₀ hs₀) hS.bound hS.within hfree⟩
  refine ⟨s, hs, ?_⟩
  have hbij : s.isBijectiveOn S.extent = true := (S.listing.member s hs).2.2.2.2
  have hext : bf.elements = .ok S.extent := hbuf ▸ S.extent_eq
  unfold swizzleBuffer
  rw [KernelM.run_get_bind]
  dsimp only
  rw [hbuf, if_neg (by simp [hlayout]), ← hbuf, S.elemBytes_eq,
    KernelM.run_bind_of_ok (KernelM.run_liftM_eq_ok.2 ⟨S.patterns_eq, rfl⟩),
    if_neg (by simpa [List.isEmpty_iff] using hS.nonempty),
    KernelM.run_bind_of_ok (KernelM.run_liftM_eq_ok.2 ⟨hw, rfl⟩), if_neg (by omega),
    KernelM.run_bind_of_ok (KernelM.run_liftM_eq_ok.2 ⟨foldlM_ceilLog2_answers hS.vectors, rfl⟩),
    KernelM.run_bind_of_ok (KernelM.run_liftM_eq_ok.2 ⟨S.rowBytes_eq, rfl⟩),
    KernelM.run_bind_of_ok (KernelM.run_liftM_eq_ok.2 ⟨S.extent_eq, rfl⟩),
    KernelM.run_bind_of_ok (KernelM.run_liftM_eq_ok.2 ⟨S.candidates_eq, rfl⟩),
    KernelM.run_bind_of_ok (KernelM.run_liftM_eq_ok.2 ⟨hfound, rfl⟩)]
  dsimp only
  rw [KernelM.run_bind_of_ok (KernelM.run_lift_eq_ok.2 (KernelM.run_updateChecked.2
    (Kernel.attachSwizzle_eq hb hshared hnone hlayout hext hbij)))]
  rfl

end Runs

section Stage

variable {o : CompileOptions} {wanted : BufferId → Bool} {k : Kernel}

/-- A stage that treats no buffer answers nothing and changes nothing. -/
theorem swizzleWhere_of_untreated (h : ∀ b, ¬ k.Treats wanted b) :
    (swizzleWhere o wanted).run k = .ok (.ok [], k) := by
  unfold swizzleWhere
  rw [KernelM.run_get_bind]
  dsimp only
  rw [List.filter_eq_nil_iff.2 fun b hb htreat => h b (Kernel.mem_treated.1 (List.mem_filter.2 ⟨hb, htreat⟩))]
  rfl

/-- Answers that each pair an element with something give back the elements. -/
theorem reduceOption_map_fst {α β : Type} :
    ∀ {l : List α} {xs : List (Option (α × β))}, List.Forall₂ (fun c x => ∃ s, x = some (c, s)) l xs →
      xs.reduceOption.map Prod.fst = l
  | [], [], .nil => rfl
  | c :: l, _ :: xs, .cons ⟨s, hx⟩ h => by
    rw [hx, List.reduceOption_cons_of_some, List.map_cons, reduceOption_map_fst h]

/-- **The swizzle stage succeeds** when every buffer it treats has a dense layout and search data
that finds a candidate: it attaches a swizzle to exactly the buffers it treats, and changes
nothing else. -/
theorem swizzleWhere_runs
    (hfinds : ∀ b, k.Treats wanted b → (∃ dl, (k.buffer b).layout = some (.dense dl)) ∧
      ∃ S : SearchData o k (DefUse.build k) b, SearchFinds o.target S.patterns S.extent S.elemBytes S.candidates) :
    ∃ chosen k', (swizzleWhere o wanted).run k = .ok (.ok chosen, k') ∧
      (∀ b, b ∈ chosen.map Prod.fst ↔ k.Treats wanted b) ∧
      Kernel.Reswizzled (chosen.map Prod.fst) k k' ∧ ∀ b, k.Treats wanted b → (k'.buffer b).swizzle.isSome := by
  unfold swizzleWhere
  rw [KernelM.run_get_bind]
  dsimp only
  set shared := k.bufferIds.filter fun h => (k.buffer h).scope == .shared && !(k.buffer h).noSwizzle &&
    (k.buffer h).swizzle.isNone && (k.buffer h).instanceOf.isNone && wanted h with hshared
  have hnodup : shared.Nodup := Kernel.nodup_bufferIds.filter _
  -- The kernels along the map differ from the start in the swizzles of the buffers done, which
  -- all have one.
  obtain ⟨xs, k', hmap, ⟨hre, hsome⟩, hpairs⟩ := KernelM.run_mapM_progress (l := shared)
    (f := fun h => do pure ((← swizzleBuffer o (DefUse.build k) h).map fun s => (h, s)))
    (fun done kx => Kernel.Reswizzled done k kx ∧ ∀ c ∈ done, (kx.buffer c).swizzle.isSome)
    (fun c x => ∃ s, x = some (c, s)) []
    (fun pre c post hsplit kx ⟨hre, hdone⟩ => by
      have hc : c ∈ shared := by
        rw [hsplit]
        exact List.mem_append_right _ List.mem_cons_self
      have treats : k.Treats wanted c := Kernel.mem_treated.1 hc
      have fresh : c ∉ pre := by
        rw [hsplit] at hnodup
        exact fun hc => (List.nodup_append.1 hnodup).2.2 c hc c List.mem_cons_self rfl
      obtain ⟨⟨dl, hlayout⟩, S, hS⟩ := hfinds c treats
      have hlt : c.idx < kx.buffers.size := hre.size ▸ treats.lt
      have hb : kx.buffer? c = some (kx.buffer c) := by
        simp [Kernel.buffer, Kernel.buffer?, hlt]
      obtain ⟨s, -, hrun⟩ := swizzleBuffer_runs (S.reswizzled hre) hS hb
        ((hre.field Buffer.scope fun _ _ => rfl) c ▸ treats.shared)
        ((hre.kept c fresh).trans treats.unswizzled)
        ((hre.field Buffer.layout fun _ _ => rfl) c ▸ hlayout)
      refine ⟨some (c, s), kx.modifyBuffer c ({ · with swizzle := some s }), ?_, ⟨hre.trans (Kernel.Reswizzled.attach hlt), fun c' hc' => ?_⟩, s, rfl⟩
      · rw [KernelM.run_bind_of_ok hrun]
        rfl
      · rw [buffer_modifyBuffer hlt]
        split_ifs with heq
        · rfl
        · rcases List.mem_append.1 hc' with hc' | hc'
          · exact hdone c' hc'
          · exact absurd (List.mem_singleton.1 hc').symm heq)
    ⟨.refl [] k, fun _ h => absurd h List.not_mem_nil⟩
  have hfst : xs.reduceOption.map Prod.fst = shared := reduceOption_map_fst hpairs
  simp only [List.nil_append] at hre hsome
  refine ⟨xs.reduceOption, k', ?_, fun b => ?_, hfst ▸ hre, fun b hb => hsome b ?_⟩
  · rw [KernelM.run_bind_of_ok hmap]
    rfl
  · rw [hfst, hshared]
    exact Kernel.mem_treated
  · exact Kernel.mem_treated.2 hb

end Stage

/-! ### What the analysis reads of a partner -/

/-- What the access analysis reads of the layout of an op's other operand: a fragment whole, a
dense layout only through its rank and innermost axis. -/
def Layout.partnerView : Layout → Fragment ⊕ (Nat × Nat)
  | .fragment f => .inl f
  | .dense d => .inr (d.shape.length, d.innermost)

/-- A cooperative sweep reads of its dense partner only the rank and the innermost axis. -/
theorem cooperativeSweep_congr {site : Site} {op : TileOp} {t : Target} {p q : DenseLayout}
    (hrank : p.shape.length = q.shape.length) (hinner : p.innermost = q.innermost) :
    cooperativeSweep site op (some p) t = cooperativeSweep site op (some q) t := by
  simp only [cooperativeSweep, hrank, hinner]

section Congr

variable {k k' : Kernel} {b : BufferId}

/-- The pattern of an op against a buffer is the same in two kernels that agree on the op and
the buffer, and whose other buffers look alike to the analysis. -/
theorem accessPattern_congr (hb : k'.buffer b = k.buffer b) (ho : ∀ x, k'.op x = k.op x)
    (hp : ∀ c, (k'.buffer c).layout.map Layout.partnerView = (k.buffer c).layout.map Layout.partnerView)
    (t : Target) (x : OpId) : accessPattern k' t x b = accessPattern k t x b := by
  unfold accessPattern
  dsimp only
  rw [hb, ho x]
  split
  · split
    · split
      · refine bind_congr fun origin => bind_congr fun gathered => ?_
        -- Only the partner is read from another buffer.
        rcases hfind : (k.op x).operands.find? (·.buffer != b) with _ | o
        · simp only [hfind, Option.bind_none]
        have hview := hp o.buffer
        rcases h₁ : (k'.buffer o.buffer).layout with _ | ⟨d₁⟩ | ⟨f₁⟩ <;>
          rcases h₂ : (k.buffer o.buffer).layout with _ | ⟨d₂⟩ | ⟨f₂⟩ <;>
          simp [h₁, h₂, Layout.partnerView] at hview
        · simp only [hfind, Option.bind_some, h₁, h₂]
        · obtain ⟨hrank, hinner⟩ := hview
          cases gathered <;>
            simp only [hfind, Option.bind_some, h₁, h₂, Layout.asDense?, cooperativeSweep_congr hrank hinner]
        · simp only [hfind, Option.bind_some, h₁, h₂, hview]
      · rfl
    · rfl
  · rfl

/-- The patterns of a buffer are the same in two kernels that agree on the ops and the buffer,
and whose other buffers look alike to the analysis. -/
theorem accessPatterns_congr (hb : k'.buffer b = k.buffer b) (ho : ∀ x, k'.op x = k.op x)
    (hp : ∀ c, (k'.buffer c).layout.map Layout.partnerView = (k.buffer c).layout.map Layout.partnerView)
    (t : Target) (d : DefUse) : accessPatterns k' t d b = accessPatterns k t d b := by
  simp only [accessPatterns, accessPattern_congr hb ho hp]

end Congr

end TileKernel
