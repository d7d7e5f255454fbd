import TileKernel.Proofs.ConflictFree
import Mathlib.Data.Nat.Log
import Mathlib.Data.List.ReduceOption
import TileKernel.Swizzle.Permutation

/-!
# Which swizzle the optimizer chooses

`swizzleBuffer` lists the members of the configured family for a buffer and attaches the first
under which every access pattern of the buffer is conflict-free.

`SwizzleFamily.candidates_eq` says when listing faults: the search sums a field's end in a 32-bit
word for every width up to the family's widest, so it faults exactly when the widest field at the
highest base reaches `2 ^ 32`, and otherwise answers `SwizzleFamily.listed`.
`SwizzleFamily.listed_listing` says what that list is: every member is a swizzle `make`
accepts, of a kind of the family, no wider than the family allows, with a base that keeps the
widest vector inside one block, and a permutation of the whole buffer; and the list ascends
strictly in kind position, width, base and shift, so no member is tried twice and the choice is
the least conflict-free member in that order. The base is the exponent of the widest vector
rounded up to a power of two (`vectorBase`, `ceilLog2_eq_clog`).

`swizzleWhere_picks_first` says where the choice falls: a stage that succeeds attached to each
buffer it treated the first member under which every pattern has conflict degree 1, and left
alone only the buffers with no accessor or no conflict; a stage that fails for want of a swizzle
names a treated buffer none of whose candidates removes its conflicts.

`Swizzle.guard_exact` says the guard of a swizzle does not wrap: with the field's end counted in
32-bit words, `build` answers a swizzle only when its fields fit in 64 bits as integers, and
faults exactly when the end reaches `2 ^ 32` (`build_faults_past_word`) rather than refusing the
field.
-/

set_option autoImplicit false

namespace TileKernel

/-! ### Rounding up to a power of two -/

/-- `ceilLog2` is the exponent of the least power of two at or above its argument. -/
theorem ceilLog2_eq_clog (n : Nat) : ceilLog2 n = Nat.clog 2 n := by
  unfold ceilLog2
  split_ifs with hn
  · exact (Nat.clog_of_right_le_one hn 2).symm
  · rw [Nat.log2_eq_log_two]
    have above : n - 1 < 2 ^ (Nat.log 2 (n - 1) + 1) := Nat.lt_pow_succ_log_self Nat.one_lt_two _
    have below : 2 ^ Nat.log 2 (n - 1) ≤ n - 1 := Nat.pow_log_le_self 2 (by omega)
    refine le_antisymm ?_ ((Nat.clog_le_iff_le_pow Nat.one_lt_two).2 (by omega))
    -- Below `log (n - 1) + 1` the power would not reach `n`.
    by_contra hlt
    have := (Nat.clog_le_iff_le_pow Nat.one_lt_two).1 (Nat.le_of_lt_succ (Nat.lt_of_not_le hlt))
    omega

theorem ceilLog2Checked_eq_ok {n m : Nat} (h : ceilLog2Checked n = .ok m) : m = Nat.clog 2 n := by
  unfold ceilLog2Checked at h
  split at h
  · cases h
  · rw [← ceilLog2_eq_clog]
    exact (Except.ok.inj h).symm

/-- The base that keeps the widest vector of the patterns inside one aligned block: the exponent
of the widest vector rounded up to a power of two. -/
def vectorBase (ps : List AccessPattern) : Nat :=
  ps.foldl (fun m p => max m (Nat.clog 2 (max p.vector 1))) 0

/-- The running maximum of the rounded vectors, as the search computes it, is `vectorBase`'s. -/
theorem foldlM_ceilLog2_eq_ok : ∀ {ps : List AccessPattern} {init m : Nat},
    ps.foldlM (fun m p => do return max m (← ceilLog2Checked (max p.vector 1))) init = .ok m →
      m = ps.foldl (fun m p => max m (Nat.clog 2 (max p.vector 1))) init
  | [], _, _, h => (Except.ok.inj h).symm
  | p :: ps, init, m, h => by
    rw [List.foldlM_cons] at h
    rcases hp : ceilLog2Checked (max p.vector 1) with fault | e
    · simp [hp, bind, Except.bind] at h
    simp only [hp, bind, Except.bind, pure, Except.pure] at h
    rw [List.foldl_cons, ← ceilLog2Checked_eq_ok hp]
    exact foldlM_ceilLog2_eq_ok h

/-! ### The candidate list -/

theorem Swizzle.make_eq_ok {kind : SwizzleKind} {bits base shift : Nat} {s : Swizzle}
    (h : Swizzle.make kind bits base shift = .ok s) :
    s = ⟨kind, bits, base, shift⟩ ∧ 0 < bits ∧ bits ≤ shift ∧ base + shift + bits ≤ 63 := by
  unfold Swizzle.make at h
  split at h
  · cases h
  · rename_i hok
    exact ⟨(Except.ok.inj h).symm, by omega, by omega, by omega⟩

/-- The order the search tries candidates in: the position of the kind in the family, then the
field width, the base and the shift. -/
def searchKey (p : Nat × Swizzle) : List Nat := [p.1, p.2.bits, p.2.base, p.2.shift]

/-- Blocks of candidates, one per kind in turn, each ascending in width, base and shift, ascend
in the search order once each candidate carries the position of its block. -/
theorem exists_positioned {kinds : List SwizzleKind} {G : SwizzleKind → List Swizzle}
    (hkind : ∀ k, ∀ s ∈ G k, s.kind = k)
    (hsorted : ∀ k, (G k).Pairwise fun a b => [a.bits, a.base, a.shift] < [b.bits, b.base, b.shift]) :
    ∃ ks : List (Nat × Swizzle), ks.map Prod.snd = kinds.flatMap G ∧
      (∀ p ∈ ks, kinds[p.1]? = some p.2.kind) ∧ ks.Pairwise fun a b => searchKey a < searchKey b := by
  refine ⟨kinds.zipIdx.flatMap fun q => (G q.1).map fun s => (q.2, s), ?_, ?_, ?_⟩
  · simp only [List.map_flatMap, List.map_map, Function.comp_def, List.map_id']
    conv_rhs => rw [← List.zipIdx_map_fst 0 kinds, List.flatMap_map]
  · intro p hp
    obtain ⟨q, hq, hpq⟩ := List.mem_flatMap.1 hp
    obtain ⟨s, hs, rfl⟩ := List.mem_map.1 hpq
    rw [hkind q.1 s hs]
    exact List.mem_zipIdx_iff_getElem?.1 hq
  · -- Within a block the position is shared; across blocks it ascends.
    have positions : kinds.zipIdx.Pairwise fun a b => a.2 < b.2 := by
      refine List.pairwise_map.1 ?_
      rw [List.zipIdx_map_snd]
      exact List.pairwise_lt_range'
    rw [List.pairwise_flatMap]
    refine ⟨fun q _ => List.pairwise_map.2 ((hsorted q.1).imp fun h => ?_),
      positions.imp fun hlt x hx y hy => ?_⟩
    · exact List.cons_lt_cons_iff.2 (.inr ⟨rfl, h⟩)
    · obtain ⟨_, -, rfl⟩ := List.mem_map.1 hx
      obtain ⟨_, -, rfl⟩ := List.mem_map.1 hy
      exact List.cons_lt_cons_iff.2 (.inl hlt)

namespace SwizzleFamily

variable (f : SwizzleFamily) (extent minBase rowElems : Nat)

/-- What the family promises of each candidate: `make` accepts it, its kind is one of the
family's, its field is no wider than the family allows (by default the bits of a bank row above
`minBase`), its base keeps `minBase` bits together, and it permutes the whole buffer. -/
def Member (s : Swizzle) : Prop :=
  Swizzle.make s.kind s.bits s.base s.shift = .ok s ∧ s.kind ∈ f.kinds ∧
    s.bits ≤ f.maxBits.getD (Nat.log2 (max rowElems 1) - minBase) ∧ minBase ≤ s.base ∧
    s.isBijectiveOn extent = true

/-- What the candidate list of a family promises: members only, in an order that ascends strictly
in kind position, width, base and shift. -/
structure Listing (L : List Swizzle) : Prop where
  member : ∀ s ∈ L, f.Member extent minBase rowElems s
  ascending : ∃ ks : List (Nat × Swizzle), ks.map Prod.snd = L ∧
    (∀ p ∈ ks, f.kinds[p.1]? = some p.2.kind) ∧ ks.Pairwise fun a b => searchKey a < searchKey b

variable {f extent minBase rowElems}

/-- The swizzles of a grid of widths, bases and shifts, in that nesting, ascend in width, base
and shift when each is the swizzle of its own indices. -/
theorem pairwise_grid {g : Nat → Nat → Nat → Option Swizzle} {B m E : Nat} {S : Nat → Nat → Nat}
    (hg : ∀ bits base shift s, g bits base shift = some s →
      s.bits = bits ∧ s.base = base ∧ s.shift = shift) :
    ((List.range' 1 B).flatMap fun bits => (List.range' m E).flatMap fun base =>
      (List.range' bits (S bits base)).filterMap (g bits base)).Pairwise
        fun a b => [a.bits, a.base, a.shift] < [b.bits, b.base, b.shift] := by
  -- A member of the block of `bits` has that width.
  have width : ∀ {bits s}, s ∈ (List.range' m E).flatMap (fun base =>
      (List.range' bits (S bits base)).filterMap (g bits base)) → s.bits = bits := by
    intro bits s hs
    obtain ⟨base, -, hs⟩ := List.mem_flatMap.1 hs
    obtain ⟨shift, -, hs⟩ := List.mem_filterMap.1 hs
    exact (hg _ _ _ _ hs).1
  have ascending : ∀ a n, (List.range' a n).Pairwise (· < ·) := fun _ _ => List.pairwise_lt_range'
  rw [List.pairwise_flatMap]
  refine ⟨fun bits _ => ?_, (ascending _ _).imp fun hlt x hx y hy => ?_⟩
  · rw [List.pairwise_flatMap]
    refine ⟨fun base _ => ?_, (ascending _ _).imp fun hlt x hx y hy => ?_⟩
    · refine (ascending _ _).filterMap _ fun a a' hlt b hb b' hb' => ?_
      obtain ⟨h₁, h₂, h₃⟩ := hg _ _ _ _ hb
      obtain ⟨h₁', h₂', h₃'⟩ := hg _ _ _ _ hb'
      simp [h₁, h₂, h₃, h₁', h₂', h₃', List.cons_lt_cons_iff, hlt]
    · obtain ⟨_, -, hx⟩ := List.mem_filterMap.1 hx
      obtain ⟨_, -, hy⟩ := List.mem_filterMap.1 hy
      obtain ⟨h₁, h₂, -⟩ := hg _ _ _ _ hx
      obtain ⟨h₁', h₂', -⟩ := hg _ _ _ _ hy
      simp [h₁, h₂, h₁', h₂', List.cons_lt_cons_iff, hlt]
  · simp [width hx, width hy, List.cons_lt_cons_iff, hlt]

/-- The loops of `candidates` list a family's members in the search order, whatever the test
that keeps a grid point, as long as it keeps only swizzles `make` accepts at that point and that
permute the buffer. -/
theorem Listing.of_grid {g : SwizzleKind → Nat → Nat → Nat → Option Swizzle}
    (hg : ∀ kind bits base shift s, g kind bits base shift = some s →
      Swizzle.make kind bits base shift = .ok s ∧ s.isBijectiveOn extent = true) :
    f.Listing extent minBase rowElems (f.kinds.flatMap fun kind =>
      (List.range' 1 (min (f.maxBits.getD (Nat.log2 (max rowElems 1) - minBase)) (Nat.log2 extent))).flatMap
        fun bits => (List.range' minBase (Nat.log2 extent - minBase)).flatMap fun base =>
          (List.range' bits (Nat.log2 extent + 1 - (base + 2 * bits))).filterMap (g kind bits base)) := by
  have fields : ∀ {kind bits base shift s}, g kind bits base shift = some s →
      s = ⟨kind, bits, base, shift⟩ := fun h => (Swizzle.make_eq_ok (hg _ _ _ _ _ h).1).1
  refine ⟨fun s hs => ?_, exists_positioned (fun kind s hs => ?_) fun kind => pairwise_grid ?_⟩
  · simp only [List.mem_flatMap, List.mem_filterMap, List.mem_range'_1] at hs
    obtain ⟨kind, hk, bits, hbits, base, hbase, shift, -, hsome⟩ := hs
    obtain ⟨hmk, hbij⟩ := hg _ _ _ _ _ hsome
    obtain rfl := fields hsome
    refine ⟨hmk, hk, ?_, ?_, hbij⟩ <;> dsimp only <;> omega
  · simp only [List.mem_flatMap, List.mem_filterMap] at hs
    obtain ⟨bits, -, base, -, shift, -, hsome⟩ := hs
    rw [fields hsome]
  · intro bits base shift s hsome
    rw [fields hsome]
    exact ⟨rfl, rfl, rfl⟩

/-- **The candidate list.** Every candidate is a member of the family for the buffer, and the
list ascends strictly in kind position, width, base and shift. -/
theorem listed_listing : f.Listing extent minBase rowElems (f.listed extent minBase rowElems) := by
  unfold listed
  split_ifs with h0
  · exact ⟨fun s hs => absurd hs List.not_mem_nil, ⟨[], rfl, fun p hp => absurd hp List.not_mem_nil, .nil⟩⟩
  refine Listing.of_grid fun kind bits base shift s hsome => ?_
  split at hsome
  · rename_i s' hmk
    split at hsome
    · rename_i hbij
      obtain rfl := Option.some.inj hsome
      exact ⟨hmk, hbij⟩
    · cases hsome
  · cases hsome

/-- **Listing faults only past the 32-bit word.** The search answers the listed members unless
it tries some width at some base, and the end `base + 2 * width` of the widest field at the
highest base reaches `2 ^ 32`. -/
theorem candidates_eq : f.candidates extent minBase rowElems =
    if extent ≠ 0 ∧ f.kinds ≠ [] ∧ 0 < f.maxBits.getD (Nat.log2 (max rowElems 1) - minBase) ∧
        minBase < Nat.log2 extent ∧
        Word.u32.bound ≤ Nat.log2 extent - 1 + 2 * f.maxBits.getD (Nat.log2 (max rowElems 1) - minBase)
    then .error .addOverflow else .ok (f.listed extent minBase rowElems) := by
  unfold candidates
  set w := f.maxBits.getD (Nat.log2 (max rowElems 1) - minBase)
  by_cases htried : extent ≠ 0 ∧ f.kinds ≠ [] ∧ 0 < w ∧ minBase < Nat.log2 extent
  · simp only [if_pos htried]
    by_cases hend : Nat.log2 extent - 1 + w + w < Word.u32.bound
    · -- Both sums fit, and the listing is answered.
      have hreach : Nat.log2 extent - 1 + w < Word.u32.bound := by omega
      rw [if_neg (by omega)]
      simp only [Word.add, Word.fit, if_pos hreach, bind, Except.bind, if_pos hend]
      rfl
    · rw [if_pos ⟨htried.1, htried.2.1, htried.2.2.1, htried.2.2.2, by omega⟩]
      by_cases hreach : Nat.log2 extent - 1 + w < Word.u32.bound
      · simp only [Word.add, Word.fit, if_pos hreach, bind, Except.bind, if_neg hend]
      · simp only [Word.add, Word.fit, if_neg hreach, bind, Except.bind]
  · rw [if_neg htried, if_neg fun h => htried ⟨h.1, h.2.1, h.2.2.1, h.2.2.2.1⟩]
    rfl

theorem candidates_eq_ok {L : List Swizzle} (h : f.candidates extent minBase rowElems = .ok L) :
    L = f.listed extent minBase rowElems := by
  rw [candidates_eq] at h
  split_ifs at h
  exact (Except.ok.inj h).symm

end SwizzleFamily

/-! ### The guard of a swizzle in 32-bit words -/

namespace Swizzle

/-- `make` accepts exactly the fields that are non-empty, lie below their source and end by bit
63. -/
theorem make_eq_ok_iff {kind : SwizzleKind} {bits base shift : Nat} {s : Swizzle} :
    make kind bits base shift = .ok s ↔
      0 < bits ∧ bits ≤ shift ∧ base + shift + bits ≤ 63 ∧ s = ⟨kind, bits, base, shift⟩ := by
  constructor
  · intro h
    obtain ⟨rfl, h₁, h₂, h₃⟩ := make_eq_ok h
    exact ⟨h₁, h₂, h₃, rfl⟩
  · rintro ⟨h₁, h₂, h₃, rfl⟩
    rw [make, if_neg (by omega)]

/-- `build` is `make` unless the field's end leaves the 32-bit word, which it is computed only
once the field is known to be non-empty and below its source. -/
theorem build_eq (kind : SwizzleKind) (bits base shift : Nat) :
    build kind bits base shift =
      if 0 < bits ∧ bits ≤ shift ∧ Word.u32.bound ≤ base + shift + bits then .error .addOverflow
      else .ok (make kind bits base shift) := by
  unfold build
  by_cases hguard : bits = 0 ∨ shift < bits
  · rw [if_pos hguard, if_neg (by omega)]
    rfl
  rw [if_neg hguard]
  by_cases hend : base + shift + bits < Word.u32.bound
  · -- Both sums fit, and the guard is `make`'s.
    have hreach : base + shift < Word.u32.bound := by omega
    rw [if_neg (by omega)]
    simp only [Word.add, Word.fit, if_pos hreach, bind, Except.bind, if_pos hend]
    rfl
  · rw [if_pos (by omega)]
    by_cases hreach : base + shift < Word.u32.bound
    · simp only [Word.add, Word.fit, if_pos hreach, bind, Except.bind, if_neg hend]
    · simp only [Word.add, Word.fit, if_neg hreach, bind, Except.bind]

/-- **The swizzle guard does not wrap.** With the field's end counted in checked 32-bit words,
`build` answers a swizzle exactly when, as integers, its field is non-empty, lies below its source
and ends by bit 63, so that every shift `apply`, `chunkElems` and `span` take is below 64; it
faults exactly when the field's end reaches `2 ^ 32`. A candidate of any family with these fields
meets the same bounds, whatever the family's widest field. -/
theorem guard_exact (kind : SwizzleKind) (bits base shift : Nat) :
    (∀ s, build kind bits base shift = .ok (.ok s) ↔
      0 < bits ∧ bits ≤ shift ∧ base + shift + bits ≤ 63 ∧ s = ⟨kind, bits, base, shift⟩) ∧
    (build kind bits base shift = .error .addOverflow ↔
      0 < bits ∧ bits ≤ shift ∧ Word.u32.bound ≤ base + shift + bits) ∧
    (∀ (f : SwizzleFamily) (extent minBase rowElems : Nat) (L : List Swizzle),
      f.candidates extent minBase rowElems = .ok L → ⟨kind, bits, base, shift⟩ ∈ L →
        0 < bits ∧ bits ≤ shift ∧ base + shift + bits ≤ 63) := by
  have hbound : Word.u32.bound = 4294967296 := rfl
  refine ⟨fun s => ?_, ?_, fun f extent minBase rowElems L hL hs => ?_⟩
  · rw [build_eq, ← make_eq_ok_iff]
    split_ifs with hover
    · -- An end past `2 ^ 32` is far past bit 63, so `make` refuses the field as well.
      simp only [false_iff]
      intro hmk
      obtain ⟨-, -, -, hend⟩ := make_eq_ok hmk
      omega
    · rw [Except.ok.injEq]
  · rw [build_eq]
    split_ifs with hover
    · exact iff_of_true rfl hover
    · exact iff_of_false (by simp) hover
  · rw [SwizzleFamily.candidates_eq_ok hL] at hs
    obtain ⟨-, h₁, h₂, h₃⟩ := make_eq_ok (SwizzleFamily.listed_listing.member _ hs).1
    exact ⟨h₁, h₂, h₃⟩

/-- The narrowest xor swizzle the default family lists for a buffer of 1024 elements with a base
of 4 and 32-element bank rows: its fields fit in a word, and `build` gives it back. -/
theorem narrowXor_guarded :
    (∃ L, ({} : SwizzleFamily).candidates 1024 4 32 = .ok L ∧ (⟨.xor, 1, 4, 1⟩ : Swizzle) ∈ L) ∧
      (∀ s, build .xor 1 4 1 = .ok (.ok s) ↔ 0 < 1 ∧ 1 ≤ 1 ∧ 4 + 1 + 1 ≤ 63 ∧ s = ⟨.xor, 1, 4, 1⟩) ∧
      (build .xor 1 4 1 = .error .addOverflow ↔ 0 < 1 ∧ 1 ≤ 1 ∧ Word.u32.bound ≤ 4 + 1 + 1) ∧
      (∀ (f : SwizzleFamily) (extent minBase rowElems : Nat) (L : List Swizzle),
        f.candidates extent minBase rowElems = .ok L → ⟨.xor, 1, 4, 1⟩ ∈ L →
          0 < 1 ∧ 1 ≤ 1 ∧ 4 + 1 + 1 ≤ 63) :=
  ⟨⟨_, rfl, by decide⟩, guard_exact .xor 1 4 1⟩

/-- One bit at bit 0 with its source `2 ^ 32 - 1` bits above: `make` refuses the field as an
invalid layout, but `build` faults on the field's end before it gets there. -/
theorem build_faults_past_word :
    (∃ e, make .xor 1 0 4294967295 = .error e) ∧ build .xor 1 0 4294967295 = .error .addOverflow :=
  ⟨⟨_, rfl⟩, rfl⟩

end Swizzle

/-! ### Conflict-free swizzles -/

namespace BankModel

variable {m : BankModel} {p : AccessPattern} {eb : Nat} {s : Option Swizzle}

/-- A pattern of conflict degree 1 passes `conflictFree`: every wavefront's words are available
and no bank serves two of them. -/
theorem conflictFree_of_conflictDegree (h : m.conflictDegree p eb s = .ok 1) :
    m.conflictFree p eb s = true := by
  unfold conflictDegree at h
  unfold conflictFree
  split at h
  · rename_i hbanks
    simp [hbanks]
  · rename_i hbanks
    simp only [hbanks, decide_false, Bool.false_or, List.all_eq_true]
    intro wave hw
    obtain ⟨words, hwords, hle⟩ := (foldlM_max_ok (g := m.busiestBank) h).2 wave hw
    rw [hwords]
    exact decide_eq_true hle

end BankModel

/-- Every pattern has conflict degree 1 under the swizzle. -/
def RemovesConflicts (t : Target) (ps : List AccessPattern) (eb : Nat) (s : Swizzle) : Prop :=
  ∀ p ∈ ps, conflictDegree t p eb (some s) = .ok 1

/-- A swizzle that `conflictFreeUnder` rejects leaves a pattern with a conflict. -/
theorem not_removesConflicts {t : Target} {ps : List AccessPattern} {eb : Nat} {s : Swizzle}
    (h : conflictFreeUnder t ps eb s = .ok false) : ¬ RemovesConflicts t ps eb s := by
  intro removes
  unfold conflictFreeUnder at h
  rcases hc : ps.forM fun p => (BankModel.ofTarget t).checkAccesses p eb (some s) with fault | _
  · simp [hc, bind, Except.bind] at h
  simp only [hc, bind, Except.bind, pure, Except.pure, Except.ok.injEq, List.all_eq_false] at h
  obtain ⟨p, hp, hfree⟩ := h
  exact hfree (BankModel.conflictFree_of_conflictDegree (removes p hp))

section Search

variable {α : Type} {p : α → Checked Bool}

/-- A search that finds an element found the first that passes: every element before it was
rejected without fault. -/
theorem findM?_eq_ok_some_first : ∀ {l : List α} {a : α}, l.findM? p = .ok (some a) →
    ∃ pre post, l = pre ++ a :: post ∧ p a = .ok true ∧ ∀ x ∈ pre, p x = .ok false
  | [], a, h => by cases h
  | x :: xs, a, h => by
    rw [List.findM?] at h
    rcases hx : p x with fault | _ | _
    · simp [hx, bind, Except.bind] at h
    · simp only [hx, bind, Except.bind] at h
      obtain ⟨pre, post, rfl, ha, hpre⟩ := findM?_eq_ok_some_first h
      refine ⟨x :: pre, post, rfl, ha, ?_⟩
      rintro y (_ | ⟨_, hy⟩)
      · exact hx
      · exact hpre y hy
    · simp only [hx, bind, Except.bind, pure, Except.pure, Except.ok.injEq, Option.some.injEq] at h
      subst h
      exact ⟨[], xs, rfl, hx, fun y hy => absurd hy List.not_mem_nil⟩

/-- A search that finds nothing rejected every element without fault. -/
theorem findM?_eq_ok_none : ∀ {l : List α}, l.findM? p = .ok none → ∀ x ∈ l, p x = .ok false
  | [], _ => fun x hx => absurd hx List.not_mem_nil
  | x :: xs, h => by
    rw [List.findM?] at h
    rcases hx : p x with fault | _ | _
    · simp [hx, bind, Except.bind] at h
    · simp only [hx, bind, Except.bind] at h
      rintro y (_ | ⟨_, hy⟩)
      · exact hx
      · exact findM?_eq_ok_none h y hy
    · simp [hx, bind, Except.bind, pure, Except.pure] at h

end Search

/-! ### The search for one buffer -/

/-- What the search reads for one buffer: its access patterns, its extent in elements, its
element size, the target's bank row in bytes, and the candidates the family lists for it, in the
order the search tries them. -/
structure SearchData (o : CompileOptions) (k : Kernel) (d : DefUse) (b : BufferId) where
  patterns : List AccessPattern
  extent : Nat
  elemBytes : Nat
  rowBytes : Nat
  candidates : List Swizzle
  patterns_eq : accessPatterns k o.target d b = .ok patterns
  extent_eq : (k.buffer b).elements = .ok extent
  elemBytes_eq : (k.buffer b).dtype.bytes = elemBytes
  rowBytes_eq : o.target.bankRowBytes = .ok rowBytes
  candidates_eq : o.swizzleFamily.candidates extent (vectorBase patterns)
    (max (rowBytes / max elemBytes 1) 1) = .ok candidates

namespace SearchData

variable {o : CompileOptions} {k : Kernel} {d : DefUse} {b : BufferId} (S : SearchData o k d b)

/-- The elements of one bank row. -/
def rowElems : Nat := max (S.rowBytes / max S.elemBytes 1) 1

theorem listing :
    o.swizzleFamily.Listing S.extent (vectorBase S.patterns) S.rowElems S.candidates := by
  rw [SwizzleFamily.candidates_eq_ok S.candidates_eq]
  exact SwizzleFamily.listed_listing

/-- `s` is the first candidate under which every pattern is conflict-free: each candidate before
it leaves a conflict. -/
def FirstRemoving (s : Swizzle) : Prop :=
  ∃ pre post, S.candidates = pre ++ s :: post ∧ RemovesConflicts o.target S.patterns S.elemBytes s ∧
    ∀ s' ∈ pre, ¬ RemovesConflicts o.target S.patterns S.elemBytes s'

end SearchData

/-- The ways the search for one buffer's swizzle can end. -/
inductive SwizzleOutcome (o : CompileOptions) (k : Kernel) (d : DefUse) (b : BufferId) :
    Except LowerError (Option Swizzle) → Prop
  /-- The buffer has no accessor, or none conflicts: nothing is attached. -/
  | unneeded (ps : List AccessPattern) (layout : (k.buffer b).layout.isSome = true)
      (patterns_eq : accessPatterns k o.target d b = .ok ps)
      (free : ps = [] ∨ ∃ w, worstDegree o.target ps (k.buffer b).dtype.bytes none = .ok w ∧ w ≤ 1) :
      SwizzleOutcome o k d b (.ok none)
  /-- An accessor conflicts, and `s` is the first candidate under which none does. -/
  | first (S : SearchData o k d b) (w : Nat) (layout : (k.buffer b).layout.isSome = true)
      (worst : worstDegree o.target S.patterns S.elemBytes none = .ok w) (conflicting : 1 < w)
      (s : Swizzle) (first : S.FirstRemoving s) : SwizzleOutcome o k d b (.ok (some s))
  /-- An accessor conflicts, and no candidate removes every conflict. -/
  | infeasible (S : SearchData o k d b) (w : Nat) (layout : (k.buffer b).layout.isSome = true)
      (worst : worstDegree o.target S.patterns S.elemBytes none = .ok w) (conflicting : 1 < w)
      (none_removes : ∀ s ∈ S.candidates, ¬ RemovesConflicts o.target S.patterns S.elemBytes s) :
      SwizzleOutcome o k d b
        (.error (.swizzleInfeasible (k.buffer b).name (accessorNames k S.patterns) w))
  /-- Any other failure. -/
  | failed (e : LowerError) (not_infeasible : ∀ name acc w, e ≠ .swizzleInfeasible name acc w) :
      SwizzleOutcome o k d b (.error e)

/-- A stage that lifts a faulting computation faults. -/
theorem KernelM.run_liftM_bind_fault {ε α β : Type} {x : Checked α} {f : α → KernelM ε β} {e : Fault}
    {k : Kernel} (hx : x = .error e) : (liftM x >>= f).run k = .error e := by
  rw [KernelM.run_bind, KernelM.run_liftM, hx]

section Outcome

variable {o : CompileOptions} {k k' : Kernel} {d : DefUse} {h : BufferId}

/-- **The search for one buffer.** It ends in one of the ways `SwizzleOutcome` lists, and when it
succeeds it has at most attached a swizzle to the buffer. -/
theorem swizzleBuffer_outcome {r : Except LowerError (Option Swizzle)}
    (hrun : (swizzleBuffer o d h).run k = .ok (r, k')) :
    SwizzleOutcome o k d h r ∧ ∀ x, r = .ok x → Kernel.Reswizzled [h] k k' := by
  unfold swizzleBuffer at hrun
  rw [KernelM.run_get_bind] at hrun
  dsimp only at hrun
  split at hrun
  · rw [KernelM.run_bind, KernelM.run_throw] at hrun
    obtain ⟨rfl, -⟩ := Prod.mk.inj (Except.ok.inj hrun)
    exact ⟨.failed _ fun _ _ _ => LowerError.noConfusion, fun _ h => nomatch h⟩
  rename_i hlayout
  have layout : (k.buffer h).layout.isSome = true := by
    simpa [Option.isNone_iff_eq_none, Option.isSome_iff_ne_none] using hlayout
  rcases hps : accessPatterns k o.target d h with fault | ps
  · rw [KernelM.run_liftM_bind_fault hps] at hrun
    cases hrun
  rw [KernelM.run_bind_of_ok (KernelM.run_liftM_eq_ok.2 ⟨hps, rfl⟩)] at hrun
  split at hrun
  · -- No accessor.
    rename_i hempty
    obtain ⟨rfl, rfl⟩ := Prod.mk.inj (Except.ok.inj hrun)
    exact ⟨.unneeded ps layout hps (.inl (List.isEmpty_iff.1 hempty)), fun _ _ => .refl [h] k⟩
  rcases hw : worstDegree o.target ps (k.buffer h).dtype.bytes none with fault | w
  · rw [KernelM.run_liftM_bind_fault hw] at hrun
    cases hrun
  rw [KernelM.run_bind_of_ok (KernelM.run_liftM_eq_ok.2 ⟨hw, rfl⟩)] at hrun
  split at hrun
  · -- No conflict.
    rename_i hle
    obtain ⟨rfl, rfl⟩ := Prod.mk.inj (Except.ok.inj hrun)
    exact ⟨.unneeded ps layout hps (.inr ⟨w, hw, hle⟩), fun _ _ => .refl [h] k⟩
  rename_i hgt
  rcases hmb : ps.foldlM (fun m p => do return max m (← ceilLog2Checked (max p.vector 1))) 0 with
    fault | mb
  · rw [KernelM.run_liftM_bind_fault hmb] at hrun
    cases hrun
  rw [KernelM.run_bind_of_ok (KernelM.run_liftM_eq_ok.2 ⟨hmb, rfl⟩)] at hrun
  rcases hrb : o.target.bankRowBytes with fault | rb
  · rw [KernelM.run_liftM_bind_fault hrb] at hrun
    cases hrun
  rw [KernelM.run_bind_of_ok (KernelM.run_liftM_eq_ok.2 ⟨hrb, rfl⟩)] at hrun
  rcases hn : (k.buffer h).elements with fault | n
  · rw [KernelM.run_liftM_bind_fault hn] at hrun
    cases hrun
  rw [KernelM.run_bind_of_ok (KernelM.run_liftM_eq_ok.2 ⟨hn, rfl⟩)] at hrun
  obtain rfl : mb = vectorBase ps := foldlM_ceilLog2_eq_ok hmb
  rcases hcs : o.swizzleFamily.candidates n (vectorBase ps) (max (rb / max (k.buffer h).dtype.bytes 1) 1)
    with fault | cs
  · rw [KernelM.run_liftM_bind_fault hcs] at hrun
    cases hrun
  rw [KernelM.run_bind_of_ok (KernelM.run_liftM_eq_ok.2 ⟨hcs, rfl⟩)] at hrun
  -- The search reads exactly the data of the buffer.
  let S : SearchData o k d h := ⟨ps, n, _, rb, cs, hps, hn, rfl, hrb, hcs⟩
  rcases hf : cs.findM? (conflictFreeUnder o.target ps (k.buffer h).dtype.bytes) with fault | found
  · rw [KernelM.run_liftM_bind_fault hf] at hrun
    cases hrun
  rw [KernelM.run_bind_of_ok (KernelM.run_liftM_eq_ok.2 ⟨hf, rfl⟩)] at hrun
  cases found with
  | none =>
    rw [KernelM.run_throw] at hrun
    obtain ⟨rfl, rfl⟩ := Prod.mk.inj (Except.ok.inj hrun)
    exact ⟨.infeasible S w layout hw (by omega) fun s hs =>
      not_removesConflicts (findM?_eq_ok_none hf s hs), fun _ h => nomatch h⟩
  | some s =>
    obtain ⟨pre, post, hsplit, hs, hpre⟩ := findM?_eq_ok_some_first hf
    have outcome : SwizzleOutcome o k d h (.ok (some s)) :=
      .first S w layout hw (by omega) s ⟨pre, post, hsplit, conflictDegree_of_conflictFreeUnder hs,
        fun s' hs' => not_removesConflicts (hpre s' hs')⟩
    rw [KernelM.run_bind, KernelM.run_lift] at hrun
    rcases hx : (KernelM.updateChecked fun x => x.attachSwizzle h s).run k with
      fault | ⟨_ | _, k₂⟩ <;> simp only [hx] at hrun
    · cases hrun
    · -- Attaching failed.
      obtain ⟨rfl, rfl⟩ := Prod.mk.inj (Except.ok.inj hrun)
      exact ⟨.failed _ fun _ _ _ => LowerError.noConfusion, fun _ h => nomatch h⟩
    · obtain ⟨rfl, rfl⟩ := Prod.mk.inj (Except.ok.inj hrun)
      have attached := KernelM.run_updateChecked.1 hx
      rw [attachSwizzle_ok attached]
      exact ⟨outcome, fun _ _ => Kernel.Reswizzled.attach (Kernel.attachSwizzle_lt attached)⟩

end Outcome

/-! ### Searches in kernels that differ only in swizzles -/

theorem Kernel.Reswizzled.symm {hs : List BufferId} {k k' : Kernel} (h : Kernel.Reswizzled hs k k') :
    Kernel.Reswizzled hs k' k where
  ops := h.ops.symm
  body := h.body.symm
  loops := h.loops.symm
  removed := h.removed.symm
  size := h.size.symm
  buffer b := by
    rw [h.buffer b]
  kept b hb := (h.kept b hb).symm

section Transport

variable {o : CompileOptions} {k k' : Kernel} {d : DefUse} {b : BufferId} {hs : List BufferId}

/-- The search data of a buffer, read in a kernel that differs only in swizzles. -/
def SearchData.reswizzled (S : SearchData o k d b) (h : Kernel.Reswizzled hs k k') :
    SearchData o k' d b where
  patterns := S.patterns
  extent := S.extent
  elemBytes := S.elemBytes
  rowBytes := S.rowBytes
  patterns_eq := by rw [h.accessPatterns]; exact S.patterns_eq
  extent_eq := by rw [h.field Buffer.elements fun _ _ => rfl]; exact S.extent_eq
  elemBytes_eq := by rw [h.field (·.dtype.bytes) fun _ _ => rfl]; exact S.elemBytes_eq
  candidates := S.candidates
  rowBytes_eq := S.rowBytes_eq
  candidates_eq := S.candidates_eq

theorem accessorNames_reswizzled (h : Kernel.Reswizzled hs k k') (ps : List AccessPattern) :
    accessorNames k' ps = accessorNames k ps := by
  simp only [accessorNames, h.op]

/-- A search outcome reads only what swizzling leaves alone. -/
theorem SwizzleOutcome.reswizzled {r : Except LowerError (Option Swizzle)}
    (hr : SwizzleOutcome o k d b r) (h : Kernel.Reswizzled hs k k') : SwizzleOutcome o k' d b r := by
  have layout := h.field (·.layout.isSome) fun _ _ => rfl
  cases hr with
  | unneeded ps hl hps free =>
    refine .unneeded ps (layout b ▸ hl) (by rw [h.accessPatterns]; exact hps) ?_
    rwa [h.field (·.dtype.bytes) fun _ _ => rfl]
  | first S w hl worst conflicting s first =>
    exact .first (S.reswizzled h) w (layout b ▸ hl) worst conflicting s first
  | infeasible S w hl worst conflicting none_removes =>
    rw [← h.field Buffer.name fun _ _ => rfl, ← accessorNames_reswizzled h]
    exact .infeasible (S.reswizzled h) w (layout b ▸ hl) worst conflicting none_removes
  | failed e not_infeasible => exact .failed e not_infeasible

end Transport

/-! ### A swizzle stage -/

/-- A map whose successful steps each relate their kernels by a preorder `P` and that fails,
failed at a step on one of its elements, from a kernel that `P` relates to the start. -/
theorem KernelM.run_mapM_error {ε γ β : Type} {f : γ → KernelM ε β} (P : Kernel → Kernel → Prop)
    (refl : ∀ k, P k k) (trans : ∀ {k₁ k₂ k₃}, P k₁ k₂ → P k₂ k₃ → P k₁ k₃) {e : ε} :
    ∀ {l : List γ} {k k' : Kernel},
      (∀ c ∈ l, ∀ {b k₁ k₂}, (f c).run k₁ = .ok (.ok b, k₂) → P k₁ k₂) →
      (l.mapM f).run k = .ok (.error e, k') →
      ∃ c ∈ l, ∃ k₁ k₂, P k k₁ ∧ (f c).run k₁ = .ok (.error e, k₂)
  | [], k, k', _, h => by
    rw [List.mapM_nil, KernelM.run_pure] at h
    nomatch Prod.mk.inj (Except.ok.inj h)
  | c :: l, k, k', step, h => by
    rw [List.mapM_cons] at h
    rcases KernelM.run_bind_eq_error.1 h with h₁ | ⟨b, k₁, h₁, h⟩
    · exact ⟨c, List.mem_cons_self, k, k', refl k, h₁⟩
    rcases KernelM.run_bind_eq_error.1 h with h₂ | ⟨bs, k₂, -, h⟩
    · obtain ⟨c', hc', k₃, k₄, hP, h'⟩ :=
        run_mapM_error P refl trans (fun c' hc' => step c' (List.mem_cons_of_mem _ hc')) h₂
      exact ⟨c', List.mem_cons_of_mem _ hc', k₃, k₄, trans (step c List.mem_cons_self h₁) hP, h'⟩
    · rw [KernelM.run_pure] at h
      nomatch Prod.mk.inj (Except.ok.inj h)

/-- The buffers a swizzle stage treats: shared buffers that are not marked `noSwizzle`, carry no
swizzle, are not ring instances, and that `wanted` admits. -/
structure Kernel.Treats (k : Kernel) (wanted : BufferId → Bool) (b : BufferId) : Prop where
  lt : b.idx < k.buffers.size
  shared : (k.buffer b).scope = .shared
  marked : (k.buffer b).noSwizzle = false
  unswizzled : (k.buffer b).swizzle = none
  owned : (k.buffer b).instanceOf = none
  wanted : wanted b = true

section Stage

variable {o : CompileOptions} {wanted : BufferId → Bool} {k k' : Kernel}

theorem Kernel.mem_treated {b : BufferId} :
    b ∈ k.bufferIds.filter (fun h => (k.buffer h).scope == .shared && !(k.buffer h).noSwizzle &&
      (k.buffer h).swizzle.isNone && (k.buffer h).instanceOf.isNone && wanted h) ↔ k.Treats wanted b := by
  simp only [List.mem_filter, Kernel.mem_bufferIds, Bool.and_eq_true, beq_iff_eq, Bool.not_eq_true',
    Option.isNone_iff_eq_none]
  exact ⟨fun ⟨lt, ⟨⟨⟨shared, marked⟩, unswizzled⟩, owned⟩, wanted⟩ =>
      ⟨lt, shared, marked, unswizzled, owned, wanted⟩,
    fun t => ⟨t.lt, ⟨⟨⟨t.shared, t.marked⟩, t.unswizzled⟩, t.owned⟩, t.wanted⟩⟩

/-- One step of the stage: the search for a buffer, its swizzle paired with the buffer. -/
theorem swizzleStep_ok {d : DefUse} {c : BufferId} {x : Option (BufferId × Swizzle)} {k₁ k₂ : Kernel}
    (hs : (swizzleBuffer o d c >>= fun r => pure (r.map fun s => (c, s))).run k₁ = .ok (.ok x, k₂)) :
    Kernel.Reswizzled [c] k₁ k₂ ∧ SwizzleOutcome o k₂ d c (.ok (x.map Prod.snd)) ∧
      ∀ y, x = some y → y.1 = c := by
  obtain ⟨r, k₃, h₁, h₂⟩ := KernelM.run_bind_eq_ok.1 hs
  rw [KernelM.run_pure] at h₂
  obtain ⟨hx, rfl⟩ := Prod.mk.inj (Except.ok.inj h₂)
  obtain rfl := Except.ok.inj hx
  obtain ⟨outcome, frame⟩ := swizzleBuffer_outcome h₁
  have hre := frame r rfl
  refine ⟨hre, ?_, fun y hy => ?_⟩
  · simpa [Option.map_map, Function.comp_def] using outcome.reswizzled hre
  · obtain ⟨s, -, rfl⟩ := Option.map_eq_some_iff.1 hy
    rfl


/-- What a swizzle stage does to each buffer it treats, read in the kernel it starts from: the
buffers it paired with a swizzle had that swizzle found for them, the others needed none, and a
failure is the failure of the search for one of them. -/
theorem swizzleWhere_outcomes {r : Except LowerError (List (BufferId × Swizzle))}
    (hrun : (swizzleWhere o wanted).run k = .ok (r, k')) :
    (∀ chosen, r = .ok chosen →
      (∀ b s, (b, s) ∈ chosen →
        k.Treats wanted b ∧ SwizzleOutcome o k (DefUse.build k) b (.ok (some s))) ∧
      ∀ b, k.Treats wanted b → b ∉ chosen.map Prod.fst →
        SwizzleOutcome o k (DefUse.build k) b (.ok none)) ∧
    ∀ e, r = .error e → ∃ b, k.Treats wanted b ∧ SwizzleOutcome o k (DefUse.build k) b (.error e) := by
  unfold swizzleWhere at hrun
  rw [KernelM.run_get_bind] at hrun
  dsimp only at hrun
  rw [KernelM.run_bind] at hrun
  -- Every step only swizzles, so the kernels along the map differ from the start in swizzles.
  have refl : ∀ k₁, ∃ hs, Kernel.Reswizzled hs k₁ k₁ := fun k₁ => ⟨[], .refl [] k₁⟩
  have trans : ∀ {k₁ k₂ k₃ : Kernel}, (∃ hs, Kernel.Reswizzled hs k₁ k₂) →
      (∃ hs, Kernel.Reswizzled hs k₂ k₃) → ∃ hs, Kernel.Reswizzled hs k₁ k₃ := by
    intro k₁ k₂ k₃ h₁ h₂
    obtain ⟨_, h₁⟩ := h₁
    obtain ⟨_, h₂⟩ := h₂
    exact ⟨_, h₁.trans h₂⟩
  split at hrun
  · rename_i bs k₁ hmap
    rw [KernelM.run_pure] at hrun
    obtain ⟨rfl, rfl⟩ := Prod.mk.inj (Except.ok.inj hrun)
    obtain ⟨⟨hs, hre⟩, results⟩ := KernelM.run_mapM_ok (fun k₁ k₂ => ∃ hs, Kernel.Reswizzled hs k₁ k₂)
      (fun c x kx => SwizzleOutcome o kx (DefUse.build k) c (.ok (x.map Prod.snd)) ∧
        ∀ y, x = some y → y.1 = c)
      refl trans (fun hr hre => by
        obtain ⟨_, hre⟩ := hre
        exact ⟨hr.1.reswizzled hre, hr.2⟩)
      (fun _ _ {_ _ _} hs => by
        obtain ⟨hre, outcome, pairs⟩ := swizzleStep_ok hs
        exact ⟨⟨_, hre⟩, outcome, pairs⟩) hmap
    refine ⟨fun chosen hc => ?_, fun _ he => nomatch he⟩
    obtain rfl := Except.ok.inj hc
    refine ⟨fun b s hbs => ?_, fun b hb habsent => ?_⟩
    · obtain ⟨c, hc, hR⟩ := forall₂_exists_of_mem_right results (List.reduceOption_mem_iff.1 hbs)
      obtain rfl : c = b := (hR.2 (b, s) rfl).symm
      exact ⟨Kernel.mem_treated.1 hc, hR.1.reswizzled hre.symm⟩
    · obtain ⟨x, hx, hR⟩ := forall₂_exists_of_mem_left results (Kernel.mem_treated.2 hb)
      cases x with
      | some y =>
        exact absurd (List.mem_map.2 ⟨y, List.reduceOption_mem_iff.2 hx, hR.2 y rfl⟩) habsent
      | none => exact hR.1.reswizzled hre.symm
  · rename_i e k₁ hmap
    obtain ⟨rfl, rfl⟩ := Prod.mk.inj (Except.ok.inj hrun)
    refine ⟨fun _ he => (nomatch he), fun e' he => ?_⟩
    obtain rfl := Except.error.inj he
    obtain ⟨c, hc, k₂, k₃, ⟨hs, hre⟩, hf⟩ := KernelM.run_mapM_error
      (fun k₁ k₂ => ∃ hs, Kernel.Reswizzled hs k₁ k₂) refl trans
      (fun _ _ {_ _ _} hs => ⟨_, (swizzleStep_ok hs).1⟩) hmap
    -- The step that failed is the search for `c`, from a kernel that differs from the start only
    -- in swizzles.
    rcases KernelM.run_bind_eq_error.1 hf with h₁ | ⟨r', k₄, -, h₂⟩
    · exact ⟨c, Kernel.mem_treated.1 hc, (swizzleBuffer_outcome h₁).1.reswizzled hre.symm⟩
    · rw [KernelM.run_pure] at h₂
      nomatch Prod.mk.inj (Except.ok.inj h₂)
  · cases hrun

/-- **The swizzle stage picks the first conflict-free candidate.** When the stage succeeds, each
buffer it attached a swizzle to is one it treats, has a layout, conflicts without a swizzle, and
got the first member of its candidate list under which every access pattern has conflict degree
1; the list holds members of the family only, in strictly ascending search order; and every
treated buffer it left alone has no accessor or no conflict. When it fails for want of a
swizzle, the buffer it names is one it treats, with conflicting accessors, and no candidate
removes all of its conflicts. Everything is read in the kernel the stage started from. -/
theorem swizzleWhere_picks_first {r : Except LowerError (List (BufferId × Swizzle))}
    (hrun : (swizzleWhere o wanted).run k = .ok (r, k')) :
    (∀ chosen, r = .ok chosen →
      (∀ b s, (b, s) ∈ chosen → k.Treats wanted b ∧ (k.buffer b).layout.isSome = true ∧
        ∃ S : SearchData o k (DefUse.build k) b,
          o.swizzleFamily.Listing S.extent (vectorBase S.patterns) S.rowElems S.candidates ∧
          (∃ w, worstDegree o.target S.patterns S.elemBytes none = .ok w ∧ 1 < w) ∧
          S.FirstRemoving s) ∧
      ∀ b, k.Treats wanted b → b ∉ chosen.map Prod.fst →
        ∃ ps, accessPatterns k o.target (DefUse.build k) b = .ok ps ∧
          (ps = [] ∨ ∃ w, worstDegree o.target ps (k.buffer b).dtype.bytes none = .ok w ∧ w ≤ 1)) ∧
    ∀ name acc w, r = .error (.swizzleInfeasible name acc w) →
      ∃ b, k.Treats wanted b ∧ name = (k.buffer b).name ∧ ∃ S : SearchData o k (DefUse.build k) b,
        o.swizzleFamily.Listing S.extent (vectorBase S.patterns) S.rowElems S.candidates ∧
        acc = accessorNames k S.patterns ∧ worstDegree o.target S.patterns S.elemBytes none = .ok w ∧
        1 < w ∧ ∀ s ∈ S.candidates, ¬ RemovesConflicts o.target S.patterns S.elemBytes s := by
  obtain ⟨succeeded, failed⟩ := swizzleWhere_outcomes hrun
  refine ⟨fun chosen hc => ⟨fun b s hbs => ?_, fun b hb habsent => ?_⟩, fun name acc w he => ?_⟩
  · obtain ⟨treats, outcome⟩ := (succeeded chosen hc).1 b s hbs
    cases outcome with
    | first S w hl worst conflicting s first =>
      exact ⟨treats, hl, S, S.listing, ⟨w, worst, conflicting⟩, first⟩
  · cases (succeeded chosen hc).2 b hb habsent with
    | unneeded ps hl hps free => exact ⟨ps, hps, free⟩
  · obtain ⟨b, treats, outcome⟩ := failed _ he
    cases outcome with
    | infeasible S w hl worst conflicting none_removes =>
      exact ⟨b, treats, rfl, S, S.listing, rfl, worst, conflicting, none_removes⟩
    | failed e ne => exact absurd rfl (ne _ _ _)

/-- A copy of a global `f32` tile into an 8-column window of a wider shared buffer, both with
row-major layouts. -/
def windowCopy : Kernel where
  name := "window"
  buffers := #[
    { name := "g", shape := [8, 8], dtype := Scalar.f32, scope := .global,
      layout := some (.dense (DenseLayout.rowMajor [8, 8])) },
    { name := "s", shape := [8, 32], dtype := Scalar.f32, scope := .shared,
      layout := some (.dense (DenseLayout.rowMajor [8, 32])) }]
  ops := #[
    { name := "load", kind := .copy none false, inputs := [Operand.whole ⟨0⟩],
      outputs := [Operand.stepped ⟨1⟩ 1 8] }]
  body := [.op ⟨0⟩]

/-- A run that answers `v` when read through `Option` ends in `v`. Concrete runs are evaluated
this way, since a kernel has no decidable equality. -/
theorem KernelM.run_eq_of_answer {ε α : Type} {x : KernelM ε α} {v : α}
    (h : ((x.run k).toOption.bind (·.1.toOption)) = some v) : ∃ k', x.run k = .ok (.ok v, k') := by
  rcases run : x.run k with fault | ⟨r, k'⟩
  · simp [run, Except.toOption] at h
  rcases r with e | l
  · simp [run, Except.toOption] at h
  obtain rfl : l = v := by simpa [run, Except.toOption] using h
  exact ⟨k', rfl⟩

/-- The window's rows start 32 words apart, in one bank: the stage swizzles the shared buffer
with `xor(bits=2, base=3, shift=2)`. -/
theorem windowCopy_optimized :
    ∃ k', (optimizeSwizzles { target := Target.sm80 }).run windowCopy =
      .ok (.ok [(⟨1⟩, ⟨.xor, 2, 3, 2⟩)], k') := by
  apply KernelM.run_eq_of_answer
  -- With the sorts read as insertion sorts, the kernel evaluates the whole stage.
  simp only [optimizeSwizzles, swizzleWhere, swizzleBuffer, worstDegree, conflictDegree,
    BankModel.conflictDegree, BankModel.busiestBank_eq_insertionSort]
  delta conflictFreeUnder
  simp only [BankModel.conflictFree, BankModel.busiestBank_eq_insertionSort]
  decide +kernel

/-- `xor(bits=2, base=3, shift=2)` is the first conflict-free candidate for the window's buffer. -/
theorem windowCopy_swizzled :
    ∃ k', (optimizeSwizzles { target := Target.sm80 }).run windowCopy =
        .ok (.ok [(⟨1⟩, ⟨.xor, 2, 3, 2⟩)], k') ∧
      windowCopy.Treats (fun _ => true) ⟨1⟩ ∧
      ∃ S : SearchData { target := Target.sm80 } windowCopy (DefUse.build windowCopy) ⟨1⟩,
        S.FirstRemoving ⟨.xor, 2, 3, 2⟩ := by
  obtain ⟨k', run⟩ := windowCopy_optimized
  obtain ⟨treats, -, S, -, -, first⟩ :=
    ((swizzleWhere_picks_first run).1 _ rfl).1 ⟨1⟩ ⟨.xor, 2, 3, 2⟩ List.mem_cons_self
  exact ⟨k', run, treats, S, first⟩

end Stage

/-! ### Vectors the chosen swizzle keeps whole -/

/-- A swizzle moves a run of offsets inside one aligned block of `2 ^ base` as a whole: it keeps
the low bits, and the field and the source it reads lie above them. -/
theorem Swizzle.apply_add_of_lt (s : Swizzle) {x i : Nat} (h : x % 2 ^ s.base + i < 2 ^ s.base) :
    s.apply (x + i) = s.apply x + i := by
  have hB := Nat.two_pow_pos s.base
  have hsplit : x + i = (x % 2 ^ s.base + i) + 2 ^ s.base * (x / 2 ^ s.base) := by
    have := Nat.mod_add_div x (2 ^ s.base)
    omega
  -- Adding `i` changes only the low bits.
  have hdiv : (x + i) / 2 ^ s.base = x / 2 ^ s.base := by
    rw [hsplit, Nat.add_mul_div_left _ _ hB, Nat.div_eq_of_lt h, Nat.zero_add]
  have hmod : (x + i) % 2 ^ s.base = x % 2 ^ s.base + i := by
    rw [hsplit, Nat.add_mul_mod_self_left, Nat.mod_eq_of_lt h]
  have hfield : s.field (x + i) = s.field x := by rw [Swizzle.field_def, Swizzle.field_def, hdiv]
  have hsource : s.source (x + i) = s.source x := by
    rw [Swizzle.source_def, Swizzle.source_def, Nat.pow_add, ← Nat.div_div_eq_div_mul, ← Nat.div_div_eq_div_mul, hdiv]
  have hspan : (x + i) / s.span = x / s.span := by
    rw [Swizzle.span_def, ← Nat.div_div_eq_div_mul, ← Nat.div_div_eq_div_mul, hdiv]
  rw [Swizzle.apply_eq, Swizzle.apply_eq s x, hmod, hfield, hsource, hspan]
  exact Nat.add_right_comm _ _ _

/-- A run inside one aligned block of `2 ^ c` lies inside the aligned block of `2 ^ n` around
it, for every `n ≥ c`. -/
theorem mod_two_pow_add_le {x e c n : Nat} (hc : c ≤ n) (h : x % 2 ^ c + e ≤ 2 ^ c) :
    x % 2 ^ n + e ≤ 2 ^ n := by
  obtain ⟨m, rfl⟩ := Nat.exists_eq_add_of_le hc
  rw [Nat.pow_add, Nat.mod_mul]
  have hq : x / 2 ^ c % 2 ^ m + 1 ≤ 2 ^ m := Nat.mod_lt _ (Nat.two_pow_pos m)
  have hblocks : 2 ^ c * (x / 2 ^ c % 2 ^ m) + 2 ^ c ≤ 2 ^ c * 2 ^ m :=
    calc 2 ^ c * (x / 2 ^ c % 2 ^ m) + 2 ^ c = 2 ^ c * (x / 2 ^ c % 2 ^ m + 1) := (Nat.mul_succ _ _).symm
      _ ≤ 2 ^ c * 2 ^ m := Nat.mul_le_mul_left _ hq
  omega

/-- The running maximum of `vectorBase` is at least its start and every pattern's value. -/
theorem foldl_vectorBase_ge : ∀ {ps : List AccessPattern} {init : Nat},
    init ≤ ps.foldl (fun m p => max m (Nat.clog 2 (max p.vector 1))) init ∧
      ∀ p ∈ ps, Nat.clog 2 (max p.vector 1) ≤ ps.foldl (fun m p => max m (Nat.clog 2 (max p.vector 1))) init
  | [], _ => ⟨le_refl _, fun _ hp => absurd hp List.not_mem_nil⟩
  | p :: ps, init => by
    obtain ⟨hinit, hrest⟩ := @foldl_vectorBase_ge ps (max init (Nat.clog 2 (max p.vector 1)))
    refine ⟨(le_max_left _ _).trans hinit, ?_⟩
    rintro q (_ | ⟨_, hq⟩)
    · exact (le_max_right _ _).trans hinit
    · exact hrest q hq

theorem le_vectorBase {ps : List AccessPattern} {p : AccessPattern} (hp : p ∈ ps) :
    Nat.clog 2 (max p.vector 1) ≤ vectorBase ps :=
  foldl_vectorBase_ge.2 p hp

section Vectors

variable {o : CompileOptions} {wanted : BufferId → Bool} {k k' : Kernel}

/-- **The chosen swizzle keeps every aligned vector whole.** Every lane access of a buffer the
stage swizzled that lies inside one aligned block of its pattern's vector, rounded up to a power
of two, is mapped to as many consecutive addresses: the chosen base is at least every rounded
vector. An access that crosses such a block is not protected. -/
theorem swizzleWhere_keeps_aligned_vectors {chosen : List (BufferId × Swizzle)}
    (hrun : (swizzleWhere o wanted).run k = .ok (.ok chosen, k')) {b : BufferId} {s : Swizzle}
    (hbs : (b, s) ∈ chosen) :
    ∃ ps, accessPatterns k o.target (DefUse.build k) b = .ok ps ∧
      ∀ p ∈ ps, ∀ phase ∈ p.phases, ∀ a ∈ phase,
        a.offset % 2 ^ Nat.clog 2 (max p.vector 1) + a.elems ≤ 2 ^ Nat.clog 2 (max p.vector 1) →
          ∀ i < a.elems, s.apply (a.offset + i) = s.apply a.offset + i := by
  obtain ⟨-, outcome⟩ := ((swizzleWhere_outcomes hrun).1 chosen rfl).1 b s hbs
  cases outcome with
  | first S w hl worst conflicting s first =>
    obtain ⟨pre, post, hsplit, -, -⟩ := first
    have hmem : s ∈ S.candidates := by
      rw [hsplit]
      exact List.mem_append_right _ List.mem_cons_self
    have hbase : vectorBase S.patterns ≤ s.base := (S.listing.member s hmem).2.2.2.1
    refine ⟨S.patterns, S.patterns_eq, fun p hp phase _ a _ hblock i hi => s.apply_add_of_lt ?_⟩
    have := mod_two_pow_add_le ((le_vectorBase hp).trans hbase) hblock
    omega

/-- In the window copy every lane access is a whole aligned vector, so the chosen swizzle keeps
each one whole. -/
theorem windowCopy_vectors_whole :
    ∃ ps, accessPatterns windowCopy Target.sm80 (DefUse.build windowCopy) ⟨1⟩ = .ok ps ∧
      ∀ p ∈ ps, ∀ phase ∈ p.phases, ∀ a ∈ phase,
        a.offset % 2 ^ Nat.clog 2 (max p.vector 1) + a.elems ≤ 2 ^ Nat.clog 2 (max p.vector 1) →
          ∀ i < a.elems, Swizzle.apply ⟨.xor, 2, 3, 2⟩ (a.offset + i) =
            Swizzle.apply ⟨.xor, 2, 3, 2⟩ a.offset + i := by
  obtain ⟨k', run⟩ := windowCopy_optimized
  exact swizzleWhere_keeps_aligned_vectors run List.mem_cons_self

/-- Chunks of three elements copied into a twelve-column window of a 48-column shared buffer. -/
def oddChunkCopy : Kernel where
  name := "chunks"
  buffers := #[
    { name := "g", shape := [32, 12], dtype := Scalar.f32, scope := .global,
      layout := some (.dense (DenseLayout.rowMajor [32, 12])) },
    { name := "s", shape := [32, 48], dtype := Scalar.f32, scope := .shared,
      layout := some (.dense (DenseLayout.rowMajor [32, 48])) }]
  ops := #[
    { name := "load", kind := .copy (some 3) false, inputs := [Operand.whole ⟨0⟩],
      outputs := [Operand.stepped ⟨1⟩ 1 12] }]
  body := [.op ⟨0⟩]

/-- Rounding the vector up to a power of two protects only the chunks that start at a multiple of
it. Chunks of three start at multiples of three, so on a target of 16 banks the stage chooses
`rotate(bits=2, base=2, shift=2)`, and lane 5's chunk at offset 51, which crosses a block of four,
is split: 51 and 52 go to 63 and 48. -/
theorem oddChunkCopy_splits_chunk :
    ∃ k', (optimizeSwizzles { target := { Target.sm80 with bankCount := 16 } }).run oddChunkCopy =
        .ok (.ok [(⟨1⟩, ⟨.rotate, 2, 2, 2⟩)], k') ∧
      ∃ ps, accessPatterns oddChunkCopy { Target.sm80 with bankCount := 16 }
          (DefUse.build oddChunkCopy) ⟨1⟩ = .ok ps ∧
        ∃ p ∈ ps, ∃ phase ∈ p.phases, ⟨5, 51, 3⟩ ∈ phase ∧
          Swizzle.apply ⟨.rotate, 2, 2, 2⟩ (51 + 1) ≠ Swizzle.apply ⟨.rotate, 2, 2, 2⟩ 51 + 1 := by
  obtain ⟨k', run⟩ := KernelM.run_eq_of_answer (x := optimizeSwizzles
      { target := { Target.sm80 with bankCount := 16 } }) (k := oddChunkCopy)
      (v := [(⟨1⟩, ⟨.rotate, 2, 2, 2⟩)]) (by
    simp only [optimizeSwizzles, swizzleWhere, swizzleBuffer, worstDegree, conflictDegree,
      BankModel.conflictDegree, BankModel.busiestBank_eq_insertionSort]
    delta conflictFreeUnder
    simp only [BankModel.conflictFree, BankModel.busiestBank_eq_insertionSort]
    decide +kernel)
  have lane5 : ((accessPatterns oddChunkCopy { Target.sm80 with bankCount := 16 }
      (DefUse.build oddChunkCopy) ⟨1⟩).toOption.map
        fun ps => ps.any fun p => p.phases.any fun ph => ph.contains ⟨5, 51, 3⟩) = some true := by
    decide +kernel
  refine ⟨k', run, ?_⟩
  rcases pats : accessPatterns oddChunkCopy { Target.sm80 with bankCount := 16 }
    (DefUse.build oddChunkCopy) ⟨1⟩ with e | ps
  · simp [pats, Except.toOption] at lane5
  obtain ⟨p, hp, phase, hphase, ha⟩ : ∃ p ∈ ps, ∃ phase ∈ p.phases, ⟨5, 51, 3⟩ ∈ phase := by
    simpa [pats, Except.toOption] using lane5
  exact ⟨ps, rfl, p, hp, phase, hphase, ha, by decide⟩

end Vectors

end TileKernel
