import TileKernel.Proofs.GemmBuild
import TileKernel.Proofs.AssignmentOrder
import TileKernel.Proofs.SwizzleProgress

/-!
# The reference product's layouts and swizzles

Lowering `Catalog.gemmKernel kTiles depth` for the `sm80` target starts with two stages whose
outcome does not depend on the trip count or the depth.

* Layout assignment has one solution: the global operands and the output are row-major, the two
  staging tiles must keep the contiguous axis of the operand they are loaded from and so are
  row-major too, and the accumulator is the product's accumulator fragment
  (`Catalog.gemm_unique`). The solver finds it in its first round and the stage attaches it
  (`Catalog.gemm_assignLayouts`), giving `Catalog.gemmLaidOut`.
* The swizzle stage treats the two staging tiles. Each is read by the product's atom gathers and
  written by a load that sweeps 8-element vectors row after row (`Catalog.gemm_patterns`,
  `Catalog.oneTrip_patterns`); the gathers of a tile conflict without a swizzle, and the family has a member under which no bank
  serves two words of one wavefront, so both tiles get a swizzle (`Catalog.gemm_swizzles`).

The patterns of the tiles are computed once, on the kernel with one trip: the analysis reads, of
the operands a tile is loaded from, only their rank and contiguous axis, which the trip count does
not change.
-/

set_option autoImplicit false

namespace TileKernel

/-! ### The orders of a rank-two layout -/

namespace DenseLayout

theorem orderings_one (x : Nat) : orderings [x] = [[x]] := by
  rw [orderings, if_neg (by simp)]
  simp only [List.attach, List.attachWith, List.pmap, List.flatMap_cons, List.flatMap_nil,
    List.erase_cons_head]
  rw [orderings, if_pos rfl]
  rfl

theorem orderings_two : orderings [0, 1] = [[0, 1], [1, 0]] := by
  rw [orderings, if_neg (by simp)]
  simp only [List.attach, List.attachWith, List.pmap, List.flatMap_cons, List.flatMap_nil,
    List.erase_cons_head]
  rw [show [0, 1].erase 1 = [0] from rfl, orderings_one, orderings_one]
  rfl

/-- A matrix has two dense layouts: row-major and column-major. -/
theorem allOrders_two (m n : Nat) : allOrders [m, n] = [⟨[m, n], [0, 1]⟩, ⟨[m, n], [1, 0]⟩] := by
  rw [allOrders, if_neg (by simp)]
  rw [show List.range [m, n].length = [0, 1] from rfl, orderings_two]
  rfl

end DenseLayout

/-! ### A network with one solution -/

/-- A network that admits the requirements asked of it and has exactly one solution `a` within
non-empty domains is solved to `a`. -/
theorem Solver.solve_eq_of_unique {cs : List Constraint} {D : Array (List Layout)} {a : BufferId → Layout}
    (hans : Solver.RequirementsAnswer cs (domainAt D)) (hD : ∀ d ∈ D, d ≠ [])
    (hsol : Solves cs (domainAt D) a)
    (huniq : ∀ a' : BufferId → Layout, (∀ b, b.idx < D.size → a' b ∈ domainAt D b) →
      (∀ c ∈ cs, c.Holds a') → ∀ b, b.idx < D.size → a' b = a b) :
    (Solver.solve cs D).run = .ok (.ok ((List.range D.size).map fun i => (⟨i⟩, a ⟨i⟩))) := by
  obtain ⟨r, hr⟩ := Solver.solve_answers hans
  rcases r with c | r
  · exact absurd ⟨a, hsol⟩ (Solver.solve_conflict hr)
  · obtain ⟨a', rfl, mem, holds⟩ := Solver.solve_sound hr hD
    rw [hr]
    refine congrArg (fun l => Except.ok (Except.ok l)) (List.map_congr_left fun i hi => ?_)
    rw [huniq a' mem holds ⟨i⟩ (List.mem_range.1 hi)]

/-- A buffer without a layout or a hint starts from its scope's candidates. -/
theorem initialDomain_of_candidates {b : Buffer} {o : CompileOptions} {cs : List Layout}
    (hl : b.layout = none) (hh : layoutHint o b = none) (hc : scopeCandidates b o.target = .ok cs)
    (hne : cs ≠ []) : (initialDomain b o).run = .ok (.ok cs) := by
  simp [initialDomain, hl, hh, hc, ExceptT.run_bind, liftM, monadLift, MonadLift.monadLift,
    ExceptT.lift]
  simp [bind, Except.bind, hne]
  rfl

/-- A traversal whose every step answers answers the list of the steps' answers. -/
theorem run_mapM_of_forall₂ {α β ε : Type} {f : α → ExceptT ε Checked β} :
    ∀ {l : List α} {r : List β}, List.Forall₂ (fun x y => (f x).run = .ok (.ok y)) l r →
      (l.mapM f).run = .ok (.ok r)
  | [], [], .nil => rfl
  | x :: l, y :: r, .cons hxy h => by
    rw [List.mapM_cons]
    exact run_bind_eq_ok.2 ⟨y, hxy, run_bind_eq_ok.2 ⟨r, run_mapM_of_forall₂ h, rfl⟩⟩

/-- A round solves the network collected from the kernel's domains and constraints, and leaves the
kernel alone. -/
theorem solveRound_eq {o : CompileOptions} {k : Kernel} {D : Array (List Layout)} {cs : List Constraint}
    {r : Except Conflict (List (BufferId × Layout))}
    (hD : (initialDomains k o).run = .ok (.ok D)) (hcs : liveConstraints k o.target = .ok cs)
    (hr : (Solver.solve cs D).run = .ok r) : (solveRound o k).run k = .ok (.ok r, k) := by
  unfold solveRound
  rw [KernelM.run_bind_of_ok (KernelM.run_lift_eq_ok.2 (by rw [KernelM.run_attempt, hD])),
    KernelM.run_bind_of_ok (KernelM.run_liftM_eq_ok.2 ⟨hcs, rfl⟩), KernelM.run_liftM, hr]

/-- One step of the attaching loop on a buffer without a layout that the layout fits. -/
theorem run_attach_then {β : Type} {k : Kernel} {b : BufferId} {l : Layout} {bf : Buffer}
    {rest : KernelM LowerError β} (hb : k.buffer? b = some bf) (hl : bf.layout = none) (fit : l.Fits bf) :
    ((get : KernelM LowerError Kernel) >>= fun x =>
        (if (x.buffer b).layout.isNone then KernelM.lift (KernelM.update (·.attachLayout b l))
          else pure ()) >>= fun _ => rest).run k =
      rest.run (k.modifyBuffer b ({ · with layout := some l })) := by
  rw [KernelM.run_get_bind, if_pos (by simp [Kernel.buffer, hb, hl])]
  exact KernelM.run_bind_of_ok
    (KernelM.run_lift_eq_ok.2 (KernelM.run_update.2 (attachLayout_of_fits hb hl fit)))

namespace Catalog

/-! ### The layouts of the reference product -/

/-- The accumulator fragment of the `sm80` product on a 64 × 64 tile. -/
def accFragment : Fragment := { kind := .mma .acc, shape := (64, 64), tile := (16, 8), lanes := 32 }

/-- The fragments a 64 × 64 register tile may take on `sm80`, in the order the target lists them. -/
def accCandidates : List Layout := [
  .fragment { kind := .strip 4, shape := (64, 64), tile := (2, 64), lanes := 32 },
  .fragment { kind := .mma .a, shape := (64, 64), tile := (16, 16), lanes := 32 },
  .fragment { kind := .mma .b, shape := (64, 64), tile := (16, 8), lanes := 32 },
  .fragment accFragment]

/-- The layout assignment gives each buffer of the product. -/
def gemmLayout (kTiles : Nat) (b : BufferId) : Layout :=
  match b.idx with
  | 0 => .rowMajor [64, 32 * kTiles]
  | 1 => .rowMajor [32 * kTiles, 64]
  | 2 => .rowMajor [64, 32]
  | 3 => .rowMajor [32, 64]
  | 4 => .fragment accFragment
  | _ => .rowMajor [64, 64]

/-- The product with its layouts attached, and the swizzles `sa` and `sb` on its staging tiles. -/
def gemmLaidOut (kTiles depth : Nat) (sa sb : Option Swizzle) : Kernel :=
  { gemmKernel kTiles depth with
    buffers := #[
      { name := "a", shape := [64, 32 * kTiles], dtype := .f16, scope := .global,
        layout := some (.rowMajor [64, 32 * kTiles]) },
      { name := "b", shape := [32 * kTiles, 64], dtype := .f16, scope := .global,
        layout := some (.rowMajor [32 * kTiles, 64]) },
      { name := "s_a", shape := [64, 32], dtype := .f16, scope := .shared,
        layout := some (.rowMajor [64, 32]), swizzle := sa },
      { name := "s_b", shape := [32, 64], dtype := .f16, scope := .shared,
        layout := some (.rowMajor [32, 64]), swizzle := sb },
      { name := "acc", shape := [64, 64], dtype := .f32, scope := .fragment,
        layout := some (.fragment accFragment) },
      { name := "c", shape := [64, 64], dtype := .f32, scope := .global,
        layout := some (.rowMajor [64, 64]) }] }

/-- The initial domains: the global buffers row-major, the staging tiles either dense order, the
accumulator the register fragments. -/
def gemmDomains (kTiles : Nat) : Array (List Layout) :=
  #[[.rowMajor [64, 32 * kTiles]], [.rowMajor [32 * kTiles, 64]],
    (DenseLayout.allOrders [64, 32]).map .dense, (DenseLayout.allOrders [32, 64]).map .dense,
    accCandidates, [.rowMajor [64, 64]]]

/-- The live ops' constraints: each staging load keeps the contiguous axis of its operand, and the
product wants its accumulator fragment. -/
def gemmConstraints : List Constraint :=
  [.binary ⟨1⟩ ⟨0⟩ ⟨2⟩ .sameInnermost, .binary ⟨2⟩ ⟨1⟩ ⟨3⟩ .sameInnermost, .unary ⟨3⟩ ⟨4⟩ (.mma .acc)]

variable {kt d : Nat}

/-- A staging tile that keeps the contiguous axis of a row-major matrix is row-major. -/
theorem staged_rowMajor {m n : Nat} {s : Shape} {l : Layout} (hs : s.length = 2)
    (hm : l ∈ (DenseLayout.allOrders [m, n]).map .dense)
    (hc : Relation.holds .sameInnermost (.rowMajor s) l = true) : l = .rowMajor [m, n] := by
  rw [DenseLayout.allOrders_two] at hm
  obtain ⟨x, hx, rfl⟩ := List.mem_map.1 hm
  simp only [List.mem_cons, List.not_mem_nil, or_false] at hx
  rcases hx with rfl | rfl
  · rfl
  · have inner : (List.range 2).getLast?.getD 0 = 1 := rfl
    simp [Relation.holds, Layout.rowMajor, Layout.asDense?, DenseLayout.rowMajor,
      DenseLayout.innermost, hs, inner] at hc

/-- **The product's layouts are forced.** Every choice from the initial domains that meets the
live ops' constraints is `gemmLayout`. -/
theorem gemm_unique (a' : BufferId → Layout)
    (mem : ∀ b, b.idx < (gemmDomains kt).size → a' b ∈ domainAt (gemmDomains kt) b)
    (holds : ∀ c ∈ gemmConstraints, c.Holds a') :
    ∀ b, b.idx < (gemmDomains kt).size → a' b = gemmLayout kt b := by
  have hsize : (gemmDomains kt).size = 6 := rfl
  have h0 : a' ⟨0⟩ = .rowMajor [64, 32 * kt] :=
    List.mem_singleton.1 (mem ⟨0⟩ (by rw [hsize]; decide))
  have h1 : a' ⟨1⟩ = .rowMajor [32 * kt, 64] :=
    List.mem_singleton.1 (mem ⟨1⟩ (by rw [hsize]; decide))
  have h5 : a' ⟨5⟩ = .rowMajor [64, 64] := List.mem_singleton.1 (mem ⟨5⟩ (by rw [hsize]; decide))
  -- Each staging tile follows the operand it is loaded from.
  have h2 : a' ⟨2⟩ = .rowMajor [64, 32] := by
    have hc := holds _ List.mem_cons_self
    simp only [Constraint.Holds, h0] at hc
    exact staged_rowMajor rfl (mem ⟨2⟩ (by rw [hsize]; decide)) hc
  have h3 : a' ⟨3⟩ = .rowMajor [32, 64] := by
    have hc := holds _ (List.mem_cons_of_mem _ List.mem_cons_self)
    simp only [Constraint.Holds, h1] at hc
    exact staged_rowMajor rfl (mem ⟨3⟩ (by rw [hsize]; decide)) hc
  -- The product admits only its accumulator fragment.
  have h4 : a' ⟨4⟩ = .fragment accFragment := by
    have hm : a' ⟨4⟩ ∈ accCandidates := mem ⟨4⟩ (by rw [hsize]; decide)
    have hc : (Requirement.mma .acc).admits (a' ⟨4⟩) = .ok true :=
      holds (.unary ⟨3⟩ ⟨4⟩ (.mma .acc)) (by simp [gemmConstraints])
    simp only [accCandidates, List.mem_cons, List.not_mem_nil, or_false] at hm
    rcases hm with h | h | h | h <;> rw [h] at hc ⊢
    · exact absurd hc (by decide)
    · exact absurd hc (by decide)
    · exact absurd hc (by decide)
  rintro ⟨_ | _ | _ | _ | _ | _ | i⟩ hb
  · exact h0
  · exact h1
  · exact h2
  · exact h3
  · exact h4
  · exact h5
  · rw [hsize] at hb
    exact absurd hb (by simp)

theorem gemm_initialDomains :
    (initialDomains (gemmKernel kt d) { target := Target.sm80 }).run = .ok (.ok (gemmDomains kt)) := by
  unfold initialDomains
  refine run_bind_eq_ok.2 ⟨_, run_mapM_of_forall₂
    (.cons ?_ (.cons ?_ (.cons ?_ (.cons ?_ (.cons ?_ (.cons ?_ .nil)))))), rfl⟩
  · exact initialDomain_of_candidates rfl rfl rfl (by simp)
  · exact initialDomain_of_candidates rfl rfl rfl (by simp)
  · exact initialDomain_of_candidates rfl rfl rfl (by simp [DenseLayout.allOrders_two])
  · exact initialDomain_of_candidates rfl rfl rfl (by simp [DenseLayout.allOrders_two])
  · exact initialDomain_of_candidates rfl rfl (by decide) (by simp [accCandidates])
  · exact initialDomain_of_candidates rfl rfl rfl (by simp)

/-- `gemmLayout` is in every domain and meets every constraint. -/
theorem gemmLayout_solves : Solves gemmConstraints (domainAt (gemmDomains kt)) (gemmLayout kt) := by
  have mem : ∀ b : BufferId, b.idx < 6 → gemmLayout kt b ∈ domainAt (gemmDomains kt) b := by
    have range_two : List.range 2 = [0, 1] := rfl
    rintro ⟨_ | _ | _ | _ | _ | _ | i⟩ hb
    all_goals simp [gemmLayout, gemmDomains, domainAt, DenseLayout.allOrders_two, accCandidates,
      Layout.rowMajor, DenseLayout.rowMajor, range_two] at hb ⊢
    omega
  refine ⟨fun c hc b hb => mem b ?_, fun c hc => ?_⟩ <;>
    simp only [gemmConstraints, List.mem_cons, List.not_mem_nil, or_false] at hc <;>
    rcases hc with rfl | rfl | rfl
  · simp [Constraint.touches] at hb
    rcases hb with rfl | rfl <;> decide
  · simp [Constraint.touches] at hb
    rcases hb with rfl | rfl <;> decide
  · simp [Constraint.touches] at hb
    subst hb
    decide
  · simp [Constraint.Holds, Relation.holds, gemmLayout, Layout.rowMajor, Layout.asDense?,
      DenseLayout.rowMajor, DenseLayout.innermost]
  · simp [Constraint.Holds, Relation.holds, gemmLayout, Layout.rowMajor, Layout.asDense?,
      DenseLayout.rowMajor, DenseLayout.innermost]
  · show (Requirement.mma .acc).admits (.fragment accFragment) = .ok true
    rfl

theorem gemm_solve : (Solver.solve gemmConstraints (gemmDomains kt)).run =
    .ok (.ok ((List.range 6).map fun i => (⟨i⟩, gemmLayout kt ⟨i⟩))) := by
  refine Solver.solve_eq_of_unique ?_ ?_ gemmLayout_solves gemm_unique
  · intro op b r hc l _
    simp only [gemmConstraints, List.mem_cons, List.not_mem_nil, or_false, reduceCtorEq, false_or,
      Constraint.unary.injEq] at hc
    obtain ⟨-, -, rfl⟩ := hc
    exact Solver.Requirement.admits_answers (by simp) l
  · simp [gemmDomains, DenseLayout.allOrders_two, accCandidates]

/-- **Layout assignment lays the product out** in its first round, with no copy. -/
theorem gemm_assignLayouts :
    (assignLayouts { target := Target.sm80 }).run (gemmKernel kt d) =
      .ok (.ok [], gemmLaidOut kt d none none) := by
  have hcs : liveConstraints (gemmKernel kt d) Target.sm80 = .ok gemmConstraints := rfl
  rw [assignLayouts_of_first_round (solveRound_eq gemm_initialDomains hcs gemm_solve)]
  rw [show (List.range 6).map (fun i => ((⟨i⟩ : BufferId), gemmLayout kt ⟨i⟩)) =
    [(⟨0⟩, gemmLayout kt ⟨0⟩), (⟨1⟩, gemmLayout kt ⟨1⟩), (⟨2⟩, gemmLayout kt ⟨2⟩),
      (⟨3⟩, gemmLayout kt ⟨3⟩), (⟨4⟩, gemmLayout kt ⟨4⟩), (⟨5⟩, gemmLayout kt ⟨5⟩)] from rfl]
  rw [List.forM, List.forM, List.forM, List.forM, List.forM, List.forM, List.forM]
  simp only [bind_assoc]
  -- Each buffer has no layout yet and its layout fits it.
  rw [run_attach_then (l := gemmLayout kt ⟨0⟩) rfl rfl (dense_fits (fun h => by cases h) rfl),
    run_attach_then (l := gemmLayout kt ⟨1⟩) rfl rfl (dense_fits (fun h => by cases h) rfl),
    run_attach_then (l := gemmLayout kt ⟨2⟩) rfl rfl (dense_fits (fun h => by cases h) rfl),
    run_attach_then (l := gemmLayout kt ⟨3⟩) rfl rfl (dense_fits (fun h => by cases h) rfl),
    run_attach_then (l := gemmLayout kt ⟨4⟩) rfl rfl (fragment_fits rfl (fun _ => rfl) rfl),
    run_attach_then (l := gemmLayout kt ⟨5⟩) rfl rfl (dense_fits (fun h => by cases h) rfl)]
  rfl

/-! ### The staging tiles' accesses -/

/-- A load's sweep of a `rows × cols` tile of `f16`: consecutive lanes take consecutive 8-element
vectors, 32 lanes to an instruction. -/
def sweepPattern (load : OpId) (rows cols : Nat) : AccessPattern :=
  ⟨load, 8, (List.range (rows * cols / 256)).map fun q =>
    (List.range 32).map fun n => ⟨n, (32 * q + n) * 8, 8⟩⟩

/-- The product's gathers of a row-major `rows × cols` tile: an instruction per 8 × 8 atom, taken
row of atoms after row of atoms, a lane per row of the atom. -/
def gatherPattern (rows cols : Nat) : AccessPattern :=
  ⟨⟨3⟩, 8, (List.range (rows / 8)).flatMap fun o => (List.range (cols / 8)).map fun i =>
    (List.range 8).map fun j => ⟨j, (8 * o + j) * cols + 8 * i, 8⟩⟩

/-- The patterns of a staging tile: its load's sweep, then the product's gathers. -/
def stagedPatterns (load : OpId) (rows cols : Nat) : List AccessPattern :=
  [sweepPattern load rows cols, gatherPattern rows cols]

/-- The first atom the product gathers: the first 8 elements of the tile's first 8 rows. -/
def firstAtom (cols : Nat) : List LaneAccess := (List.range 8).map fun j => ⟨j, j * cols, 8⟩

/-- The candidates the default family lists for a staging tile: 2048 elements, a base of 3 bits
for 8-element vectors, 64 elements to a bank row. -/
def stagedCandidates : List Swizzle := ({} : SwizzleFamily).listed 2048 3 64

/-- The search finds a candidate for a staging tile whose patterns, under a candidate `s`, fill
every bank table, and whose first atom already conflicts without a swizzle. -/
theorem staged_finds {load : OpId} {rows cols : Nat} {s : Swizzle}
    (hwithin : ∀ p ∈ stagedPatterns load rows cols, p.Within 2048)
    (hatom : firstAtom cols ∈ (BankModel.ofTarget Target.sm80).waves (gatherPattern rows cols) 2)
    (hconflict : ((BankModel.ofTarget Target.sm80).waveWords 2 none (firstAtom cols)).toOption.map
      (fun words => decide (1 < (BankModel.ofTarget Target.sm80).busiestBank words)) = some true)
    (hs : s ∈ stagedCandidates)
    (hfree : (stagedPatterns load rows cols).all fun p =>
      (BankModel.ofTarget Target.sm80).tableFree p 2 (some s)) :
    SearchFinds Target.sm80 (stagedPatterns load rows cols) 2048 2 stagedCandidates := by
  have hbound : 2048 * max 2 1 ≤ Word.u64.bound := by decide
  refine ⟨List.cons_ne_nil _ _, ?_, by simp [stagedPatterns, sweepPattern, gatherPattern], hwithin,
    hbound, ⟨s, hs, List.all_eq_true.1 hfree⟩⟩
  -- The first atom's words answer, and one bank serves more than one of them.
  obtain ⟨w, hw, hle⟩ := worstDegree_answers (t := Target.sm80) (by decide) hbound hwithin
  obtain ⟨words, hwords⟩ := BankModel.waveWords_answers (m := BankModel.ofTarget Target.sm80)
    (keepsWithin_none 2048) (by decide) hbound (firstAtom cols) fun l hl => by
      obtain ⟨ph, hph, hl'⟩ := BankModel.mem_phase_of_mem_waves hatom hl
      exact hwithin _ (List.mem_cons_of_mem _ List.mem_cons_self) ph hph l hl'
  have two : max 2 1 = 2 := rfl
  rw [two] at hle hwords
  rw [hwords] at hconflict
  have busy : 1 < (BankModel.ofTarget Target.sm80).busiestBank words := by
    simpa [Except.toOption] using hconflict
  exact ⟨w, hw, Nat.lt_of_lt_of_le busy
    (hle _ (List.mem_cons_of_mem _ List.mem_cons_self) _ hatom words hwords)⟩

/-- Both patterns move 8-element vectors, so the base keeps 3 bits together, and the default family
lists its members for the tiles without overflow. -/
theorem stagedCandidates_eq (load : OpId) (rows cols : Nat) :
    ({} : SwizzleFamily).candidates 2048 (vectorBase (stagedPatterns load rows cols)) 64 =
      .ok stagedCandidates := by
  have base : vectorBase (stagedPatterns load rows cols) = 3 := by
    have clog : Nat.clog 2 8 = 3 := by
      rw [← ceilLog2_eq_clog]
      rfl
    simp [vectorBase, stagedPatterns, sweepPattern, gatherPattern, clog]
  rw [base, SwizzleFamily.candidates_eq, if_neg (by decide)]
  rfl

/-! ### The tiles' patterns, computed once -/

/-- The analysis of the one-trip product finds the staging tiles' patterns. -/
theorem oneTrip_patterns :
    accessPatterns (gemmLaidOut 1 1 none none) Target.sm80 (DefUse.build (gemmLaidOut 1 1 none none)) ⟨2⟩ =
        .ok (stagedPatterns ⟨1⟩ 64 32) ∧
      accessPatterns (gemmLaidOut 1 1 none none) Target.sm80 (DefUse.build (gemmLaidOut 1 1 none none)) ⟨3⟩ =
        .ok (stagedPatterns ⟨2⟩ 32 64) := by
  decide +kernel

/-- The uses of the product's buffers do not depend on the trip count, the depth or the swizzles. -/
theorem gemm_defUse {sa sb : Option Swizzle} :
    DefUse.build (gemmLaidOut kt d sa sb) = DefUse.build (gemmLaidOut 1 1 none none) := rfl

/-- The operands a tile is loaded from have the same rank and contiguous axis whatever the trip
count. -/
theorem gemm_partners {sa sb : Option Swizzle} (c : BufferId) :
    ((gemmLaidOut kt d sa sb).buffer c).layout.map Layout.partnerView =
      ((gemmLaidOut 1 1 none none).buffer c).layout.map Layout.partnerView := by
  rcases c with ⟨_ | _ | _ | _ | _ | _ | i⟩ <;> rfl

/-- A tile's patterns in the product are those of the one-trip product. -/
theorem gemm_patterns {sa sb : Option Swizzle} {b : BufferId}
    (hb : (gemmLaidOut kt d sa sb).buffer b = (gemmLaidOut 1 1 none none).buffer b) :
    accessPatterns (gemmLaidOut kt d sa sb) Target.sm80 (DefUse.build (gemmLaidOut kt d none none)) b =
      accessPatterns (gemmLaidOut 1 1 none none) Target.sm80 (DefUse.build (gemmLaidOut 1 1 none none)) b := by
  rw [accessPatterns_congr hb (fun _ => rfl) gemm_partners, gemm_defUse]

/-- The search finds a swizzle for `s_a`: under `xor(bits=2, base=3, shift=3)` no bank serves two
words of one wavefront. -/
theorem stagedA_finds : SearchFinds Target.sm80 (stagedPatterns ⟨1⟩ 64 32) 2048 2 stagedCandidates :=
  staged_finds (s := ⟨.xor, 2, 3, 3⟩) (by decide +kernel) (by decide +kernel)
    (by simp only [BankModel.busiestBank_eq_insertionSort]; decide +kernel) (by decide +kernel)
    (by decide +kernel)

/-- The search finds a swizzle for `s_b`: under `xor(bits=3, base=3, shift=3)` no bank serves two
words of one wavefront. -/
theorem stagedB_finds : SearchFinds Target.sm80 (stagedPatterns ⟨2⟩ 32 64) 2048 2 stagedCandidates :=
  staged_finds (s := ⟨.xor, 3, 3, 3⟩) (by decide +kernel) (by decide +kernel)
    (by simp only [BankModel.busiestBank_eq_insertionSort]; decide +kernel) (by decide +kernel)
    (by decide +kernel)

/-! ### The swizzle stage -/

/-- **The swizzle stage swizzles both staging tiles** of the laid-out product, each with a candidate
of the default family, and changes nothing else. -/
theorem gemm_swizzles : ∃ sa ∈ stagedCandidates, ∃ sb ∈ stagedCandidates,
    (optimizeSwizzles { target := Target.sm80 }).run (gemmLaidOut kt d none none) =
      .ok (.ok [(⟨2⟩, sa), (⟨3⟩, sb)], gemmLaidOut kt d (some sa) (some sb)) := by
  have patA : accessPatterns (gemmLaidOut kt d none none) Target.sm80
      (DefUse.build (gemmLaidOut kt d none none)) ⟨2⟩ = .ok (stagedPatterns ⟨1⟩ 64 32) :=
    (gemm_patterns rfl).trans oneTrip_patterns.1
  obtain ⟨sa, hsa, runA⟩ := swizzleBuffer_runs (o := { target := Target.sm80 })
    ⟨stagedPatterns ⟨1⟩ 64 32, 2048, 2, 128, stagedCandidates, patA, rfl, rfl, rfl,
      stagedCandidates_eq _ _ _⟩ stagedA_finds rfl rfl rfl rfl
  -- `s_b` is searched in the kernel where `s_a` has its swizzle.
  have patB : accessPatterns (gemmLaidOut kt d (some sa) none) Target.sm80
      (DefUse.build (gemmLaidOut kt d none none)) ⟨3⟩ = .ok (stagedPatterns ⟨2⟩ 32 64) :=
    (gemm_patterns rfl).trans oneTrip_patterns.2
  obtain ⟨sb, hsb, runB⟩ := swizzleBuffer_runs (o := { target := Target.sm80 })
    ⟨stagedPatterns ⟨2⟩ 32 64, 2048, 2, 128, stagedCandidates, patB, rfl, rfl, rfl,
      stagedCandidates_eq _ _ _⟩ stagedB_finds rfl rfl rfl rfl
  refine ⟨sa, hsa, sb, hsb, ?_⟩
  unfold optimizeSwizzles swizzleWhere
  rw [KernelM.run_get_bind]
  dsimp only
  -- The stage treats the two staging tiles, `s_a` first.
  rw [show (gemmLaidOut kt d none none).bufferIds.filter (fun h =>
      ((gemmLaidOut kt d none none).buffer h).scope == .shared &&
        !((gemmLaidOut kt d none none).buffer h).noSwizzle &&
        ((gemmLaidOut kt d none none).buffer h).swizzle.isNone &&
        ((gemmLaidOut kt d none none).buffer h).instanceOf.isNone && true) = [⟨2⟩, ⟨3⟩] from rfl,
    List.mapM_cons, List.mapM_cons, List.mapM_nil]
  simp only [bind_assoc, pure_bind]
  rw [KernelM.run_bind_of_ok runA, show (gemmLaidOut kt d none none).modifyBuffer ⟨2⟩ ({ · with swizzle := some sa }) =
    gemmLaidOut kt d (some sa) none from rfl, KernelM.run_bind_of_ok runB]
  rfl

end Catalog

end TileKernel
