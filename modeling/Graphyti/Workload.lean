import Graphyti.SparseMatrixIndex
import Mathlib.Data.List.Nodup
import Mathlib.Data.List.Perm.Basic
import Mathlib.Logic.Equiv.Basic
import Mathlib.Tactic.Ring

/-! The workloads of the I/O benchmarks that each thread owns. `rand_permute` fills an array
with the multiples of a stride and shuffles it with `random()`; `local_rand_permute_workload`
hands out the shuffled offsets shifted by its start, and the `nthreads` generators of
`RAID0_rand_permute_workload` spread theirs over the entries of their own thread;
`file_workload` reads offsets a Java program wrote. The fill and the shuffle count with an
`int`, which wraps at 32 bits, against a `long` bound; `long` arithmetic is exact here. -/
namespace Graphyti.Workload

/-- `int` arithmetic: two's complement on 32 bits. -/
def wrapInt (x : Int) : Int := (x + 2 ^ 31) % 2 ^ 32 - 2 ^ 31

/-- `for (int i = ...; i < num; i++) offset[i] = ((off_t) i) * stride;` from `i`, within `fuel`
iterations, over the `num` entries `valloc` gave; a write outside them is an error. -/
def fillOffsets (num stride : Int) : Nat → Int → (Nat → Int) → Option (Except String (Nat → Int))
  | 0, _, _ => none
  | fuel + 1, i, offset =>
    if i < num then
      if 0 ≤ i then
        fillOffsets num stride fuel (wrapInt (i + 1)) (Function.update offset i.toNat (i * stride))
      else some (.error "offset[i] = ((off_t) i) * stride: i lies outside the array")
    else some (.ok offset)

/-- The swap loop `j = random() % i; swap offset[j] and offset[i]` from `i` down to 1, the
`k`-th `random()` returning `random k`. -/
def shuffleOffsets (random : Nat → Nat) : Nat → (Nat → Int) → Nat → Int
  | 0, offset => offset
  | i + 1, offset =>
    let j := random 0 % (i + 1)
    shuffleOffsets (fun call => random (call + 1)) i
      (Function.update (Function.update offset j (offset (i + 1))) (i + 1) (offset j))

/-- `rand_permute(num, stride)`: the array `get_offset` reads. -/
def randPermute (random : Nat → Nat) (fuel : Nat) (num stride : Int) :
    Option (Except String (Nat → Int)) :=
  (fillOffsets num stride fuel 0 fun _ => 0).map
    (·.map (shuffleOffsets random (wrapInt (num - 1)).toNat))

/-- `local_rand_permute_workload`: its cursor `idx`, `num`, `start` and its array. -/
structure LocalRandPermuteWorkload where
  idx : Int
  num : Int
  start : Int
  permute : Nat → Int

/-- `local_rand_permute_workload(start, end, entry_size)`. -/
def localRandPermuteWorkload (random : Nat → Nat) (fuel : Nat) (start «end» entrySize : Int) :
    Option (Except String LocalRandPermuteWorkload) :=
  (randPermute random fuel («end» - start) entrySize).map
    (·.map fun permute => ⟨0, «end» - start, start * entrySize, permute⟩)

namespace LocalRandPermuteWorkload

def hasNext (w : LocalRandPermuteWorkload) : Bool := decide (w.idx < w.num)

/-- `next_offset()`: the offset and the generator after it. -/
def nextOffset (w : LocalRandPermuteWorkload) : Int × LocalRandPermuteWorkload :=
  if w.idx ≥ w.num then (-1, w) else (w.permute w.idx.toNat + w.start, { w with idx := w.idx + 1 })

end LocalRandPermuteWorkload

/-- `RAID0_rand_permute_workload`, with the `local_rand_permute_workload` it owns. -/
structure RAID0RandPermuteWorkload where
  nthreads : Int
  threadId : Int
  entrySize : Int
  localGen : LocalRandPermuteWorkload

/-- `RAID0_rand_permute_workload(npages, entry_size, nthreads, thread_id)`. -/
def raid0RandPermuteWorkload (random : Nat → Nat) (fuel : Nat)
    (pageSize npages entrySize nthreads threadId : Int) :
    Option (Except String RAID0RandPermuteWorkload) :=
  (localRandPermuteWorkload random fuel 0 (((npages * pageSize).tdiv entrySize).tdiv nthreads) 1).map
    (·.map fun localGen => ⟨nthreads, threadId, entrySize, localGen⟩)

namespace RAID0RandPermuteWorkload

def hasNext (w : RAID0RandPermuteWorkload) : Bool := w.localGen.hasNext

def nextOffset (w : RAID0RandPermuteWorkload) : Int × RAID0RandPermuteWorkload :=
  ((w.threadId + w.localGen.nextOffset.1 * w.nthreads) * w.entrySize,
    { w with localGen := w.localGen.nextOffset.2 })

end RAID0RandPermuteWorkload

/-- What `next_offset()` while `has_next()` hands out; `none` if `fuel` calls do not end it. -/
def drain {σ : Type} (hasNext : σ → Bool) (nextOffset : σ → Int × σ) : Nat → σ → Option (List Int)
  | 0, gen => if hasNext gen then none else some []
  | fuel + 1, gen =>
    if hasNext gen then ((nextOffset gen).1 :: ·) <$> drain hasNext nextOffset fuel (nextOffset gen).2
    else some []

theorem wrapInt_of_fits {x : Int} (low : -2 ^ 31 ≤ x) (high : x < 2 ^ 31) : wrapInt x = x := by
  unfold wrapInt; omega

theorem fillOffsets_ok (num : Nat) (stride : Int) (fits : num < 2 ^ 31) :
    ∀ (fuel i : Nat) (offset : Nat → Int), i ≤ num → num - i < fuel →
      fillOffsets num stride fuel i offset =
        some (.ok fun k => if i ≤ k ∧ k < num then k * stride else offset k)
  | 0, _, _, _, enough => absurd enough (Nat.not_lt_zero _)
  | fuel + 1, i, offset, within, enough => by
    rw [fillOffsets]
    by_cases more : i < num
    · have next : wrapInt (i + 1) = ((i + 1 : Nat) : Int) := by
        rw [wrapInt_of_fits (by omega) (by omega)]; push_cast; rfl
      rw [if_pos (by exact_mod_cast more), if_pos (by omega), next, Int.toNat_ofNat,
        fillOffsets_ok num stride fits fuel (i + 1) _ more (by omega)]
      refine congrArg (fun f : Nat → Int => (some (.ok f) : Option (Except String (Nat → Int))))
        (funext fun k => ?_)
      rw [Function.update_apply]
      by_cases here : k = i
      · subst here; simp [more]
      · have same : (i + 1 ≤ k ∧ k < num) ↔ (i ≤ k ∧ k < num) := by omega
        simp only [here, if_false, same]
    · rw [if_neg (by exact_mod_cast more)]
      exact congrArg (fun f : Nat → Int => (some (.ok f) : Option (Except String (Nat → Int))))
        (funext fun k => by rw [if_neg (by omega)])

theorem fillOffsets_wraps (num : Nat) (stride : Int) (large : 2 ^ 31 ≤ num) :
    ∀ (fuel i : Nat) (offset : Nat → Int), i < 2 ^ 31 → 2 ^ 31 - i < fuel →
      fillOffsets num stride fuel i offset =
        some (.error "offset[i] = ((off_t) i) * stride: i lies outside the array")
  | 0, _, _, _, enough => absurd enough (Nat.not_lt_zero _)
  | fuel + 1, i, offset, below, enough => by
    rw [fillOffsets, if_pos (by omega), if_pos (by omega)]
    by_cases last : i + 1 < 2 ^ 31
    · have next : wrapInt (i + 1) = ((i + 1 : Nat) : Int) := by
        rw [wrapInt_of_fits (by omega) (by omega)]; push_cast; rfl
      rw [next]
      exact fillOffsets_wraps num stride large fuel (i + 1) _ last (by omega)
    · have wrapped : wrapInt (i + 1) = -2 ^ 31 := by unfold wrapInt; omega
      obtain ⟨fuel, rfl⟩ : ∃ rest, fuel = rest + 1 := ⟨fuel - 1, by omega⟩
      rw [wrapped, fillOffsets, if_pos (by omega), if_neg (by omega)]

theorem shuffleOffsets_perm (i : Nat) :
    ∀ (random : Nat → Nat) (offset : Nat → Int),
      ∃ σ : Equiv.Perm Nat, (∀ k, i < k → σ k = k) ∧ shuffleOffsets random i offset = offset ∘ σ := by
  induction i with
  | zero => exact fun _ offset => ⟨Equiv.refl Nat, fun _ _ => rfl, rfl⟩
  | succ i ih =>
    intro random offset
    have below : random 0 % (i + 1) < i + 1 := Nat.mod_lt _ (Nat.succ_pos i)
    obtain ⟨σ, fixes, shuffled⟩ := ih (fun call => random (call + 1))
      (offset ∘ Equiv.swap (i + 1) (random 0 % (i + 1)))
    refine ⟨σ.trans (Equiv.swap (i + 1) (random 0 % (i + 1))), fun k above => ?_, ?_⟩
    · rw [Equiv.trans_apply, fixes k (by omega), Equiv.swap_apply_of_ne_of_ne (by omega) (by omega)]
    · rw [shuffleOffsets, ← Equiv.comp_swap_eq_update, shuffled, Equiv.coe_trans]
      rfl

theorem lt_of_fixes {σ : Equiv.Perm Nat} {num : Nat} (fixes : ∀ k, num ≤ k → σ k = k) {k : Nat}
    (below : k < num) : σ k < num := by
  by_contra far
  have back := σ.injective (fixes _ (Nat.le_of_not_lt far))
  omega

theorem map_perm_range {σ : Equiv.Perm Nat} {num : Nat} (fixes : ∀ k, num ≤ k → σ k = k) :
    ((List.range num).map σ).Perm (List.range num) := by
  have back : ∀ k, num ≤ k → σ.symm k = k := fun k above =>
    σ.symm_apply_eq.mpr (fixes k above).symm
  refine (List.perm_ext_iff_of_nodup ((List.nodup_range num).map σ.injective)
    (List.nodup_range num)).mpr fun a => ?_
  simp only [List.mem_map, List.mem_range]
  exact ⟨fun ⟨_, below, image⟩ => image ▸ lt_of_fixes fixes below,
    fun below => ⟨σ.symm a, lt_of_fixes back below, σ.apply_symm_apply a⟩⟩

theorem randPermute_ok (random : Nat → Nat) (num : Nat) (stride : Int) (fits : num < 2 ^ 31)
    (fuel : Nat) (enough : num < fuel) :
    ∃ offset, randPermute random fuel num stride = some (.ok offset) ∧
      ∃ σ : Equiv.Perm Nat, (∀ k, num ≤ k → σ k = k) ∧ ∀ k < num, offset k = σ k * stride := by
  have filled := fillOffsets_ok num stride fits fuel 0 (fun _ => 0) (Nat.zero_le _) (by omega)
  rw [Int.natCast_zero] at filled
  rw [randPermute, filled]
  refine ⟨_, rfl, ?_⟩
  rcases Nat.eq_zero_or_pos num with empty | _
  · subst empty
    exact ⟨Equiv.refl Nat, fun _ _ => rfl, fun _ below => absurd below (Nat.not_lt_zero _)⟩
  have start : (wrapInt (num - 1)).toNat = num - 1 := by
    rw [wrapInt_of_fits (by omega) (by omega)]; omega
  obtain ⟨σ, fixes, shuffled⟩ := shuffleOffsets_perm (num - 1) random
    fun k => if 0 ≤ k ∧ k < num then k * stride else 0
  have fixed : ∀ k, num ≤ k → σ k = k := fun k above => fixes k (by omega)
  refine ⟨σ, fixed, fun k below => ?_⟩
  simp only [start, shuffled, Function.comp, if_pos (And.intro (Nat.zero_le _)
    (lt_of_fixes fixed below))]

theorem randPermute_wraps (random : Nat → Nat) (num : Nat) (stride : Int) (large : 2 ^ 31 ≤ num)
    (fuel : Nat) (enough : 2 ^ 31 < fuel) :
    randPermute random fuel num stride =
      some (.error "offset[i] = ((off_t) i) * stride: i lies outside the array") := by
  have wraps := fillOffsets_wraps num stride large fuel 0 (fun _ => 0) (by omega) (by omega)
  rw [Int.natCast_zero] at wraps
  rw [randPermute, wraps]
  rfl

theorem drain_localRandPermuteWorkload (num : Nat) :
    ∀ (fuel i : Nat) (w : LocalRandPermuteWorkload), w.num = num → w.idx = i → i ≤ num →
      num - i ≤ fuel →
      drain LocalRandPermuteWorkload.hasNext LocalRandPermuteWorkload.nextOffset fuel w =
        some ((List.range' i (num - i)).map fun k => w.permute k + w.start)
  | 0, i, w, numIs, idxIs, within, enough => by
    rw [drain, if_neg (by simp [LocalRandPermuteWorkload.hasNext, numIs, idxIs]; omega),
      show num - i = 0 by omega]
    rfl
  | fuel + 1, i, w, numIs, idxIs, within, enough => by
    rw [drain]
    by_cases more : i < num
    · have next : w.nextOffset = (w.permute i + w.start, { w with idx := w.idx + 1 }) := by
        rw [LocalRandPermuteWorkload.nextOffset, if_neg (by omega), idxIs, Int.toNat_ofNat]
      rw [if_pos (by simp [LocalRandPermuteWorkload.hasNext, numIs, idxIs]; omega), next]
      dsimp only
      rw [drain_localRandPermuteWorkload num fuel (i + 1) { w with idx := w.idx + 1 } numIs
        (by simp [idxIs]) more (by omega), show num - i = num - (i + 1) + 1 by omega]
      rfl
    · rw [if_neg (by simp [LocalRandPermuteWorkload.hasNext, numIs, idxIs]; omega),
        show num - i = 0 by omega]
      rfl

theorem map_range_perm {α : Type} {σ : Equiv.Perm Nat} {num : Nat} (fixes : ∀ k, num ≤ k → σ k = k)
    {f g : Nat → α} (through : ∀ k < num, f k = g (σ k)) :
    ((List.range num).map f).Perm ((List.range num).map g) := by
  have same : (List.range num).map f = ((List.range num).map σ).map g := by
    rw [List.map_map]
    exact List.map_congr_left fun k member => through k (List.mem_range.mp member)
  rw [same]
  exact (map_perm_range fixes).map g

/-- Below `2 ^ 31` entries `rand_permute` permutes the `i * stride` and a caller gets each
`(start + i) * stride` once; from `2 ^ 31` on the `int` counter wraps and writes outside. -/
theorem rand_permute_permutes (random : Nat → Nat) (stride : Int) (fuel : Nat) :
    (∀ num : Nat, num < 2 ^ 31 → num < fuel →
      (∃ offset, randPermute random fuel num stride = some (.ok offset) ∧
        ((List.range num).map offset).Perm ((List.range num).map fun i : Nat => i * stride)) ∧
      ∀ start : Int, ∃ gen, localRandPermuteWorkload random fuel start (start + num) stride =
        some (.ok gen) ∧ ∃ emitted,
          drain LocalRandPermuteWorkload.hasNext LocalRandPermuteWorkload.nextOffset fuel gen =
            some emitted ∧ emitted.Perm ((List.range num).map fun i : Nat => (start + i) * stride)) ∧
    ∀ num : Nat, 2 ^ 31 ≤ num → 2 ^ 31 < fuel →
      randPermute random fuel num stride =
        some (.error "offset[i] = ((off_t) i) * stride: i lies outside the array") := by
  refine ⟨fun num fits enough => ?_, fun num large enough => randPermute_wraps random num stride
    large fuel enough⟩
  obtain ⟨offset, built, σ, fixes, entries⟩ := randPermute_ok random num stride fits fuel enough
  refine ⟨⟨offset, built, map_range_perm fixes entries⟩, fun start => ?_⟩
  refine ⟨⟨0, num, start * stride, offset⟩, ?_, ?_⟩
  · rw [localRandPermuteWorkload, show start + num - start = num by omega, built]; rfl
  · refine ⟨_, drain_localRandPermuteWorkload num fuel 0 _ rfl rfl (Nat.zero_le _) (by omega), ?_⟩
    rw [Nat.sub_zero, ← List.range_eq_range']
    exact map_range_perm fixes fun k below => by
      dsimp only
      rw [entries k below, Int.add_mul, Int.add_comm]

theorem drain_raid0RandPermuteWorkload :
    ∀ (fuel : Nat) (w : RAID0RandPermuteWorkload),
      drain RAID0RandPermuteWorkload.hasNext RAID0RandPermuteWorkload.nextOffset fuel w =
        (drain LocalRandPermuteWorkload.hasNext LocalRandPermuteWorkload.nextOffset fuel
          w.localGen).map (List.map fun o => (w.threadId + o * w.nthreads) * w.entrySize)
  | 0, w => by
    simp only [drain, RAID0RandPermuteWorkload.hasNext]
    split <;> rfl
  | fuel + 1, w => by
    simp only [drain, RAID0RandPermuteWorkload.hasNext, RAID0RandPermuteWorkload.nextOffset]
    split
    · rw [drain_raid0RandPermuteWorkload fuel]
      cases drain LocalRandPermuteWorkload.hasNext LocalRandPermuteWorkload.nextOffset fuel
        w.localGen.nextOffset.2 <;> rfl
    · rfl

theorem flatMap_residues_perm (n M : Nat) (wide : 0 < n) :
    ((List.range n).flatMap fun t => (List.range M).map fun m => t + m * n).Perm
      (List.range (M * n)) := by
  have residue : ∀ t m, t < n → (t + m * n) % n = t := fun t m below => by
    rw [Nat.add_mul_mod_self_right, Nat.mod_eq_of_lt below]
  refine (List.perm_ext_iff_of_nodup (List.nodup_flatMap.mpr ⟨fun t _ => (List.nodup_range M).map
      fun a b same => Nat.eq_of_mul_eq_mul_right wide (by omega), ?_⟩) (List.nodup_range _)).mpr
    fun x => ?_
  · refine (List.pairwise_lt_range n).imp_of_mem fun {t t'} tIn tIn' lt => ?_
    refine List.disjoint_left.mpr fun x xIn xIn' => ?_
    simp only [List.mem_map, List.mem_range] at xIn xIn' tIn tIn'
    obtain ⟨m, -, rfl⟩ := xIn
    obtain ⟨m', -, same⟩ := xIn'
    have := congrArg (· % n) same
    simp only [residue _ _ tIn, residue _ _ tIn'] at this
    omega
  · simp only [List.mem_flatMap, List.mem_map, List.mem_range]
    constructor
    · rintro ⟨t, tIn, m, mIn, rfl⟩
      have := Nat.mul_le_mul_right n (Nat.succ_le_of_lt mIn)
      rw [Nat.succ_mul] at this
      omega
    · intro below
      refine ⟨x % n, Nat.mod_lt x wide, x / n, (Nat.div_lt_iff_lt_mul wide).mpr below, ?_⟩
      exact Nat.mod_add_div' x n

theorem raid0_entry_bounds {n e M P t m : Nat} (wide : 0 < e) (tBelow : t < n) (mBelow : m < M)
    (entries : M = P / e / n) :
    (t + m * n) * e % (n * e) = t * e ∧ (t + m * n) * e + e ≤ P := by
  constructor
  · rw [Nat.add_mul, Nat.mul_assoc, Nat.add_mul_mod_self_right,
      Nat.mod_eq_of_lt (Nat.mul_lt_mul_of_pos_right tBelow wide)]
  · have more : (m + 1) * n ≤ M * n := Nat.mul_le_mul_right n mBelow
    rw [Nat.succ_mul] at more
    calc (t + m * n) * e + e = (t + m * n + 1) * e := by rw [Nat.succ_mul]
      _ ≤ M * n * e := Nat.mul_le_mul_right e (by omega)
      _ ≤ P / e * e := Nat.mul_le_mul_right e (by rw [entries]; exact Nat.div_mul_le_self _ _)
      _ ≤ P := Nat.div_mul_le_self P e

theorem raid0_entries_eq (pageSize npages entrySize nthreads : Nat) :
    (((npages : Int) * pageSize).tdiv entrySize).tdiv nthreads =
      ((npages * pageSize / entrySize / nthreads : Nat) : Int) := by
  rw [Int.ofNat_tdiv, Int.ofNat_tdiv, Int.natCast_mul]

/-- Below `2 ^ 31` entries per thread, the RAID0 generators hand out each `k * entry_size` once
between them, thread `t` at `t * entry_size` modulo `nthreads * entry_size`, inside the file. -/
theorem raid0_rand_permute_covers (pageSize npages entrySize nthreads : Nat)
    (entry : 0 < entrySize) (threads : 0 < nthreads) (random : Nat → Nat → Nat) (fuel : Nat) :
    (npages * pageSize / entrySize / nthreads < 2 ^ 31 →
      npages * pageSize / entrySize / nthreads < fuel → ∃ emitted : Nat → List Int,
        (∀ t < nthreads, ∃ gen, raid0RandPermuteWorkload (random t) fuel pageSize npages entrySize
            nthreads t = some (.ok gen) ∧
          drain RAID0RandPermuteWorkload.hasNext RAID0RandPermuteWorkload.nextOffset fuel gen =
            some (emitted t)) ∧
        ((List.range nthreads).flatMap emitted).Perm
          ((List.range (npages * pageSize / entrySize / nthreads * nthreads)).map
            fun k : Nat => (k : Int) * entrySize) ∧
        ∀ t < nthreads, ∀ o ∈ emitted t,
          o % (nthreads * entrySize) = t * entrySize ∧ o + entrySize ≤ npages * pageSize) ∧
    (2 ^ 31 ≤ npages * pageSize / entrySize / nthreads → 2 ^ 31 < fuel → ∀ t : Nat,
      raid0RandPermuteWorkload (random t) fuel pageSize npages entrySize nthreads t =
        some (.error "offset[i] = ((off_t) i) * stride: i lies outside the array")) := by
  have perThread : ∀ t, raid0RandPermuteWorkload (random t) fuel pageSize npages entrySize nthreads t =
      (randPermute (random t) fuel (npages * pageSize / entrySize / nthreads : Nat) 1).map
        (·.map fun offset => ⟨nthreads, t,  entrySize,
          ⟨0, (npages * pageSize / entrySize / nthreads : Nat), 0, offset⟩⟩) := fun t => by
    rw [raid0RandPermuteWorkload, raid0_entries_eq, localRandPermuteWorkload, Int.sub_zero,
      Option.map_map]
    exact congrArg (Option.map · _) (funext fun built => by cases built <;> rfl)
  refine ⟨fun fits enough => ?_, fun large enough t => ?_⟩
  · generalize entriesIs : npages * pageSize / entrySize / nthreads = M at fits enough perThread ⊢
    choose offset built σ fixes entries using
      fun t => randPermute_ok (random t) M 1 fits fuel enough
    have placed : ∀ t : Nat, ∀ k < M, ((t : Int) + (offset t k + 0) * nthreads) * entrySize =
        ((t + σ t k * nthreads : Nat) : Int) * entrySize := fun t k below => by
      rw [entries t k below]; push_cast; ring
    refine ⟨fun t => (List.range M).map fun k => ((t : Int) + (offset t k + 0) * nthreads) *
      entrySize, fun t _ => ⟨_, by rw [perThread, built t]; rfl, ?_⟩, ?_, ?_⟩
    · rw [drain_raid0RandPermuteWorkload, drain_localRandPermuteWorkload M fuel 0 _ rfl rfl
        (Nat.zero_le _) (by omega), Nat.sub_zero, ← List.range_eq_range', Option.map_some',
        List.map_map]
      rfl
    · refine (List.Perm.flatMap_left _ fun t _ => map_range_perm (fixes t)
        (g := fun m => ((t + m * nthreads : Nat) : Int) * entrySize) (placed t)).trans ?_
      simpa only [List.map_flatMap, List.map_map, Function.comp_def] using
        (flatMap_residues_perm nthreads M threads).map fun x : Nat => (x : Int) * entrySize
    · intro t tBelow o member
      simp only [List.mem_map, List.mem_range] at member
      obtain ⟨k, below, rfl⟩ := member
      obtain ⟨residue, inside⟩ :=
        raid0_entry_bounds entry tBelow (lt_of_fixes (fixes t) below) entriesIs.symm
      rw [placed t k below]
      exact ⟨by exact_mod_cast residue, by exact_mod_cast inside⟩
  · rw [perThread, randPermute_wraps _ _ 1 large fuel enough]; rfl

theorem raid0_rand_permute_covers_twoThreads :
    ∃ emitted : Nat → List Int,
      ((List.range 2).flatMap emitted).Perm ((List.range 4).map fun k : Nat => (k : Int) * 1024) ∧
      ∀ t < 2, ∀ o ∈ emitted t, o % 2048 = t * 1024 ∧ o + 1024 ≤ 4096 := by
  obtain ⟨emitted, -, cover, placed⟩ :=
    (raid0_rand_permute_covers 4096 1 1024 2 (by decide) (by decide) (fun _ _ => 0) 3).1
      (by decide) (by decide)
  exact ⟨emitted, cover, placed⟩

/-! ### `rand_workload`: offsets drawn with `random()` -/

/-- `rand_workload`: `start`, `range`, its cursor `num`, and its array of offsets. -/
structure RandWorkload where
  start : Int
  range : Int
  num : Int
  offsets : Nat → Int

/-- `for (int i = ...; i < range; i++) offsets[i] = (start + random() % range) * stride;` from
`i`, within `fuel` iterations, over the `range` entries `valloc` gave. -/
def fillRandOffsets (random : Nat → Nat) (start range stride : Int) :
    Nat → Int → (Nat → Int) → Option (Except String (Nat → Int))
  | 0, _, _ => none
  | fuel + 1, i, offsets =>
    if i < range then
      if 0 ≤ i then
        fillRandOffsets random start range stride fuel (wrapInt (i + 1))
          (Function.update offsets i.toNat ((start + (random i.toNat : Int) % range) * stride))
      else some (.error "offsets[i] = (start + random() % range) * stride: i lies outside the array")
    else some (.ok offsets)

/-- `rand_workload(start, end, stride)`. -/
def randWorkload (random : Nat → Nat) (fuel : Nat) (start «end» stride : Int) :
    Option (Except String RandWorkload) :=
  (fillRandOffsets random start («end» - start) stride fuel 0 fun _ => 0).map
    (·.map fun offsets => ⟨start, «end» - start, 0, offsets⟩)

namespace RandWorkload

def hasNext (w : RandWorkload) : Bool := decide (w.num < w.range)

/-- `next_offset()`: `offsets[num++]`. -/
def nextOffset (w : RandWorkload) : Int × RandWorkload :=
  (w.offsets w.num.toNat, { w with num := w.num + 1 })

end RandWorkload

theorem fillRandOffsets_ok (random : Nat → Nat) (start : Int) (range : Nat) (stride : Int)
    (fits : range < 2 ^ 31) :
    ∀ (fuel i : Nat) (offsets : Nat → Int), i ≤ range → range - i < fuel →
      fillRandOffsets random start range stride fuel i offsets = some (.ok fun k =>
        if i ≤ k ∧ k < range then (start + (random k : Int) % range) * stride else offsets k)
  | 0, _, _, _, enough => absurd enough (Nat.not_lt_zero _)
  | fuel + 1, i, offsets, within, enough => by
    rw [fillRandOffsets]
    by_cases more : i < range
    · have next : wrapInt (i + 1) = ((i + 1 : Nat) : Int) := by
        rw [wrapInt_of_fits (by omega) (by omega)]; push_cast; rfl
      rw [if_pos (by exact_mod_cast more), if_pos (by omega), next, Int.toNat_ofNat,
        fillRandOffsets_ok random start range stride fits fuel (i + 1) _ more (by omega)]
      refine congrArg (fun f : Nat → Int => (some (.ok f) : Option (Except String (Nat → Int))))
        (funext fun k => ?_)
      rw [Function.update_apply]
      by_cases here : k = i
      · subst here; simp [more]
      · have same : (i + 1 ≤ k ∧ k < range) ↔ (i ≤ k ∧ k < range) := by omega
        simp only [here, if_false, same]
    · rw [if_neg (by exact_mod_cast more)]
      exact congrArg (fun f : Nat → Int => (some (.ok f) : Option (Except String (Nat → Int))))
        (funext fun k => by rw [if_neg (by omega)])

theorem drain_randWorkload (range : Nat) :
    ∀ (fuel i : Nat) (w : RandWorkload), w.range = range → w.num = i → i ≤ range →
      range - i ≤ fuel →
      drain RandWorkload.hasNext RandWorkload.nextOffset fuel w =
        some ((List.range' i (range - i)).map w.offsets)
  | 0, i, w, rangeIs, numIs, within, enough => by
    rw [drain, if_neg (by simp [RandWorkload.hasNext, rangeIs, numIs]; omega),
      show range - i = 0 by omega]
    rfl
  | fuel + 1, i, w, rangeIs, numIs, within, enough => by
    rw [drain]
    by_cases more : i < range
    · rw [if_pos (by simp [RandWorkload.hasNext, rangeIs, numIs]; omega)]
      simp only [RandWorkload.nextOffset, numIs, Int.toNat_ofNat]
      rw [drain_randWorkload range fuel (i + 1) { w with num := (i : Int) + 1 } rangeIs
        (by dsimp only; omega) more (by omega), show range - i = range - (i + 1) + 1 by omega]
      rfl
    · rw [if_neg (by simp [RandWorkload.hasNext, rangeIs, numIs]; omega),
        show range - i = 0 by omega]
      rfl

/-- A `rand_workload` hands out `end - start` offsets, each `stride` times a value in range. -/
theorem rand_workload_within_range (random : Nat → Nat) (start «end» stride : Int)
    (ordered : start ≤ «end») (fits : «end» - start < 2 ^ 31) (fuel : Nat)
    (enough : «end» - start < fuel) :
    ∃ w, randWorkload random fuel start «end» stride = some (.ok w) ∧
      ∃ offsets, drain RandWorkload.hasNext RandWorkload.nextOffset fuel w = some offsets ∧
        offsets = (List.range («end» - start).toNat).map
          (fun k => (start + (random k : Int) % («end» - start)) * stride) ∧
        ∀ o ∈ offsets, ∃ j, start ≤ j ∧ j < «end» ∧ o = j * stride := by
  obtain ⟨range, rangeIs⟩ : ∃ range : Nat, «end» - start = range :=
    ⟨_, (Int.toNat_of_nonneg (by omega)).symm⟩
  have drawn := fillRandOffsets_ok random start range stride (by omega) fuel 0 (fun _ => 0)
    (Nat.zero_le _) (by omega)
  rw [Nat.cast_zero] at drawn
  refine ⟨_, by rw [randWorkload, rangeIs, drawn]; rfl, _, drain_randWorkload range fuel 0 _ rfl rfl
    (Nat.zero_le _) (by omega), ?_, ?_⟩
  · rw [rangeIs, Int.toNat_ofNat, Nat.sub_zero, ← List.range_eq_range']
    exact List.map_congr_left fun k member => if_pos ⟨Nat.zero_le _, List.mem_range.mp member⟩
  · intro o member
    obtain ⟨k, below, rfl⟩ := List.mem_map.mp member
    have inside : k < range := by have := List.mem_range'_1.mp below; omega
    have positive : (0 : Int) < range := by omega
    dsimp only
    rw [if_pos ⟨Nat.zero_le _, inside⟩]
    exact ⟨_, by have := Int.emod_nonneg (random k : Int) positive.ne'; omega,
      by have := Int.emod_lt_of_pos (random k : Int) positive; omega, rfl⟩

theorem rand_workload_within_range_fourEntries :
    ∃ w, randWorkload (fun k => 3 * k) 5 8 12 512 = some (.ok w) ∧
      ∃ offsets, drain RandWorkload.hasNext RandWorkload.nextOffset 5 w = some offsets ∧
        offsets = (List.range ((12 : Int) - 8).toNat).map
          (fun k => (8 + ((3 * k : Nat) : Int) % (12 - 8)) * 512) ∧
        ∀ o ∈ offsets, ∃ j, 8 ≤ j ∧ j < 12 ∧ o = j * 512 :=
  rand_workload_within_range (fun k => 3 * k) 8 12 512 (by decide) (by decide) 5 (by decide)

/-! ### `file_workload`: offsets written by a Java program

The file's array holds each offset most significant byte first, as Java writes a `long`;
`next_offset` reads it as a little-endian `long` and reverses its bytes. -/

open Graphyti.Matrix (toBytesLE ofBytesLE offBytes readOff)

/-- `file_workload::swap_bytesl`: the `long`'s bytes in reverse order. -/
def swapBytesl (num : BitVec 64) : BitVec 64 :=
  BitVec.ofNat 64 (ofBytesLE (toBytesLE 8 num.toNat).reverse)

/-- `file_workload::next_offset` at `curr`; `none` where the entry's bytes are not all there. -/
def fileWorkloadNextOffset (offsets : List UInt8) (curr : Nat) : Option (BitVec 64) :=
  swapBytesl <$> readOff offsets (8 * curr)

/-- The file as the Java program writes it: each `long` most significant byte first. -/
def javaLongs (values : List (BitVec 64)) : List UInt8 :=
  values.flatMap fun v => (offBytes v).reverse

theorem ofNat_toNat_uint8 (b : UInt8) : UInt8.ofNat b.toNat = b :=
  UInt8.eq_of_toBitVec_eq (BitVec.eq_of_toNat_eq (UInt8.toNat_ofNat_of_lt b.toBitVec.isLt))

theorem toBytesLE_ofBytesLE : ∀ bytes : List UInt8, toBytesLE bytes.length (ofBytesLE bytes) = bytes
  | [] => rfl
  | b :: bytes => by
    have low : b.toNat < 256 := b.toBitVec.isLt
    have digit : (b.toNat + 256 * ofBytesLE bytes) % 256 = b.toNat := by omega
    have rest : (b.toNat + 256 * ofBytesLE bytes) / 256 = ofBytesLE bytes := by omega
    rw [List.length_cons, Matrix.toBytesLE, Matrix.ofBytesLE, digit, rest, ofNat_toNat_uint8,
      toBytesLE_ofBytesLE bytes]

theorem ofBytesLE_lt : ∀ bytes : List UInt8, ofBytesLE bytes < 256 ^ bytes.length
  | [] => Nat.one_pos
  | b :: bytes => by
    have low : b.toNat < 256 := b.toBitVec.isLt
    have := ofBytesLE_lt bytes
    rw [Matrix.ofBytesLE, List.length_cons, Nat.pow_succ]
    omega

theorem swapBytesl_swapBytesl (num : BitVec 64) : swapBytesl (swapBytesl num) = num := by
  have size : (256 : Nat) ^ 8 = 2 ^ 64 := by norm_num
  have reversed : (toBytesLE 8 num.toNat).reverse.length = 8 := by simp
  have fits := ofBytesLE_lt (toBytesLE 8 num.toNat).reverse
  have back := toBytesLE_ofBytesLE (toBytesLE 8 num.toNat).reverse
  rw [reversed, size] at fits
  rw [reversed] at back
  rw [swapBytesl, swapBytesl, BitVec.toNat_ofNat, Nat.mod_eq_of_lt fits, back, List.reverse_reverse,
    Matrix.ofBytesLE_toBytesLE, size, Nat.mod_eq_of_lt num.isLt, BitVec.ofNat_toNat,
    BitVec.setWidth_eq]

theorem readOff_append (pre chunk rest : List UInt8) (eight : chunk.length = 8) :
    readOff (pre ++ (chunk ++ rest)) pre.length = some (BitVec.ofNat 64 (ofBytesLE chunk)) := by
  rw [readOff, if_pos (by simp [eight]), List.drop_left, List.take_left' eight]

theorem readOff_flatMap_chunks {α : Type} (f : α → List UInt8) (eight : ∀ a, (f a).length = 8)
    (i : Nat) : ∀ (pre : List UInt8) (xs : List α),
      readOff (pre ++ xs.flatMap f) (pre.length + 8 * i) =
        xs[i]?.map fun a => BitVec.ofNat 64 (ofBytesLE (f a))
  | pre, [] => by
    rw [List.flatMap_nil, List.append_nil, readOff, if_neg (by omega)]; rfl
  | pre, x :: xs => by
    cases i with
    | zero => exact (readOff_append pre (f x) _ (eight x)).trans (by simp)
    | succ i =>
      have shifted := readOff_flatMap_chunks f eight i (pre ++ f x) xs
      rw [List.append_assoc, List.length_append, eight] at shifted
      rw [List.flatMap_cons, show pre.length + 8 * (i + 1) = pre.length + 8 + 8 * i by omega,
        List.getElem?_cons_succ]
      exact shifted

/-- `next_offset` returns at every cursor the `long` the Java program wrote there. -/
theorem file_workload_reads_java_longs (values : List (BitVec 64)) (curr : Nat) :
    fileWorkloadNextOffset (javaLongs values) curr = values[curr]? := by
  have read := readOff_flatMap_chunks (fun v => (offBytes v).reverse) (by simp [offBytes]) curr []
    values
  rw [List.nil_append, List.length_nil, Nat.zero_add] at read
  rw [fileWorkloadNextOffset, javaLongs, read, Option.map_eq_map, Option.map_map]
  cases values[curr]? with
  | none => rfl
  | some v =>
    show some (swapBytesl (swapBytesl v)) = some v
    rw [swapBytesl_swapBytesl]

end Graphyti.Workload
