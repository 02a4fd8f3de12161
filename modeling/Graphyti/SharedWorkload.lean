import Graphyti.Workload
import Mathlib.Data.List.FinRange

/-! The workloads whose objects share what one pointer holds. The objects of
`global_rand_permute_workload` read one permutation through a static pointer, and those of
`balanced_workload` refill their buffers from one chunk source; in both, the first destructor
deletes what the pointer holds and sets it to NULL. A clone of a
`local_rand_permute_workload` shares its original's `rand_permute`, and each destructor deletes
it. A run is a list of calls of the threads, each call one atomic step. -/
namespace Graphyti.Workload

/-! ### `global_rand_permute_workload`: one permutation behind a static pointer

Every object reads the class's static `permute`. A constructor checks it and, finding NULL,
builds a `rand_permute(num, stride)` and stores it, with no lock between the check and the
store: a constructor that checks while another is building builds a second permutation and
stores it over the first. Every destructor deletes `permute` and sets it back to NULL. -/

/-- The `rand_permute` the static `permute` points to: its `num` entries. -/
structure SharedPermute where
  num : Nat
  offset : Nat → Int

/-- A `global_rand_permute_workload` object: its `start` and `end`. -/
structure GlobalRandPermuteWorkload where
  start : Int
  «end» : Int
  deriving DecidableEq

/-- A constructor that found `permute` NULL and has not stored its own. -/
structure GlobalConstruct where
  num : Nat
  stride : Int
  start : Int
  «end» : Int
  random : Nat → Nat

/-- The threads' objects, their constructors between check and store, the static `permute`
(`none` while NULL), and the offsets handed out so far. -/
structure GlobalRandPermuteState (n : Nat) where
  permute : Option SharedPermute
  gens : Fin n → Option GlobalRandPermuteWorkload
  building : Fin n → Option GlobalConstruct
  emitted : List Int

def GlobalRandPermuteState.initial {n : Nat} : GlobalRandPermuteState n :=
  ⟨none, fun _ => none, fun _ => none, []⟩

/-- Thread `t`'s constructor up to its check of `permute` (`random()` returns `random k` at its
`k`-th call), the store of its own `rand_permute`, a `next_offset()`, or its destructor. -/
inductive GlobalRandPermuteEvent (n : Nat)
  | construct (t : Fin n) (num : Nat) (stride : Int) (start «end» : Int) (random : Nat → Nat)
  | store (t : Fin n)
  | nextOffset (t : Fin n)
  | destroy (t : Fin n)

def GlobalRandPermuteEvent.isStore {n : Nat} : GlobalRandPermuteEvent n → Bool
  | .store _ => true
  | _ => false

/-- One step; `none` where an object is not as the call needs, or `fuel` runs out. -/
def globalStep {n : Nat} (fuel : Nat) :
    GlobalRandPermuteEvent n → GlobalRandPermuteState n → Option (Except String (GlobalRandPermuteState n))
  | .construct t num stride start «end» random, s =>
    if (s.gens t).isSome || (s.building t).isSome then none
    else
      match s.permute with
      | some _ => some (.ok { s with gens := Function.update s.gens t (some ⟨start, «end»⟩) })
      | none => some (.ok { s with
          building := Function.update s.building t (some ⟨num, stride, start, «end», random⟩) })
  | .store t, s =>
    match s.building t with
    | some c => (randPermute c.random fuel c.num c.stride).map (·.map fun offset =>
        { s with
          permute := some ⟨c.num, offset⟩
          gens := Function.update s.gens t (some ⟨c.start, c.«end»⟩)
          building := Function.update s.building t none })
    | none => none
  | .nextOffset t, s =>
    match s.gens t with
    | some g =>
      if g.start < g.«end» then
        match s.permute with
        | none => some (.error "permute->get_offset(start++): permute is NULL")
        | some p =>
          if 0 ≤ g.start ∧ g.start < p.num then
            some (.ok { s with
              gens := Function.update s.gens t (some { g with start := g.start + 1 })
              emitted := s.emitted ++ [p.offset g.start.toNat] })
          else some (.error "permute->get_offset(start++): start lies outside the array")
      else none
    | none => none
  | .destroy t, s =>
    if (s.gens t).isSome then
      some (.ok { s with permute := none, gens := Function.update s.gens t none })
    else none

def globalExecute {n : Nat} (fuel : Nat) :
    List (GlobalRandPermuteEvent n) → GlobalRandPermuteState n →
      Option (Except String (GlobalRandPermuteState n))
  | [], s => some (.ok s)
  | e :: events, s =>
    match globalStep fuel e s with
    | some (.ok s') => globalExecute fuel events s'
    | other => other

section Shared

variable {n : Nat} (starts ends : Fin n → Nat)

def remainingOffsets (offset : Nat → Int) (gens : Fin n → Option GlobalRandPermuteWorkload)
    (t : Fin n) : List Int :=
  match gens t with
  | none => (List.range' (starts t) (ends t - starts t)).map offset
  | some g => (List.range' g.start.toNat (ends t - g.start.toNat)).map offset

variable (num : Nat) (stride : Int)

/-- Calls with one `num` and `stride`, each thread over its own range, and no destructor. -/
def Shared : GlobalRandPermuteEvent n → Prop
  | .construct t num' stride' start «end» _ =>
    num' = num ∧ stride' = stride ∧ start = starts t ∧ «end» = ends t
  | .store _ => True
  | .nextOffset _ => True
  | .destroy _ => False

instance : DecidablePred (Shared starts ends num stride)
  | .construct .. => inferInstanceAs (Decidable (_ ∧ _ ∧ _ ∧ _))
  | .store _ => inferInstanceAs (Decidable True)
  | .nextOffset _ => inferInstanceAs (Decidable True)
  | .destroy _ => inferInstanceAs (Decidable False)

/-- Cursors stay in range, nothing is built or handed out before `permute` is, and then what
was handed out and what is left make up `permute`'s multiples of `stride`, each once. -/
structure SharedInvariant (s : GlobalRandPermuteState n) : Prop where
  cursors : ∀ t g, s.gens t = some g →
    g.«end» = ends t ∧ ∃ c : Nat, g.start = c ∧ starts t ≤ c ∧ c ≤ ends t
  building : ∀ t c, s.building t = some c →
    c.num = num ∧ c.stride = stride ∧ c.start = starts t ∧ c.«end» = ends t ∧ s.gens t = none
  unbuilt : s.permute = none → (∀ t, s.gens t = none) ∧ s.emitted = []
  built : ∀ p, s.permute = some p → p.num = num ∧
    (∃ σ : Equiv.Perm Nat, (∀ k, num ≤ k → σ k = k) ∧ ∀ k < num, p.offset k = σ k * stride) ∧
    (s.emitted ++ (List.finRange n).flatMap (remainingOffsets starts ends p.offset s.gens)).Perm
      ((List.range num).map p.offset)

end Shared

theorem flatMap_perm_append {α β : Type} [DecidableEq α] {f g : α → List β} {t : α} {l : List β}
    (here : f t = l ++ g t) (others : ∀ u, u ≠ t → f u = g u) :
    ∀ ts : List α, ts.Nodup → t ∈ ts → (ts.flatMap f).Perm (l ++ ts.flatMap g)
  | [], _, member => absurd member (List.not_mem_nil _)
  | u :: ts, distinct, member => by
    obtain ⟨fresh, distinct⟩ := List.nodup_cons.mp distinct
    rw [List.flatMap_cons, List.flatMap_cons]
    by_cases same : u = t
    · subst same
      have rest : ts.flatMap f = ts.flatMap g :=
        List.flatMap_congr fun v member => others v fun same => fresh (same ▸ member)
      rw [here, rest, List.append_assoc]
    · rw [others u same]
      have := flatMap_perm_append here others ts distinct
        ((List.mem_cons.mp member).resolve_left (Ne.symm same))
      exact (this.append_left _).trans (List.perm_append_comm_assoc _ _ _)

theorem forall_update_some {α β : Type} [DecidableEq α] {f : α → Option β} {P : α → β → Prop}
    (all : ∀ a b, f a = some b → P a b) {a : α} {b : β} (here : P a b) :
    ∀ a' b', Function.update f a (some b) a' = some b' → P a' b' := by
  intro a' b' found
  by_cases same : a' = a
  · subst same
    rw [Function.update_same, Option.some_inj] at found
    exact found ▸ here
  · exact all a' b' (by rwa [Function.update_noteq same] at found)

section SharedRun

variable {n : Nat} {starts ends : Fin n → Nat} {num : Nat} {stride : Int}

theorem remainingOffsets_update_other (offset : Nat → Int) (gens : Fin n → Option GlobalRandPermuteWorkload)
    {t u : Fin n} (other : u ≠ t) (g : Option GlobalRandPermuteWorkload) :
    remainingOffsets starts ends offset (Function.update gens t g) u =
      remainingOffsets starts ends offset gens u := by
  simp only [remainingOffsets, Function.update_noteq other]

theorem remainingOffsets_construct (offset : Nat → Int) {gens : Fin n → Option GlobalRandPermuteWorkload}
    {t : Fin n} (unbuilt : gens t = none) :
    remainingOffsets starts ends offset
      (Function.update gens t (some ⟨starts t, ends t⟩)) =
      remainingOffsets starts ends offset gens := by
  funext u
  by_cases same : u = t
  · subst same; simp only [remainingOffsets, Function.update_same, unbuilt, Int.toNat_ofNat]
  · exact remainingOffsets_update_other offset gens same _

theorem SharedInvariant.initial : SharedInvariant starts ends num stride (n := n) .initial :=
  ⟨fun _ _ built => (nomatch built), fun _ _ building => (nomatch building),
    fun _ => ⟨fun _ => rfl, rfl⟩, fun _ built => nomatch built⟩

section Step

variable (ordered : ∀ t, starts t ≤ ends t)
  (partition : ((List.finRange n).flatMap fun t => List.range' (starts t) (ends t - starts t)).Perm
    (List.range num))
  {s : GlobalRandPermuteState n} (inv : SharedInvariant starts ends num stride s)
include ordered partition inv

omit partition in
theorem SharedInvariant.construct_step {fuel : Nat} (t : Fin n) (random : Nat → Nat) {r}
    (stepped : globalStep fuel (.construct t num stride (starts t) (ends t) random) s = some r) :
    ∃ s', r = .ok s' ∧ SharedInvariant starts ends num stride s' ∧ s'.permute = s.permute := by
  simp only [globalStep] at stepped
  split at stepped
  · cases stepped
  rename_i idle
  simp only [Bool.or_eq_true, not_or, Option.not_isSome_iff_eq_none] at idle
  obtain ⟨unbuilt, idle⟩ := idle
  split at stepped
  case h_1 p held =>
    refine ⟨_, (Option.some_inj.mp stepped).symm, ⟨forall_update_some inv.cursors (a := t)
      ⟨rfl, starts t, rfl, le_rfl, ordered t⟩, fun u c found => ?_,
      fun none => (nomatch held.symm.trans none), fun p' built => ?_⟩, rfl⟩
    · dsimp only at found
      have other : u ≠ t := by rintro rfl; rw [idle] at found; cases found
      obtain ⟨a, b, c', d, unbuilt'⟩ := inv.building u c found
      exact ⟨a, b, c', d, by dsimp only; rw [Function.update_noteq other, unbuilt']⟩
    · dsimp only at built ⊢
      rw [remainingOffsets_construct _ unbuilt]
      exact inv.built p' built
  case h_2 =>
    exact ⟨_, (Option.some_inj.mp stepped).symm, ⟨inv.cursors,
      forall_update_some inv.building (a := t) ⟨rfl, rfl, rfl, rfl, unbuilt⟩,
      inv.unbuilt, inv.built⟩, rfl⟩

theorem SharedInvariant.store_step {fuel : Nat} (fits : num < 2 ^ 31) (enough : num < fuel)
    (t : Fin n) (null : s.permute = none) {r} (stepped : globalStep fuel (.store t) s = some r) :
    ∃ s', r = .ok s' ∧ SharedInvariant starts ends num stride s' := by
  simp only [globalStep] at stepped
  split at stepped
  case h_2 => cases stepped
  rename_i c building
  obtain ⟨numIs, strideIs, start, last, unbuilt⟩ := inv.building t c building
  obtain ⟨offset, ran, σ, fixes, through⟩ :=
    randPermute_ok c.random c.num c.stride (numIs ▸ fits) fuel (numIs ▸ enough)
  obtain ⟨none_yet, nothing⟩ := inv.unbuilt null
  rw [ran] at stepped
  refine ⟨_, (Option.some_inj.mp stepped).symm, ⟨?_, fun u c' found => ?_,
    fun built => (nomatch built), fun p built => ?_⟩⟩
  · exact forall_update_some inv.cursors (a := t) ⟨last, starts t, start, le_rfl, ordered t⟩
  · have other : u ≠ t := by rintro rfl; simp at found
    obtain ⟨a, b, c'', d, unbuilt'⟩ := inv.building u c' (by simpa [other] using found)
    exact ⟨a, b, c'', d, by dsimp only; rw [Function.update_noteq other, unbuilt']⟩
  · cases Option.some_inj.mp built
    refine ⟨numIs, ⟨σ, numIs ▸ fixes, numIs ▸ strideIs ▸ through⟩, ?_⟩
    dsimp only
    rw [start, last, remainingOffsets_construct _ unbuilt, nothing, List.nil_append]
    have all : remainingOffsets starts ends offset s.gens =
        fun u => (List.range' (starts u) (ends u - starts u)).map offset := by
      funext u; simp only [remainingOffsets, none_yet u]
    rw [all, ← List.map_flatMap]
    exact partition.map offset

omit ordered in
theorem SharedInvariant.nextOffset_step {fuel : Nat} (t : Fin n) {r}
    (stepped : globalStep fuel (.nextOffset t) s = some r) :
    ∃ s', r = .ok s' ∧ SharedInvariant starts ends num stride s' ∧ s'.permute = s.permute := by
  simp only [globalStep] at stepped
  split at stepped
  case h_2 => cases stepped
  rename_i g built
  obtain ⟨start, «end»⟩ := g
  obtain ⟨last, c, first, low, high⟩ := inv.cursors t _ built
  dsimp only at last first
  subst last first
  split at stepped
  case isFalse => cases stepped
  rename_i more
  have more : c < ends t := by dsimp only at more; exact_mod_cast more
  cases held : s.permute with
  | none => exact absurd ((inv.unbuilt held).1 t ▸ built) (by simp)
  | some p =>
    obtain ⟨sized, perm, covered⟩ := inv.built p held
    have inside : c < num := List.mem_range.mp <| partition.subset <|
      List.mem_flatMap.mpr ⟨t, List.mem_finRange t, List.mem_range'_1.mpr ⟨low, by omega⟩⟩
    rw [held] at stepped
    dsimp only at stepped
    rw [if_pos ⟨Int.natCast_nonneg c, by omega⟩] at stepped
    refine ⟨_, (Option.some_inj.mp stepped).symm, ⟨forall_update_some inv.cursors (a := t)
      ⟨rfl, c + 1, rfl, by omega, more⟩, fun u c' found => ?_, fun null => (nomatch null),
      fun p' built' => ?_⟩, rfl⟩
    · obtain ⟨a, b, c'', d, unbuilt⟩ := inv.building u c' found
      have other : u ≠ t := by rintro rfl; rw [built] at unbuilt; cases unbuilt
      exact ⟨a, b, c'', d, by dsimp only; rw [Function.update_noteq other, unbuilt]⟩
    · cases Option.some_inj.mp built'
      refine ⟨sized, perm, ?_⟩
      have taken := flatMap_perm_append (t := t) (l := [p.offset c])
        (g := remainingOffsets starts ends p.offset
          (Function.update s.gens t (some ⟨c + 1, ends t⟩)))
        (by simp only [remainingOffsets, built, Function.update_same, Int.toNat_ofNat,
          Int.toNat_ofNat_add_one, show ends t - c = ends t - (c + 1) + 1 by omega,
          List.range'_succ, List.map_cons, List.singleton_append])
        (fun u other => (remainingOffsets_update_other p.offset s.gens other _).symm) _
        (List.nodup_finRange n) (List.mem_finRange t)
      rw [Int.toNat_ofNat, List.append_assoc]
      exact ((taken.append_left _).symm).trans covered

theorem SharedInvariant.step {fuel : Nat} (fits : num < 2 ^ 31) (enough : num < fuel)
    {e : GlobalRandPermuteEvent n} (shared : Shared starts ends num stride e)
    (once : e.isStore = true → s.permute = none) {r} (stepped : globalStep fuel e s = some r) :
    ∃ s', r = .ok s' ∧ SharedInvariant starts ends num stride s' ∧
      (e.isStore = false → s'.permute = s.permute) := by
  cases e with
  | construct t _ _ _ _ random =>
    obtain ⟨rfl, rfl, rfl, rfl⟩ := shared
    obtain ⟨s', found, inv', kept⟩ := inv.construct_step ordered t random stepped
    exact ⟨s', found, inv', fun _ => kept⟩
  | store t =>
    obtain ⟨s', found, inv'⟩ := inv.store_step ordered partition fits enough t (once rfl) stepped
    exact ⟨s', found, inv', nofun⟩
  | nextOffset t =>
    obtain ⟨s', found, inv', kept⟩ := inv.nextOffset_step partition t stepped
    exact ⟨s', found, inv', fun _ => kept⟩
  | destroy => exact shared.elim

end Step

theorem SharedInvariant.execute (ordered : ∀ t, starts t ≤ ends t)
    (partition : ((List.finRange n).flatMap fun t => List.range' (starts t) (ends t - starts t)).Perm
      (List.range num)) {fuel : Nat} (fits : num < 2 ^ 31) (enough : num < fuel) :
    ∀ {events : List (GlobalRandPermuteEvent n)} {s}, SharedInvariant starts ends num stride s →
      (∀ e ∈ events, Shared starts ends num stride e) →
      events.countP GlobalRandPermuteEvent.isStore + (if s.permute.isSome then 1 else 0) ≤ 1 →
      ∀ {r}, globalExecute fuel events s = some r →
        ∃ s', r = .ok s' ∧ SharedInvariant starts ends num stride s'
  | [], s, inv, _, _, _, ran => ⟨s, (Option.some_inj.mp ran).symm, inv⟩
  | e :: _, s, inv, shared, once, _, ran => by
    rw [List.countP_cons] at once
    cases stepped : globalStep fuel e s with
    | none => simp only [globalExecute, stepped] at ran; cases ran
    | some r =>
      obtain ⟨s', rfl, inv', kept⟩ := inv.step ordered partition fits enough
        (shared e (List.mem_cons_self _ _)) (fun store => Option.not_isSome_iff_eq_none.mp
          fun built => by simp only [store, built, if_true] at once; omega) stepped
      simp only [globalExecute, stepped] at ran
      refine inv'.execute ordered partition fits enough
        (fun e' member => shared e' (List.mem_cons_of_mem _ member)) ?_ ran
      cases store : e.isStore
      · simpa [kept store, store] using once
      · simp only [store, if_true] at once; split <;> omega

end SharedRun

/-- However the steps interleave, with one `num` and `stride`, a partition of `[0, num)`, no
destructor and at most one store, no call fails; once every object is built and exhausted, each
`k * stride` with `k < num` has been handed out exactly once. -/
theorem global_rand_permute_covers {n : Nat} (fuel num : Nat) (fits : num < 2 ^ 31)
    (enough : num < fuel) (stride : Int) (starts ends : Fin n → Nat)
    (ordered : ∀ t, starts t ≤ ends t)
    (partition : ((List.finRange n).flatMap fun t => List.range' (starts t) (ends t - starts t)).Perm
      (List.range num))
    (events : List (GlobalRandPermuteEvent n)) (shared : ∀ e ∈ events, Shared starts ends num stride e)
    (once : events.countP GlobalRandPermuteEvent.isStore ≤ 1)
    {r} (ran : globalExecute fuel events .initial = some r) :
    ∃ s, r = .ok s ∧ ((∀ t, ∃ g, s.gens t = some g ∧ ¬ g.start < g.«end») →
      s.emitted.Perm ((List.range num).map fun k : Nat => k * stride)) := by
  obtain ⟨s, rfl, inv⟩ := SharedInvariant.execute ordered partition fits enough .initial shared
    (by simpa [GlobalRandPermuteState.initial] using once) ran
  refine ⟨s, rfl, fun drained => ?_⟩
  cases held : s.permute with
  | none =>
    -- No object has been built, so there are no threads and nothing to hand out.
    obtain ⟨unbuilt, nothing⟩ := inv.unbuilt held
    have threads : ∀ t : Fin n, False := fun t => by
      obtain ⟨g, built, -⟩ := drained t
      rw [unbuilt t] at built
      cases built
    rw [List.flatMap_eq_nil_iff.mpr fun t _ => (threads t).elim] at partition
    rw [nothing, ← partition.nil_eq]
    exact .nil
  | some p =>
    obtain ⟨-, ⟨σ, fixes, through⟩, covered⟩ := inv.built p held
    have finished : ∀ t, remainingOffsets starts ends p.offset s.gens t = [] := fun t => by
      obtain ⟨g, built, done⟩ := drained t
      obtain ⟨last, c, first, -, -⟩ := inv.cursors t g built
      rw [last, first, Int.ofNat_lt] at done
      simp only [remainingOffsets, built, first, Int.toNat_ofNat, Nat.sub_eq_zero_of_le (not_lt.mp done),
        List.range'_zero, List.map_nil]
    rw [List.flatMap_eq_nil_iff.mpr fun t _ => finished t, List.append_nil] at covered
    exact covered.trans (map_range_perm fixes through)

/-- Two threads over the halves of `[0, 4)`; the second finds the first one's permutation. -/
def twoThreadRun : List (GlobalRandPermuteEvent 2) :=
  [.construct 0 4 1024 0 2 (fun _ => 0), .store 0, .construct 1 4 1024 2 4 (fun _ => 0),
    .nextOffset 0, .nextOffset 1, .nextOffset 1, .nextOffset 0]

theorem global_rand_permute_covers_twoThreads :
    ∃ s, globalExecute 5 twoThreadRun .initial = some (.ok s) ∧
      ((∀ t, ∃ g, s.gens t = some g ∧ ¬ g.start < g.«end») →
        s.emitted.Perm ((List.range 4).map fun k : Nat => k * 1024)) := by
  obtain ⟨s, found, cover⟩ := global_rand_permute_covers 5 4 (by decide) (by decide) 1024
    (fun t => 2 * t.val) (fun t => 2 * t.val + 2) (fun _ => Nat.le_add_right _ 2) (by decide)
    twoThreadRun (by decide) (by decide) rfl
  exact ⟨s, found ▸ rfl, cover⟩

/-! ### `balanced_workload`: threads refilling from one chunk source

An object hands out its buffer of `CHUNK_SLOTS` offsets and, once it is used up, refills it
from the `workload_chunk` behind the class's static `chunks`; the source takes its own lock, so
a refill is one atomic step. -/

def chunkSlots : Nat := 1024

/-- A `workload_chunk` over its state `σ`; `getWorkload` is `get_workload(offsets, num)`, whose
implementations are not in the source. -/
structure WorkloadChunk (σ : Type) where
  getWorkload : σ → (Nat → Int) → Nat → Bool × (Nat → Int) × σ

/-- A `balanced_workload` object: its buffer `offsets` and `curr`. -/
structure BalancedWorkload where
  offsets : Nat → Int
  curr : Nat

namespace BalancedWorkload

variable {σ : Type}

/-- `balanced_workload(chunks)`: the buffer zeroed and used up. -/
def create : BalancedWorkload := ⟨fun _ => 0, chunkSlots⟩

/-- `has_next()`, the static `chunks` holding the source's state (`none` while NULL). -/
def hasNext (src : WorkloadChunk σ) (chunks : Option σ) (w : BalancedWorkload) :
    Except String (Bool × BalancedWorkload × Option σ) :=
  if w.curr < chunkSlots then .ok (true, w, chunks)
  else
    match chunks with
    | none => .error "chunks->get_workload(offsets, CHUNK_SLOTS): chunks is NULL"
    | some c =>
      match src.getWorkload c w.offsets chunkSlots with
      | (ret, offsets, c') => .ok (ret, ⟨offsets, 0⟩, some c')

/-- `next_offset()`: `offsets[curr++]`. -/
def nextOffset (w : BalancedWorkload) : Except String (Int × BalancedWorkload) :=
  if w.curr < chunkSlots then .ok (w.offsets w.curr, { w with curr := w.curr + 1 })
  else .error "offsets[curr++]: curr lies outside the array"

end BalancedWorkload

/-- Where a thread is in `while (has_next()) next_offset();`. -/
inductive CallerPhase
  | asking
  | granted
  | finished
  deriving DecidableEq

/-- Objects, loops, the static `chunks`, offsets handed out, and buffers filled in order. -/
structure BalancedState (σ : Type) (n : Nat) where
  chunks : Option σ
  gens : Fin n → Option BalancedWorkload
  phase : Fin n → CallerPhase
  emitted : List Int
  delivered : List (Nat → Int)

def BalancedState.initial {σ : Type} {n : Nat} (c : σ) : BalancedState σ n :=
  ⟨some c, fun _ => some .create, fun _ => .asking, [], []⟩

inductive BalancedEvent (n : Nat)
  | hasNext (t : Fin n)
  | nextOffset (t : Fin n)
  | destroy (t : Fin n)
  deriving DecidableEq

namespace BalancedState

variable {σ : Type} {n : Nat}

def afterHasNext (s : BalancedState σ n) (t : Fin n) (w : BalancedWorkload) :
    Bool × BalancedWorkload × Option σ → BalancedState σ n
  | (ret, w', chunks) =>
    { s with
      chunks
      gens := Function.update s.gens t (some w')
      phase := Function.update s.phase t (if ret then .granted else .finished)
      delivered := if ret ∧ chunkSlots ≤ w.curr then s.delivered ++ [w'.offsets] else s.delivered }

def afterNextOffset (s : BalancedState σ n) (t : Fin n) : Int × BalancedWorkload → BalancedState σ n
  | (offset, w') =>
    { s with
      gens := Function.update s.gens t (some w')
      phase := Function.update s.phase t .asking
      emitted := s.emitted ++ [offset] }

end BalancedState

/-- One call of one thread; `none` if its object or its loop is not where the call needs. -/
def balancedStep {σ : Type} {n : Nat} (src : WorkloadChunk σ) :
    BalancedEvent n → BalancedState σ n → Option (Except String (BalancedState σ n))
  | .hasNext t, s =>
    match s.gens t, s.phase t with
    | some w, .asking => some ((w.hasNext src s.chunks).map (s.afterHasNext t w))
    | _, _ => none
  | .nextOffset t, s =>
    match s.gens t, s.phase t with
    | some w, .granted => some (w.nextOffset.map (s.afterNextOffset t))
    | _, _ => none
  | .destroy t, s =>
    match s.gens t with
    | some _ => some (.ok { s with
        chunks := none
        gens := Function.update s.gens t none
        phase := Function.update s.phase t .finished })
    | none => none

def balancedExecute {σ : Type} {n : Nat} (src : WorkloadChunk σ) :
    List (BalancedEvent n) → BalancedState σ n → Option (Except String (BalancedState σ n))
  | [], s => some (.ok s)
  | e :: events, s =>
    match balancedStep src e s with
    | some (.ok s') => balancedExecute src events s'
    | other => other

namespace BalancedWorkload

variable {σ : Type} (src : WorkloadChunk σ)

theorem hasNext_of_lt {w : BalancedWorkload} (fresh : w.curr < chunkSlots) (chunks : Option σ) :
    w.hasNext src chunks = .ok (true, w, chunks) := if_pos fresh

theorem hasNext_refill {w : BalancedWorkload} (usedUp : chunkSlots ≤ w.curr) {c c' : σ} {ret : Bool}
    {offsets : Nat → Int} (got : src.getWorkload c w.offsets chunkSlots = (ret, offsets, c')) :
    w.hasNext src (some c) = .ok (ret, ⟨offsets, 0⟩, some c') := by
  rw [hasNext, if_neg (Nat.not_lt.mpr usedUp)]
  simp only [got]

theorem nextOffset_of_lt {w : BalancedWorkload} (fresh : w.curr < chunkSlots) :
    w.nextOffset = .ok (w.offsets w.curr, { w with curr := w.curr + 1 }) := if_pos fresh

end BalancedWorkload

section Balanced

variable {σ : Type} {n : Nat}

/-- The offsets left in thread `t`'s buffer for its loop. -/
def inFlight (gens : Fin n → Option BalancedWorkload) (phase : Fin n → CallerPhase) (t : Fin n) :
    List Int :=
  match gens t with
  | some w =>
    if phase t = .finished then [] else (List.range' w.curr (chunkSlots - w.curr)).map w.offsets
  | none => []

theorem inFlight_update_other (gens : Fin n → Option BalancedWorkload) (phase : Fin n → CallerPhase)
    {t u : Fin n} (other : u ≠ t) (g : Option BalancedWorkload) (p : CallerPhase) :
    inFlight (Function.update gens t g) (Function.update phase t p) u = inFlight gens phase u := by
  simp only [inFlight, Function.update_noteq other]

theorem inFlight_update_same (gens : Fin n → Option BalancedWorkload) (phase : Fin n → CallerPhase)
    (t : Fin n) (w : BalancedWorkload) (p : CallerPhase) :
    inFlight (Function.update gens t (some w)) (Function.update phase t p) t =
      if p = .finished then [] else (List.range' w.curr (chunkSlots - w.curr)).map w.offsets := by
  simp only [inFlight, Function.update_same]

theorem inFlight_update_eq {gens : Fin n → Option BalancedWorkload} {phase : Fin n → CallerPhase}
    {t : Fin n} {w : BalancedWorkload} {p : CallerPhase}
    (same : inFlight (Function.update gens t (some w)) (Function.update phase t p) t =
      inFlight gens phase t) :
    inFlight (Function.update gens t (some w)) (Function.update phase t p) = inFlight gens phase := by
  funext u
  by_cases here : u = t
  · exact here ▸ same
  · exact inFlight_update_other gens phase here _ _

/-- `chunks` is set, every `curr` lies within its buffer, and what was handed out with what the
loops still hold is every filled buffer, each entry once. -/
structure BalancedInvariant (s : BalancedState σ n) : Prop where
  source : s.chunks ≠ none
  objects : ∀ t, ∃ w, s.gens t = some w ∧ w.curr ≤ chunkSlots ∧
    (s.phase t = .granted → w.curr < chunkSlots)
  handed : (s.emitted ++ (List.finRange n).flatMap (inFlight s.gens s.phase)).Perm
    (s.delivered.flatMap fun b => (List.range chunkSlots).map b)

theorem BalancedInvariant.initial (c : σ) : BalancedInvariant (BalancedState.initial (n := n) c) where
  source := nofun
  objects _ := ⟨_, rfl, le_rfl, nofun⟩
  handed := by
    have empty : ∀ t : Fin n,
        inFlight (fun _ => some BalancedWorkload.create) (fun _ => .asking) t = [] :=
      fun _ => by simp only [inFlight, BalancedWorkload.create, Nat.sub_self, List.range'_zero,
        List.map_nil, ite_self]
    simp only [BalancedState.initial, empty, List.flatMap_eq_nil_iff.mpr fun t _ => empty t,
      List.append_nil, List.flatMap_nil, List.Perm.refl]

variable (src : WorkloadChunk σ) {s : BalancedState σ n} (inv : BalancedInvariant s)
include inv

theorem BalancedInvariant.objects_update {t : Fin n} {w : BalancedWorkload} {p : CallerPhase}
    (bounded : w.curr ≤ chunkSlots) (due : p = .granted → w.curr < chunkSlots) :
    ∀ u, ∃ w', Function.update s.gens t (some w) u = some w' ∧ w'.curr ≤ chunkSlots ∧
      (Function.update s.phase t p u = .granted → w'.curr < chunkSlots) := by
  intro u
  by_cases same : u = t
  · subst same
    simpa only [Function.update_same, Option.some_inj, exists_eq_left'] using ⟨bounded, due⟩
  · simpa only [Function.update_noteq same] using inv.objects u

theorem BalancedInvariant.hasNext_step (t : Fin n) {r}
    (stepped : balancedStep src (.hasNext t) s = some r) :
    ∃ s', r = .ok s' ∧ BalancedInvariant s' := by
  obtain ⟨w, built, bounded, -⟩ := inv.objects t
  cases asking : s.phase t <;> simp only [balancedStep, built, asking] at stepped <;> cases stepped
  by_cases fresh : w.curr < chunkSlots
  · -- A buffer with offsets left: the loop goes on without asking the source.
    rw [BalancedWorkload.hasNext_of_lt src fresh]
    refine ⟨_, rfl, inv.source, inv.objects_update bounded fun _ => fresh, ?_⟩
    have kept : inFlight (Function.update s.gens t (some w)) (Function.update s.phase t .granted) =
        inFlight s.gens s.phase := inFlight_update_eq <| by
      simp only [inFlight, Function.update_same, built, asking, reduceCtorEq, if_false]
    simpa only [BalancedState.afterHasNext, if_true, Bool.true_eq_false, not_le.mpr fresh,
      and_false, if_false, kept] using inv.handed
  · -- A used-up buffer: one atomic `get_workload` on the source.
    have usedUp : w.curr = chunkSlots := by omega
    obtain ⟨c, held⟩ := Option.ne_none_iff_exists'.mp inv.source
    obtain ⟨⟨ret, offsets, c'⟩, got⟩ : ∃ result, src.getWorkload c w.offsets chunkSlots = result :=
      ⟨_, rfl⟩
    rw [held, BalancedWorkload.hasNext_refill src usedUp.ge got]
    have before : inFlight s.gens s.phase t = [] := by
      simp only [inFlight, built, usedUp, Nat.sub_self, List.range'_zero, List.map_nil, ite_self]
    refine ⟨_, rfl, nofun,
      inv.objects_update (Nat.zero_le _) fun _ => show 0 < chunkSlots by decide, ?_⟩
    cases ret with
    | false =>
      -- The source is drained: the loop ends with nothing held.
      have kept : inFlight (Function.update s.gens t (some ⟨offsets, 0⟩))
          (Function.update s.phase t .finished) = inFlight s.gens s.phase :=
        inFlight_update_eq (by rw [inFlight_update_same, before, if_pos rfl])
      simpa only [BalancedState.afterHasNext, Bool.false_eq_true, if_false, false_and, kept]
        using inv.handed
    | true =>
      -- A fresh buffer: all of it is now held by thread `t`'s loop.
      have taken := flatMap_perm_append (t := t) (l := (List.range chunkSlots).map offsets)
        (f := inFlight (Function.update s.gens t (some ⟨offsets, 0⟩))
          (Function.update s.phase t .granted))
        (by rw [inFlight_update_same, before, List.append_nil, List.range_eq_range']; rfl)
        (fun u other => inFlight_update_other _ _ other _ _) _ (List.nodup_finRange n)
        (List.mem_finRange t)
      simp only [BalancedState.afterHasNext, if_true, usedUp, le_refl, and_self,
        List.flatMap_append, List.flatMap_singleton]
      exact (taken.append_left _).trans <| (List.perm_append_comm_assoc _ _ _).trans <|
        List.perm_append_comm.trans (inv.handed.append_right _)

theorem BalancedInvariant.nextOffset_step (t : Fin n) {r}
    (stepped : balancedStep src (.nextOffset t) s = some r) :
    ∃ s', r = .ok s' ∧ BalancedInvariant s' := by
  obtain ⟨w, built, -, due⟩ := inv.objects t
  cases granted : s.phase t <;> simp only [balancedStep, built, granted] at stepped <;> cases stepped
  have fresh := due granted
  rw [BalancedWorkload.nextOffset_of_lt fresh]
  refine ⟨_, rfl, inv.source, inv.objects_update fresh nofun, ?_⟩
  have taken := flatMap_perm_append (t := t) (l := [w.offsets w.curr])
    (g := inFlight (Function.update s.gens t (some { w with curr := w.curr + 1 }))
      (Function.update s.phase t .asking))
    (by simp only [inFlight, Function.update_same, built, granted, reduceCtorEq, if_false,
      show chunkSlots - w.curr = chunkSlots - (w.curr + 1) + 1 by omega, List.range'_succ,
      List.map_cons, List.singleton_append])
    (fun u other => (inFlight_update_other _ _ other _ _).symm) _ (List.nodup_finRange n)
    (List.mem_finRange t)
  simp only [BalancedState.afterNextOffset, List.append_assoc]
  exact (taken.append_left _).symm.trans inv.handed

theorem BalancedInvariant.step {e : BalancedEvent n} (kept : ∀ t, e ≠ .destroy t) {r}
    (stepped : balancedStep src e s = some r) : ∃ s', r = .ok s' ∧ BalancedInvariant s' := by
  cases e with
  | hasNext t => exact inv.hasNext_step src t stepped
  | nextOffset t => exact inv.nextOffset_step src t stepped
  | destroy t => exact absurd rfl (kept t)

end Balanced

theorem BalancedInvariant.execute {σ : Type} {n : Nat} (src : WorkloadChunk σ) :
    ∀ {events : List (BalancedEvent n)} {s : BalancedState σ n}, BalancedInvariant s →
      (∀ t, BalancedEvent.destroy t ∉ events) → ∀ {r}, balancedExecute src events s = some r →
      ∃ s', r = .ok s' ∧ BalancedInvariant s'
  | [], s, inv, _, _, ran => ⟨s, (Option.some_inj.mp ran).symm, inv⟩
  | e :: _, s, inv, kept, _, ran => by
    cases stepped : balancedStep src e s with
    | none => simp only [balancedExecute, stepped] at ran; cases ran
    | some r =>
      obtain ⟨s', rfl, inv'⟩ :=
        inv.step src (fun t same => kept t (List.mem_cons.mpr (.inl same.symm))) stepped
      simp only [balancedExecute, stepped] at ran
      exact inv'.execute src (fun t member => kept t (List.mem_cons_of_mem _ member)) ran

/-- However the calls interleave, with no destructor no call fails; once every loop has ended,
each entry of each filled buffer has been handed out exactly once, and nothing else. -/
theorem balanced_workload_hands_out_chunks {σ : Type} (src : WorkloadChunk σ) (c : σ) {n : Nat}
    (events : List (BalancedEvent n)) (kept : ∀ t, BalancedEvent.destroy t ∉ events) {r}
    (ran : balancedExecute src events (.initial c) = some r) :
    ∃ s, r = .ok s ∧ ((∀ t, s.phase t = .finished) →
      s.emitted.Perm (s.delivered.flatMap fun b => (List.range chunkSlots).map b)) := by
  obtain ⟨s, rfl, inv⟩ := BalancedInvariant.execute src (.initial c) kept ran
  refine ⟨s, rfl, fun ended => ?_⟩
  have idle : ∀ t, inFlight s.gens s.phase t = [] := fun t => by
    obtain ⟨w, built, -⟩ := inv.objects t
    simp only [inFlight, built, ended t, if_true]
  simpa only [List.flatMap_eq_nil_iff.mpr fun t _ => idle t, List.append_nil] using inv.handed

/-- A source handing out the given chunks in order, each read as a buffer padded with zeros. -/
def chunkQueue : WorkloadChunk (List (List Int)) where
  getWorkload
    | [], offsets, _ => (false, offsets, [])
    | chunk :: rest, _, _ => (true, fun i => chunk.getD i 0, rest)

/-- Thread 0 takes the one chunk and hands out its first offset; thread 1 finds none left. -/
def oneChunkRun : List (BalancedEvent 2) := [.hasNext 0, .nextOffset 0, .hasNext 1]

theorem balanced_workload_hands_out_chunks_oneChunk :
    ∃ s, balancedExecute chunkQueue oneChunkRun (.initial [[5, 6]]) = some (.ok s) ∧
      ((∀ t, s.phase t = .finished) →
        s.emitted.Perm (s.delivered.flatMap fun b => (List.range chunkSlots).map b)) := by
  obtain ⟨s, found, handed⟩ :=
    balanced_workload_hands_out_chunks chunkQueue [[5, 6]] oneChunkRun (by decide) rfl
  exact ⟨s, found ▸ rfl, handed⟩

/-! ### `local_rand_permute_workload::clone`: two objects, one `rand_permute`

Objects are kept by name and their `rand_permute` arrays in a heap of cells; `new` hands out
fresh cells, so a deleted array is never allocated again. -/

/-- A `local_rand_permute_workload` whose `permute` points at heap cell `permute`. -/
structure LocalRandPermuteObject where
  idx : Int
  num : Int
  start : Int
  permute : Nat

/-- The `rand_permute` arrays by heap cell, the next cell `new` hands out, and the objects. -/
structure PermuteHeap (n : Nat) where
  cells : Nat → Option (Nat → Int)
  next : Nat
  objects : Fin n → Option LocalRandPermuteObject

def PermuteHeap.empty {n : Nat} : PermuteHeap n := ⟨fun _ => none, 0, fun _ => none⟩

/-- `new local_rand_permute_workload(start, end, entry_size)`, `clone()`, and `delete`. -/
inductive PermuteHeapEvent (n : Nat)
  | create (t : Fin n) (start «end» entrySize : Int) (random : Nat → Nat)
  | clone (t t' : Fin n)
  | nextOffset (t : Fin n)
  | destroy (t : Fin n)

/-- One call; `none` where an object is not as the call needs, or `fuel` runs out. -/
def permuteHeapStep {n : Nat} (fuel : Nat) :
    PermuteHeapEvent n → PermuteHeap n → Option (Except String (PermuteHeap n))
  | .create t start «end» entrySize random, s =>
    if (s.objects t).isSome then none
    else (localRandPermuteWorkload random fuel start «end» entrySize).map (·.map fun w =>
      { cells := Function.update s.cells s.next (some w.permute)
        next := s.next + 1
        objects := Function.update s.objects t (some ⟨w.idx, w.num, w.start, s.next⟩) })
  | .clone t t', s =>
    match s.objects t, s.objects t' with
    | some o, none => some (.ok { s with objects := Function.update s.objects t' (some o) })
    | _, _ => none
  | .nextOffset t, s =>
    match s.objects t with
    | some o =>
      if o.idx ≥ o.num then some (.ok s)
      else
        match s.cells o.permute with
        | some _ =>
          some (.ok { s with objects := Function.update s.objects t (some { o with idx := o.idx + 1 }) })
        | none => some (.error "permute->get_offset(idx++): permute was deleted")
    | none => none
  | .destroy t, s =>
    match s.objects t with
    | some o =>
      match s.cells o.permute with
      | some _ => some (.ok { s with
          cells := Function.update s.cells o.permute none
          objects := Function.update s.objects t none })
      | none => some (.error "delete permute: permute was deleted")
    | none => none

def permuteHeapExecute {n : Nat} (fuel : Nat) :
    List (PermuteHeapEvent n) → PermuteHeap n → Option (Except String (PermuteHeap n))
  | [], s => some (.ok s)
  | e :: events, s =>
    match permuteHeapStep fuel e s with
    | some (.ok s') => permuteHeapExecute fuel events s'
    | other => other

def PermuteHeapEvent.names {n : Nat} : PermuteHeapEvent n → List (Fin n)
  | .create t .. => [t]
  | .clone t t' => [t, t']
  | .nextOffset t => [t]
  | .destroy t => [t]

theorem permuteHeapExecute_cons {n : Nat} (fuel : Nat) {e : PermuteHeapEvent n}
    {events : List (PermuteHeapEvent n)} {s s' : PermuteHeap n}
    (ran : permuteHeapExecute fuel (e :: events) s = some (.ok s')) :
    ∃ mid, permuteHeapStep fuel e s = some (.ok mid) ∧
      permuteHeapExecute fuel events mid = some (.ok s') := by
  simp only [permuteHeapExecute] at ran
  rcases stepped : permuteHeapStep fuel e s with _ | _ | mid <;> simp only [stepped] at ran
  · cases ran
  · cases ran
  · exact ⟨mid, rfl, ran⟩

theorem permuteHeapExecute_append {n : Nat} (fuel : Nat) {s s' : PermuteHeap n} :
    ∀ (pre events : List (PermuteHeapEvent n)),
      permuteHeapExecute fuel (pre ++ events) s = some (.ok s') →
      ∃ mid, permuteHeapExecute fuel pre s = some (.ok mid) ∧
        permuteHeapExecute fuel events mid = some (.ok s')
  | [], _, ran => ⟨s, rfl, ran⟩
  | e :: pre, events, ran => by
    obtain ⟨first, stepped, rest⟩ := permuteHeapExecute_cons fuel ran
    obtain ⟨mid, before, after⟩ := permuteHeapExecute_append fuel pre events rest
    exact ⟨mid, by simp only [permuteHeapExecute, stepped, before], after⟩

theorem permuteHeapExecute_induction {n : Nat} (fuel : Nat) (P : PermuteHeap n → Prop)
    (Q : PermuteHeapEvent n → Prop)
    (step : ∀ e s s', Q e → P s → permuteHeapStep fuel e s = some (.ok s') → P s') :
    ∀ (events : List (PermuteHeapEvent n)) (s s' : PermuteHeap n), (∀ e ∈ events, Q e) → P s →
      permuteHeapExecute fuel events s = some (.ok s') → P s'
  | [], s, _, _, holds, ran => (Except.ok.inj (Option.some_inj.mp ran)) ▸ holds
  | e :: events, s, _, each, holds, ran => by
    obtain ⟨mid, stepped, rest⟩ := permuteHeapExecute_cons fuel ran
    exact permuteHeapExecute_induction fuel P Q step events mid _
      (fun e' member => each e' (List.mem_cons_of_mem _ member))
      (step e s mid (each e (List.mem_cons_self _ _)) holds stepped) rest

section Dangling

variable {n : Nat} {fuel : Nat}

theorem map_map_eq_ok {α β ε : Type} {x : Option (Except ε α)} {f : α → β} {b : β}
    (mapped : x.map (·.map f) = some (.ok b)) : ∃ a, x = some (.ok a) ∧ f a = b := by
  rcases x with _ | _ | a
  · cases mapped
  · cases mapped
  · exact ⟨a, rfl, Except.ok.inj (Option.some_inj.mp mapped)⟩

/-- What a call that does not fail does to the heap. -/
theorem permuteHeapStep_ok {s s' : PermuteHeap n} {e : PermuteHeapEvent n}
    (stepped : permuteHeapStep fuel e s = some (.ok s')) :
    (∃ (t : Fin n) (w : LocalRandPermuteWorkload), e.names = [t] ∧
      s' = ⟨Function.update s.cells s.next (some w.permute), s.next + 1,
        Function.update s.objects t (some ⟨w.idx, w.num, w.start, s.next⟩)⟩) ∨
    (∃ t t' o, e = .clone t t' ∧ s.objects t = some o ∧
      s' = { s with objects := Function.update s.objects t' (some o) }) ∨
    (∃ t o, e = .nextOffset t ∧ s.objects t = some o ∧ (s' = s ∨
      s' = { s with objects := Function.update s.objects t (some { o with idx := o.idx + 1 }) })) ∨
    (∃ t o, e = .destroy t ∧ s.objects t = some o ∧
      s' = ⟨Function.update s.cells o.permute none, s.next, Function.update s.objects t none⟩) := by
  cases e with
  | create t start «end» entrySize random =>
    simp only [permuteHeapStep] at stepped
    split at stepped
    · cases stepped
    obtain ⟨w, -, rfl⟩ := map_map_eq_ok stepped
    exact .inl ⟨t, w, rfl, rfl⟩
  | clone t t' =>
    rcases held : s.objects t with _ | o <;> rcases free : s.objects t' with _ | o' <;>
      simp only [permuteHeapStep, held, free, Option.some.injEq, Except.ok.injEq, reduceCtorEq]
        at stepped
    exact .inr (.inl ⟨t, t', o, rfl, held, stepped.symm⟩)
  | nextOffset t =>
    rcases held : s.objects t with _ | o
    · simp only [permuteHeapStep, held, reduceCtorEq] at stepped
    refine .inr (.inr (.inl ⟨t, o, rfl, held, ?_⟩))
    simp only [permuteHeapStep, held] at stepped
    split_ifs at stepped
    · exact .inl (Except.ok.inj (Option.some_inj.mp stepped)).symm
    · rcases live : s.cells o.permute with _ | arr <;>
        simp only [live, Option.some.injEq, Except.ok.injEq, reduceCtorEq] at stepped
      exact .inr stepped.symm
  | destroy t =>
    rcases held : s.objects t with _ | o
    · simp only [permuteHeapStep, held, reduceCtorEq] at stepped
    rcases live : s.cells o.permute with _ | arr <;>
      simp only [permuteHeapStep, held, live, Option.some.injEq, Except.ok.injEq, reduceCtorEq]
        at stepped
    exact .inr (.inr (.inr ⟨t, o, rfl, held, stepped.symm⟩))

/-- Every object's array lies below `next`. -/
def Allocated (s : PermuteHeap n) : Prop := ∀ t o, s.objects t = some o → o.permute < s.next

theorem Allocated.step {s s' : PermuteHeap n} (inv : Allocated s) {e : PermuteHeapEvent n}
    (stepped : permuteHeapStep fuel e s = some (.ok s')) : Allocated s' := by
  rcases permuteHeapStep_ok stepped with ⟨t, w, -, rfl⟩ | ⟨t, t', o, -, held, rfl⟩ |
    ⟨t, o, -, held, rfl | rfl⟩ | ⟨t, o, -, -, rfl⟩
  · exact forall_update_some (fun u o found => Nat.lt_succ_of_lt (inv u o found))
      (Nat.lt_succ_self _)
  · exact forall_update_some inv (inv t o held)
  · exact inv
  · exact forall_update_some inv (inv t o held)
  · intro u o' found
    by_cases same : u = t
    · subst same; simp at found
    · exact inv u o' (by simpa [same] using found)

/-- Thread `t'` holds `o`, whose array below `next` was deleted. -/
structure Dangling (t' : Fin n) (o : LocalRandPermuteObject) (s : PermuteHeap n) : Prop where
  held : s.objects t' = some o
  deleted : s.cells o.permute = none
  below : o.permute < s.next

theorem Dangling.step {t' : Fin n} {o : LocalRandPermuteObject} {s s' : PermuteHeap n}
    (dangling : Dangling t' o s) {e : PermuteHeapEvent n} (apart : t' ∉ e.names)
    (stepped : permuteHeapStep fuel e s = some (.ok s')) : Dangling t' o s' := by
  obtain ⟨held, deleted, below⟩ := dangling
  rcases permuteHeapStep_ok stepped with ⟨t, w, names, rfl⟩ | ⟨t, t'', o', rfl, -, rfl⟩ |
    ⟨t, o', rfl, -, rfl | rfl⟩ | ⟨t, o', rfl, -, rfl⟩
  · have other : t' ≠ t := by rintro rfl; simp [names] at apart
    exact ⟨by simpa [other] using held,
      by simpa [Function.update_noteq below.ne] using deleted, Nat.lt_succ_of_lt below⟩
  · have other : t' ≠ t'' := by rintro rfl; simp [PermuteHeapEvent.names] at apart
    exact ⟨by simpa [other] using held, deleted, below⟩
  · exact ⟨held, deleted, below⟩
  · have other : t' ≠ t := by rintro rfl; simp [PermuteHeapEvent.names] at apart
    exact ⟨by simpa [other] using held, deleted, below⟩
  · have other : t' ≠ t := by rintro rfl; simp [PermuteHeapEvent.names] at apart
    refine ⟨by simpa [other] using held, ?_, below⟩
    by_cases same : o.permute = o'.permute
    · rw [same]; exact Function.update_same _ _ _
    · simpa [Function.update_noteq same] using deleted

end Dangling

/-- Once the original of a clone is destroyed, whatever other threads do, the clone's next
`next_offset()` with offsets left reads the deleted array and its destructor deletes it again. -/
theorem local_rand_permute_clone_dangles {n : Nat} (fuel : Nat) {t t' : Fin n}
    (pre rest : List (PermuteHeapEvent n)) (others : ∀ e ∈ rest, t' ∉ e.names) {s : PermuteHeap n}
    (ran : permuteHeapExecute fuel (pre ++ .clone t t' :: .destroy t :: rest) .empty =
      some (.ok s)) :
    ∃ o, s.objects t' = some o ∧
      (o.idx < o.num → permuteHeapStep fuel (.nextOffset t') s =
        some (.error "permute->get_offset(idx++): permute was deleted")) ∧
      permuteHeapStep fuel (.destroy t') s = some (.error "delete permute: permute was deleted") := by
  obtain ⟨mid, before, after⟩ := permuteHeapExecute_append fuel pre _ ran
  have allocated : Allocated mid := permuteHeapExecute_induction fuel Allocated (fun _ => True)
    (fun _ _ _ _ inv stepped => inv.step stepped) pre _ _ (fun _ _ => trivial)
    (fun _ _ held => by simp [PermuteHeap.empty] at held) before
  obtain ⟨cloned, cloning, after⟩ := permuteHeapExecute_cons fuel after
  obtain ⟨destroyed, destroying, after⟩ := permuteHeapExecute_cons fuel after
  rcases held : mid.objects t with _ | o <;> rcases free : mid.objects t' with _ | o' <;>
    simp only [permuteHeapStep, held, free, Option.some.injEq, Except.ok.injEq, reduceCtorEq]
      at cloning
  subst cloning
  have other : t ≠ t' := by rintro rfl; rw [held] at free; cases free
  rcases live : mid.cells o.permute with _ | arr <;>
    simp only [permuteHeapStep, Function.update_noteq other, held, live, Option.some.injEq,
      Except.ok.injEq, reduceCtorEq] at destroying
  subst destroying
  have dangling : Dangling t' o ⟨Function.update mid.cells o.permute none, mid.next,
      Function.update (Function.update mid.objects t' (some o)) t none⟩ :=
    ⟨by simp [Function.update_noteq other.symm], by simp, allocated t o held⟩
  obtain ⟨held', deleted, -⟩ := permuteHeapExecute_induction fuel (Dangling t' o)
    (fun e => t' ∉ e.names) (fun _ _ _ apart dangling stepped => dangling.step apart stepped)
    rest _ s others dangling after
  exact ⟨o, held', fun left => by simp [permuteHeapStep, held', deleted, not_le.mpr left],
    by simp [permuteHeapStep, held', deleted]⟩

theorem local_rand_permute_clone_dangles_rebuilt :
    ∃ s, permuteHeapExecute 3 ([.create 0 0 2 8 fun _ => 0] ++ .clone 0 1 :: .destroy 0 ::
        [.create 0 0 2 8 fun _ => 0]) (.empty (n := 2)) = some (.ok s) ∧
      ∃ o, s.objects 1 = some o ∧
        (o.idx < o.num → permuteHeapStep 3 (.nextOffset 1) s =
          some (.error "permute->get_offset(idx++): permute was deleted")) ∧
        permuteHeapStep 3 (.destroy 1) s = some (.error "delete permute: permute was deleted") :=
  ⟨_, rfl, local_rand_permute_clone_dangles 3 (t := 0) [.create 0 0 2 8 fun _ => 0]
    [.create 0 0 2 8 fun _ => 0] (by decide) rfl⟩

section Owned

variable {n : Nat}

/-- Calls with no clone, each constructor over a range below `INT_MAX` within `fuel`. -/
def Unshared (fuel : Nat) : PermuteHeapEvent n → Prop
  | .create _ start «end» _ _ => 0 ≤ «end» - start ∧ «end» - start < 2 ^ 31 ∧ «end» - start < fuel
  | .clone _ _ => False
  | .nextOffset _ => True
  | .destroy _ => True

instance (fuel : Nat) : DecidablePred (Unshared (n := n) fuel)
  | .create .. => inferInstanceAs (Decidable (_ ∧ _ ∧ _))
  | .clone _ _ => inferInstanceAs (Decidable False)
  | .nextOffset _ => inferInstanceAs (Decidable True)
  | .destroy _ => inferInstanceAs (Decidable True)

/-- Every object owns an allocated array of its own below `next`. -/
structure Owned (s : PermuteHeap n) : Prop where
  live : ∀ t o, s.objects t = some o → o.permute < s.next ∧ s.cells o.permute ≠ none
  apart : ∀ t t' o o', t ≠ t' → s.objects t = some o → s.objects t' = some o' →
    o.permute ≠ o'.permute
  unused : ∀ a, s.next ≤ a → s.cells a = none

theorem Owned.empty : Owned (PermuteHeap.empty (n := n)) :=
  ⟨fun _ _ held => (nomatch held), fun _ _ _ _ _ held => (nomatch held), fun _ _ => rfl⟩

theorem Owned.update_cursor {s : PermuteHeap n} (inv : Owned s) {t : Fin n} {o : LocalRandPermuteObject}
    (held : s.objects t = some o) (idx : Int) :
    Owned { s with objects := Function.update s.objects t (some { o with idx }) } := by
  have moved : ∀ u o', Function.update s.objects t (some { o with idx }) u = some o' →
      ∃ o'', s.objects u = some o'' ∧ o''.permute = o'.permute := fun u o' found => by
    by_cases same : u = t
    · subst same
      rw [Function.update_same, Option.some_inj] at found
      exact ⟨o, held, found ▸ rfl⟩
    · exact ⟨o', by rwa [Function.update_noteq same] at found, rfl⟩
  refine ⟨forall_update_some inv.live (inv.live t o held), fun u u' o' o'' apart found found' => ?_,
    inv.unused⟩
  obtain ⟨p, was, same⟩ := moved u o' found
  obtain ⟨p', was', same'⟩ := moved u' o'' found'
  exact same ▸ same' ▸ inv.apart u u' p p' apart was was'

variable {fuel : Nat} {s : PermuteHeap n} (inv : Owned s)
include inv

theorem Owned.create_step {t : Fin n} {start «end» entrySize : Int} {random : Nat → Nat}
    (unshared : Unshared fuel (.create t start «end» entrySize random)) {r}
    (stepped : permuteHeapStep fuel (.create t start «end» entrySize random) s = some r) :
    ∃ s', r = .ok s' ∧ Owned s' := by
  obtain ⟨nonneg, fits, enough⟩ := unshared
  simp only [permuteHeapStep] at stepped
  split at stepped
  · cases stepped
  obtain ⟨offset, ran, -⟩ := randPermute_ok random («end» - start).toNat entrySize (by omega) fuel
    (by omega)
  rw [Int.toNat_of_nonneg nonneg] at ran
  simp only [localRandPermuteWorkload, ran, Option.map_some', Except.map, Option.some.injEq]
    at stepped
  subst stepped
  refine ⟨_, rfl, ⟨forall_update_some (fun u o found => ?_) ⟨Nat.lt_succ_self _, ?_⟩,
    fun u u' o o' apart found found' => ?_, fun a above => ?_⟩⟩ <;> dsimp only at *
  · obtain ⟨below, allocated⟩ := inv.live u o found
    rw [Function.update_noteq below.ne]
    exact ⟨Nat.lt_succ_of_lt below, allocated⟩
  · simp only [Function.update_same, ne_eq, reduceCtorEq, not_false_eq_true]
  · have older : ∀ v o,
        Function.update s.objects t (some ⟨0, «end» - start, start * entrySize, s.next⟩) v =
          some o → v ≠ t → o.permute < s.next := fun v o found other =>
      (inv.live v o (by rwa [Function.update_noteq other] at found)).1
    by_cases same : u = t
    · subst same
      rw [Function.update_same, Option.some_inj] at found
      exact found ▸ (older u' o' found' (Ne.symm apart)).ne'
    · by_cases same' : u' = t
      · subst same'
        rw [Function.update_same, Option.some_inj] at found'
        exact found' ▸ (older u o found apart).ne
      · rw [Function.update_noteq same] at found
        rw [Function.update_noteq same'] at found'
        exact inv.apart u u' o o' apart found found'
  · rw [Function.update_noteq (by omega)]
    exact inv.unused a (by omega)

theorem Owned.nextOffset_step (t : Fin n) {r} (stepped : permuteHeapStep fuel (.nextOffset t) s = some r) :
    ∃ s', r = .ok s' ∧ Owned s' := by
  cases held : s.objects t with
  | none => simp only [permuteHeapStep, held] at stepped; cases stepped
  | some o =>
    obtain ⟨-, allocated⟩ := inv.live t o held
    obtain ⟨permute, cell⟩ := Option.ne_none_iff_exists'.mp allocated
    simp only [permuteHeapStep, held, cell] at stepped
    split_ifs at stepped
    · exact ⟨s, (Option.some_inj.mp stepped).symm, inv⟩
    · exact ⟨_, (Option.some_inj.mp stepped).symm, inv.update_cursor held _⟩

theorem Owned.destroy_step (t : Fin n) {r} (stepped : permuteHeapStep fuel (.destroy t) s = some r) :
    ∃ s', r = .ok s' ∧ Owned s' := by
  cases held : s.objects t with
  | none => simp only [permuteHeapStep, held] at stepped; cases stepped
  | some o =>
    obtain ⟨-, allocated⟩ := inv.live t o held
    obtain ⟨permute, cell⟩ := Option.ne_none_iff_exists'.mp allocated
    simp only [permuteHeapStep, held, cell, Option.some.injEq] at stepped
    subst stepped
    have kept : ∀ u o', Function.update s.objects t none u = some o' → u ≠ t ∧ s.objects u = some o' :=
      fun u o' found => by
        by_cases same : u = t
        · subst same; rw [Function.update_same] at found; cases found
        · exact ⟨same, by rwa [Function.update_noteq same] at found⟩
    refine ⟨_, rfl, ⟨fun u o' found => ?_, fun u u' o' o'' apart found found' => ?_, fun a above => ?_⟩⟩ <;>
      dsimp only at *
    · obtain ⟨other, was⟩ := kept u o' found
      rw [Function.update_noteq (inv.apart u t o' o other was held)]
      exact inv.live u o' was
    · exact inv.apart u u' o' o'' apart (kept u o' found).2 (kept u' o'' found').2
    · by_cases same : a = o.permute
      · subst same; exact Function.update_same _ _ _
      · rw [Function.update_noteq same]; exact inv.unused a above

theorem Owned.step {e : PermuteHeapEvent n} (unshared : Unshared fuel e) {r}
    (stepped : permuteHeapStep fuel e s = some r) : ∃ s', r = .ok s' ∧ Owned s' := by
  cases e with
  | create => exact inv.create_step unshared stepped
  | clone => exact unshared.elim
  | nextOffset t => exact inv.nextOffset_step t stepped
  | destroy t => exact inv.destroy_step t stepped

end Owned

theorem Owned.execute {n : Nat} {fuel : Nat} :
    ∀ {events : List (PermuteHeapEvent n)} {s : PermuteHeap n}, Owned s →
      (∀ e ∈ events, Unshared fuel e) → ∀ {r}, permuteHeapExecute fuel events s = some r →
      ∃ s', r = .ok s' ∧ Owned s'
  | [], s, inv, _, _, ran => ⟨s, (Option.some_inj.mp ran).symm, inv⟩
  | e :: _, s, inv, unshared, _, ran => by
    cases stepped : permuteHeapStep fuel e s with
    | none => simp only [permuteHeapExecute, stepped] at ran; cases ran
    | some r =>
      obtain ⟨s', rfl, inv'⟩ := inv.step (unshared e (List.mem_cons_self _ _)) stepped
      simp only [permuteHeapExecute, stepped] at ran
      exact inv'.execute (fun e' member => unshared e' (List.mem_cons_of_mem _ member)) ran

/-- Without clones no run fails, and at every point each object owns an allocated array of its
own: no `next_offset()` reads, and no destructor deletes, another's deleted array. -/
theorem local_rand_permute_owns_permute {n : Nat} (fuel : Nat) (events : List (PermuteHeapEvent n))
    (unshared : ∀ e ∈ events, Unshared fuel e) {r}
    (ran : permuteHeapExecute fuel events .empty = some r) :
    ∃ s, r = .ok s ∧ Owned s :=
  Owned.execute Owned.empty unshared ran

/-- Two objects built, read and destroyed in turn. -/
def twoObjectRun : List (PermuteHeapEvent 2) :=
  [.create 0 0 2 8 fun _ => 0, .create 1 2 4 8 fun _ => 1, .nextOffset 0, .destroy 0,
    .nextOffset 1, .destroy 1]

theorem local_rand_permute_owns_permute_twoObjects :
    ∃ s, permuteHeapExecute 3 twoObjectRun .empty = some (.ok s) ∧ Owned s := by
  obtain ⟨s, found, owned⟩ := local_rand_permute_owns_permute 3 twoObjectRun (by decide) rfl
  exact ⟨s, found ▸ rfl, owned⟩

end Graphyti.Workload
