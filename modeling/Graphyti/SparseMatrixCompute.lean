import Graphyti.BlockMultiply
import Mathlib.Algebra.BigOperators.Group.Finset

/-! `sparse_matrix::compute` runs a multiplication's tasks on `matrix_conf.get_num_threads()`
worker threads that share the output vector. `block_spmv_task::run_on_row_part` ends with
`output.set(row_idx, output.get(row_idx) + sum)`: it reads the output entry and writes it
back later, with no lock between, so a write of another thread to the same entry in between
is lost. Each worker makes the updates of its tasks in order, and the workers' reads and
writes interleave in any order: a schedule names the worker that takes the next step. -/
namespace Graphyti.Matrix

/-- What one row part of `run_on_row_part` does to the output: the row it writes and the `sum`
it adds, computed before the output is read. -/
structure RowUpdate where
  row : Nat
  sum : Int
  deriving DecidableEq, Repr

/-- The update of `run_on_row_part` in a block starting at `start_row_idx`, `start_col_idx`. -/
def rowPartUpdate (input : Nat → Int) (rpart : SparseRowPart) (startRowIdx startColIdx : Nat) :
    RowUpdate :=
  ⟨startRowIdx + rpart.relRowIdx,
    rpart.relColIdxs.foldl (fun sum relColIdx => sum + input (startColIdx + relColIdx)) 0⟩

/-- The updates of `run_on_block`, one per row part in storage order. -/
def blockUpdates (blockSize : Block2dSize) (input : Nat → Int) (block : SparseBlock2d) :
    List RowUpdate :=
  block.rowParts.map fun rpart => rowPartUpdate input rpart
    (block.blockRowIdx * blockSize.numRows) (block.blockColIdx * blockSize.numCols)

/-- An update made at once, as by a thread alone. -/
def RowUpdate.apply (output : Nat → Int) (u : RowUpdate) : Nat → Int :=
  Function.update output u.row (output u.row + u.sum)

/-- The updates of a `block_spmv_task`: those of the blocks `run` hands to `run_on_block`. -/
def spmvTaskUpdates (blockSize : Block2dSize) (order : BlockExecOrder) (ndebug : Bool)
    (fuel : Nat) (blockRows : List (List SparseBlock2d)) (input : Nat → Int) :
    Option (Except String (List RowUpdate)) :=
  (blockComputeTaskRun ndebug fuel blockRows).map (·.map fun superBlocks =>
    (runOnBlockCalls (keptOrder order blockRows.length) superBlocks).flatMap
      (blockUpdates blockSize input))

/-- What a list of updates adds to row `r`. -/
def rowTotal (updates : List RowUpdate) (r : Nat) : Int :=
  (updates.map fun u => if u.row = r then u.sum else 0).sum

@[simp] theorem rowTotal_nil (r : Nat) : rowTotal [] r = 0 := rfl

@[simp] theorem rowTotal_cons (u : RowUpdate) (updates : List RowUpdate) (r : Nat) :
    rowTotal (u :: updates) r = (if u.row = r then u.sum else 0) + rowTotal updates r := rfl

theorem rowTotal_append (updates updates' : List RowUpdate) (r : Nat) :
    rowTotal (updates ++ updates') r = rowTotal updates r + rowTotal updates' r := by
  simp [rowTotal]

/-! ### One thread alone -/

theorem blockSpmvRunOnBlock_eq_updates (blockSize : Block2dSize) (input output : Nat → Int)
    (block : SparseBlock2d) :
    blockSpmvRunOnBlock blockSize input output block =
      (blockUpdates blockSize input block).foldl RowUpdate.apply output := by
  rw [blockUpdates, List.foldl_map]
  rfl

theorem foldl_blockSpmvRunOnBlock_eq_updates (blockSize : Block2dSize) (input : Nat → Int)
    (calls : List SparseBlock2d) (output : Nat → Int) :
    calls.foldl (blockSpmvRunOnBlock blockSize input) output =
      (calls.flatMap (blockUpdates blockSize input)).foldl RowUpdate.apply output := by
  induction calls generalizing output with
  | nil => rfl
  | cons block calls ih =>
    rw [List.foldl_cons, ih, List.flatMap_cons, List.foldl_append,
      blockSpmvRunOnBlock_eq_updates]

theorem foldl_apply (updates : List RowUpdate) (output : Nat → Int) (r : Nat) :
    updates.foldl RowUpdate.apply output r = output r + rowTotal updates r := by
  induction updates generalizing output with
  | nil => simp
  | cons u updates ih =>
    rw [List.foldl_cons, ih, RowUpdate.apply, Function.update_apply, rowTotal_cons]
    split <;> simp_all [eq_comm, add_assoc]

theorem spmvTaskUpdates_spec (blockSize : Block2dSize) (hilbertXy2d : Nat → Nat → Nat → Nat)
    {order : BlockExecOrder} (order_from : order = .seq ∨ ∃ m, order = hilbertExecOrder hilbertXy2d m)
    (blockRows : List (List SparseBlock2d))
    (increasing : ∀ row ∈ blockRows, row.Pairwise fun a b => a.blockColIdx < b.blockColIdx)
    (fits : ∀ b ∈ blockRows.flatten, b.blockColIdx < 2 ^ 64) (ndebug : Bool) (fuel : Nat)
    (enough : (blockRows.flatten.length + blockRows.length) * 2 ^ 64 < fuel) (top : Nat)
    (rowsIn : ∀ b ∈ inFileOrderCalls blockRows,
      top ≤ b.blockRowIdx ∧ b.blockRowIdx < top + blockRows.length)
    (partsIn : ∀ b ∈ inFileOrderCalls blockRows, ∀ p ∈ b.rowParts, p.relRowIdx < blockSize.numRows)
    (input : Nat → Int) :
    ∃ updates, spmvTaskUpdates blockSize order ndebug fuel blockRows input = some (.ok updates) ∧
      (∀ r, rowTotal updates r = entrySum (stripEntries blockSize blockRows) input r) ∧
      ∀ u ∈ updates, top * blockSize.numRows ≤ u.row ∧
        u.row < (top + blockRows.length) * blockSize.numRows := by
  obtain ⟨superBlocks, ran, -, calls⟩ :=
    blockComputeTaskRun_increasing hilbertXy2d order_from blockRows increasing fits ndebug fuel enough
  refine ⟨_, by rw [spmvTaskUpdates, ran]; rfl, fun r => ?_, fun u member => ?_⟩
  · have sum := foldl_blockSpmvRunOnBlock calls blockSize input (fun _ => 0) r
    rwa [foldl_blockSpmvRunOnBlock_eq_updates, foldl_apply, Int.zero_add, Int.zero_add] at sum
  · simp only [List.mem_flatMap, blockUpdates, List.mem_map] at member
    obtain ⟨b, inCalls, p, inParts, rfl⟩ := member
    have inStrip := calls.subset inCalls
    have ⟨low, high⟩ := rowsIn b inStrip
    have := partsIn b inStrip p inParts
    have : top * blockSize.numRows ≤ b.blockRowIdx * blockSize.numRows := Nat.mul_le_mul_right _ low
    have : (b.blockRowIdx + 1) * blockSize.numRows ≤ (top + blockRows.length) * blockSize.numRows :=
      Nat.mul_le_mul_right _ high
    rw [Nat.succ_mul] at this
    exact ⟨by simp only [rowPartUpdate]; omega, by simp only [rowPartUpdate]; omega⟩

/-- One task's strip of block rows from `top`, as the traversal needs it: increasing `size_t`
columns per row, enough `fuel`, blocks in their rows, and row parts inside their block. -/
structure TaskStrip (blockSize : Block2dSize) (fuel : Nat) where
  top : Nat
  blockRows : List (List SparseBlock2d)
  increasing : ∀ row ∈ blockRows, row.Pairwise fun a b => a.blockColIdx < b.blockColIdx
  fits : ∀ b ∈ blockRows.flatten, b.blockColIdx < 2 ^ 64
  enough : (blockRows.flatten.length + blockRows.length) * 2 ^ 64 < fuel
  rowsIn : ∀ b ∈ inFileOrderCalls blockRows,
    top ≤ b.blockRowIdx ∧ b.blockRowIdx < top + blockRows.length
  partsIn : ∀ b ∈ inFileOrderCalls blockRows, ∀ p ∈ b.rowParts, p.relRowIdx < blockSize.numRows

/-! ### The worker threads -/

/-- A worker thread: its updates still to make and, between `output.get(row_idx)` and
`output.set`, the value it read. -/
structure Worker where
  pending : List RowUpdate
  read : Option Int

structure ComputeState (n : Nat) where
  output : Nat → Int
  workers : Fin n → Worker

variable {n : Nat}

def ComputeState.initial (output : Nat → Int) (programs : Fin n → List RowUpdate) :
    ComputeState n :=
  ⟨output, fun t => ⟨programs t, none⟩⟩

/-- One step of worker `t`: `output.get(row_idx)` for its next update, or the `output.set` that
ends it; a worker with nothing left stutters. -/
def advance (t : Fin n) (s : ComputeState n) : ComputeState n :=
  match s.workers t with
  | ⟨[], _⟩ => s
  | ⟨u :: rest, none⟩ =>
    { s with workers := Function.update s.workers t ⟨u :: rest, some (s.output u.row)⟩ }
  | ⟨u :: rest, some v⟩ =>
    ⟨Function.update s.output u.row (v + u.sum), Function.update s.workers t ⟨rest, none⟩⟩

def execute : List (Fin n) → ComputeState n → ComputeState n
  | [], s => s
  | t :: schedule, s => execute schedule (advance t s)

/-- Every worker has made all its updates. -/
def Complete (s : ComputeState n) : Prop := ∀ t, (s.workers t).pending = []

theorem advance_idle {s : ComputeState n} {t : Fin n} {read : Option Int}
    (idle : s.workers t = ⟨[], read⟩) : advance t s = s := by
  simp only [advance, idle]

theorem advance_get {s : ComputeState n} {t : Fin n} {u : RowUpdate} {rest : List RowUpdate}
    (next : s.workers t = ⟨u :: rest, none⟩) :
    advance t s = { s with workers := Function.update s.workers t ⟨u :: rest, some (s.output u.row)⟩ } := by
  simp only [advance, next]

theorem advance_set {s : ComputeState n} {t : Fin n} {u : RowUpdate} {rest : List RowUpdate}
    {v : Int} (next : s.workers t = ⟨u :: rest, some v⟩) :
    advance t s = ⟨Function.update s.output u.row (v + u.sum), Function.update s.workers t ⟨rest, none⟩⟩ := by
  simp only [advance, next]

theorem execute_append (schedule schedule' : List (Fin n)) (s : ComputeState n) :
    execute (schedule ++ schedule') s = execute schedule' (execute schedule s) := by
  induction schedule generalizing s with
  | nil => rfl
  | cons t schedule ih => exact ih _

theorem advance_workers_other (s : ComputeState n) {t t' : Fin n} (other : t' ≠ t) :
    (advance t s).workers t' = s.workers t' := by
  rcases worker : s.workers t with ⟨_ | ⟨u, rest⟩, _ | v⟩
  · rw [advance_idle worker]
  · rw [advance_idle worker]
  · rw [advance_get worker]; exact Function.update_noteq other _ _
  · rw [advance_set worker]; exact Function.update_noteq other _ _

theorem execute_workers_other {t : Fin n} :
    ∀ (schedule : List (Fin n)) (s : ComputeState n), (∀ t' ∈ schedule, t' ≠ t) →
      (execute schedule s).workers t = s.workers t
  | [], _, _ => rfl
  | t' :: schedule, s, others => by
    rw [execute, execute_workers_other schedule _ fun t'' member => others t'' (.tail _ member),
      advance_workers_other s (others t' (.head _)).symm]

theorem execute_replicate_apply (t : Fin n) :
    ∀ (l rest : List RowUpdate) (s : ComputeState n), s.workers t = ⟨l ++ rest, none⟩ →
      execute (List.replicate (2 * l.length) t) s =
        ⟨l.foldl RowUpdate.apply s.output, Function.update s.workers t ⟨rest, none⟩⟩
  | [], _, s, ready => by
    rw [List.nil_append] at ready
    rw [Function.update_eq_self_iff.mpr ready.symm]; rfl
  | u :: l, rest, s, ready => by
    have read : (advance t s).workers t = ⟨u :: (l ++ rest), some (s.output u.row)⟩ := by
      rw [advance_get ready]; exact Function.update_same _ _ _
    have written : (advance t (advance t s)).workers t = ⟨l ++ rest, none⟩ := by
      rw [advance_set read]; exact Function.update_same _ _ _
    rw [show 2 * (u :: l).length = 2 * l.length + 1 + 1 by simp; omega, List.replicate_succ,
      List.replicate_succ, execute, execute, execute_replicate_apply t l rest _ written,
      advance_set read, advance_get ready]
    simp only [Function.update_idem, List.foldl_cons, RowUpdate.apply]

theorem execute_replicate_finishes (t : Fin n) (pending : List RowUpdate) (s : ComputeState n)
    (ready : s.workers t = ⟨pending, none⟩) :
    (execute (List.replicate (2 * pending.length) t) s).workers t = ⟨[], none⟩ := by
  rw [execute_replicate_apply t pending [] s (by rwa [List.append_nil])]
  exact Function.update_same _ _ _

/-- The schedule that runs the workers of `order` one after the other, each to its end. -/
def sequentialSchedule (programs : Fin n → List RowUpdate) (order : List (Fin n)) : List (Fin n) :=
  order.flatMap fun t => List.replicate (2 * (programs t).length) t

theorem execute_sequentialSchedule (programs : Fin n → List RowUpdate) :
    ∀ (order : List (Fin n)) (s : ComputeState n), order.Nodup →
      (∀ t ∈ order, s.workers t = ⟨programs t, none⟩) →
      (∀ t ∈ order, (execute (sequentialSchedule programs order) s).workers t = ⟨[], none⟩) ∧
      ∀ t ∉ order, (execute (sequentialSchedule programs order) s).workers t = s.workers t
  | [], _, _, _ => ⟨fun _ member => absurd member (List.not_mem_nil _), fun _ _ => rfl⟩
  | t :: order, s, distinct, ready => by
    obtain ⟨fresh, distinct⟩ := List.nodup_cons.mp distinct
    have segment : ∀ t', t' ≠ t →
        (execute (List.replicate (2 * (programs t).length) t) s).workers t' = s.workers t' :=
      fun t' other => execute_workers_other _ s fun t'' member =>
        (List.eq_of_mem_replicate member).symm ▸ other.symm
    obtain ⟨finished, kept⟩ := execute_sequentialSchedule programs order _ distinct
      fun t' member => (segment t' fun same => fresh (same ▸ member)).trans (ready t' (.tail _ member))
    simp only [sequentialSchedule, List.flatMap_cons, execute_append] at finished kept ⊢
    refine ⟨fun t' member => ?_, fun t' absent => ?_⟩
    · rcases List.mem_cons.mp member with rfl | member
      · rw [kept t' fresh]
        exact execute_replicate_finishes t' _ s (ready t' (.head _))
      · exact finished t' member
    · simp only [List.mem_cons, not_or] at absent
      rw [kept t' absent.2, segment t' absent.1]

theorem complete_sequentialSchedule (output₀ : Nat → Int) (programs : Fin n → List RowUpdate) :
    Complete (execute (sequentialSchedule programs (List.finRange n)) (.initial output₀ programs)) :=
  fun t => by
    rw [((execute_sequentialSchedule programs _ _ (List.nodup_finRange n)
      fun _ _ => rfl).1 t (List.mem_finRange t))]

theorem execute_sequentialSchedule_output (programs : Fin n → List RowUpdate) (r : Nat) :
    ∀ (order : List (Fin n)) (s : ComputeState n), order.Nodup →
      (∀ t ∈ order, s.workers t = ⟨programs t, none⟩) →
      (execute (sequentialSchedule programs order) s).output r =
        s.output r + (order.map fun t => rowTotal (programs t) r).sum
  | [], s, _, _ => (Int.add_zero _).symm
  | t :: order, s, distinct, ready => by
    obtain ⟨fresh, distinct⟩ := List.nodup_cons.mp distinct
    have alone := execute_replicate_apply t (programs t) [] s
      (by rw [List.append_nil]; exact ready t (.head _))
    rw [sequentialSchedule, List.flatMap_cons, execute_append, alone, ← sequentialSchedule,
      execute_sequentialSchedule_output programs r order _ distinct fun t' member => by
        have other : t' ≠ t := fun same => fresh (same ▸ member)
        simpa only [Function.update_noteq other] using ready t' (.tail _ member)]
    simp only [foldl_apply, List.map_cons, List.sum_cons]
    omega

theorem sum_update_add {α : Type} (f : Fin n → α) (g : α → Int) (t : Fin n) (a : α) :
    ∑ u, g (Function.update f t a u) + g (f t) = ∑ u, g (f u) + g a := by
  rw [← Finset.add_sum_erase _ _ (Finset.mem_univ t), ← Finset.add_sum_erase _ _ (Finset.mem_univ t),
    Finset.sum_congr rfl fun u member => by rw [Function.update_noteq (Finset.ne_of_mem_erase member)],
    Function.update_same]
  omega

/-! ### No update is lost when the workers' rows are apart -/

section Apart

variable (output₀ : Nat → Int) (programs : Fin n → List RowUpdate)

/-- No two workers update a common row. -/
def RowsApart : Prop :=
  ∀ t t', t ≠ t' → ∀ u ∈ programs t, ∀ u' ∈ programs t', u.row ≠ u'.row

/-- Each worker has a suffix of its updates ahead, every row holds its start value plus the
updates made so far, and a worker between read and write read what the entry still holds. -/
structure Invariant (s : ComputeState n) : Prop where
  suffix : ∀ t, (s.workers t).pending <:+ programs t
  balance : ∀ r, s.output r + ∑ t, rowTotal (s.workers t).pending r =
    output₀ r + ∑ t, rowTotal (programs t) r
  fresh : ∀ t u rest v, s.workers t = ⟨u :: rest, some v⟩ → v = s.output u.row

theorem Invariant.initial : Invariant output₀ programs (.initial output₀ programs) :=
  ⟨fun _ => List.suffix_refl _, fun _ => rfl, fun _ _ _ _ read => by
    simp [ComputeState.initial] at read⟩

variable {output₀ programs}

theorem Invariant.read_step {s : ComputeState n} (inv : Invariant output₀ programs s) {t : Fin n}
    {u : RowUpdate} {rest : List RowUpdate} (worker : s.workers t = ⟨u :: rest, none⟩) :
    Invariant output₀ programs
      { s with workers := Function.update s.workers t ⟨u :: rest, some (s.output u.row)⟩ } := by
  have same : ∀ t', (Function.update s.workers t ⟨u :: rest, some (s.output u.row)⟩ t').pending =
      (s.workers t').pending := fun t' => by
    by_cases here : t' = t
    · subst here; simp [worker]
    · simp [here]
  refine ⟨fun t' => same t' ▸ inv.suffix t', fun r => ?_, fun t' u' rest' v' read => ?_⟩
  · simpa only [same] using inv.balance r
  · dsimp only at read ⊢
    by_cases here : t' = t
    · subst here
      simp only [Function.update_same, Worker.mk.injEq, List.cons.injEq, Option.some.injEq] at read
      obtain ⟨⟨rfl, -⟩, rfl⟩ := read; rfl
    · rw [Function.update_noteq here] at read; exact inv.fresh t' u' rest' v' read

theorem Invariant.write_step (apart : RowsApart programs) {s : ComputeState n}
    (inv : Invariant output₀ programs s) {t : Fin n} {u : RowUpdate} {rest : List RowUpdate}
    {v : Int} (worker : s.workers t = ⟨u :: rest, some v⟩) :
    Invariant output₀ programs
      ⟨Function.update s.output u.row (v + u.sum), Function.update s.workers t ⟨rest, none⟩⟩ := by
  have current := inv.fresh t u rest v worker
  have ahead : u ∈ programs t := (inv.suffix t).subset (by simp [worker])
  refine ⟨fun t' => ?_, fun r => ?_, fun t' u' rest' v' read => ?_⟩
  · by_cases here : t' = t
    · subst here
      have own := inv.suffix t'
      rw [worker] at own
      simpa using (List.suffix_cons u rest).trans own
    · simpa [here] using inv.suffix t'
  · have moved := sum_update_add s.workers (fun w => rowTotal w.pending r) t ⟨rest, none⟩
    simp only [worker, rowTotal_cons] at moved
    have before := inv.balance r
    dsimp only
    rw [Function.update_apply]
    by_cases here : r = u.row
    · subst here
      rw [if_pos rfl, current]
      rw [if_pos rfl] at moved
      omega
    · rw [if_neg here]
      rw [if_neg (Ne.symm here)] at moved
      omega
  · dsimp only at read ⊢
    have here : t' ≠ t := by rintro rfl; simp at read
    rw [Function.update_noteq here] at read
    have other : u'.row ≠ u.row := apart t' t here u'
      ((inv.suffix t').subset (by simp [read])) u ahead
    rw [inv.fresh t' u' rest' v' read, Function.update_noteq other]

theorem Invariant.advance (apart : RowsApart programs) {s : ComputeState n}
    (inv : Invariant output₀ programs s) (t : Fin n) :
    Invariant output₀ programs (advance t s) := by
  rcases worker : s.workers t with ⟨_ | ⟨u, rest⟩, _ | v⟩
  · rwa [advance_idle worker]
  · rwa [advance_idle worker]
  · rw [advance_get worker]; exact inv.read_step worker
  · rw [advance_set worker]; exact inv.write_step apart worker

theorem Invariant.execute (apart : RowsApart programs) (schedule : List (Fin n)) :
    ∀ {s : ComputeState n}, Invariant output₀ programs s →
      Invariant output₀ programs (execute schedule s) := by
  induction schedule with
  | nil => exact id
  | cons t schedule ih => exact fun inv => ih (inv.advance apart t)

end Apart

/-- With `RowsApart`, every finishing interleaving leaves the sequential result. -/
theorem execute_output_of_rowsApart (output₀ : Nat → Int) (programs : Fin n → List RowUpdate)
    (apart : RowsApart programs) (schedule : List (Fin n))
    (complete : Complete (execute schedule (.initial output₀ programs))) (r : Nat) :
    (execute schedule (.initial output₀ programs)).output r =
      output₀ r + ∑ t, rowTotal (programs t) r := by
  have balance := ((Invariant.initial output₀ programs).execute apart schedule).balance r
  simpa [complete _] using balance

theorem compute_shared_row_loses_update (s : ComputeState n) {t t' : Fin n} (other : t ≠ t')
    {u u' : RowUpdate} {rest rest' : List RowUpdate} (first : s.workers t = ⟨u :: rest, none⟩)
    (second : s.workers t' = ⟨u' :: rest', none⟩) (same : u.row = u'.row) :
    (execute [t, t', t, t'] s).output u.row = s.output u.row + u'.sum ∧
      (execute [t, t', t, t'] s).workers t = ⟨rest, none⟩ ∧
      (execute [t, t', t, t'] s).workers t' = ⟨rest', none⟩ := by
  have read₁ := advance_get first
  have second₁ : (advance t s).workers t' = ⟨u' :: rest', none⟩ := by
    rw [read₁]; simpa [Function.update_noteq other.symm] using second
  have read₂ := advance_get second₁
  have first₂ : (advance t' (advance t s)).workers t = ⟨u :: rest, some (s.output u.row)⟩ := by
    rw [read₂, read₁]; simp [Function.update_noteq other]
  have write₁ := advance_set first₂
  have second₃ : (advance t (advance t' (advance t s))).workers t' =
      ⟨u' :: rest', some (s.output u'.row)⟩ := by
    rw [write₁, read₂, read₁]; simp [Function.update_noteq other.symm, same]
  have write₂ := advance_set second₃
  simp only [execute]
  rw [write₂, write₁]
  refine ⟨by dsimp only; rw [same, Function.update_same], by simp [Function.update_noteq other],
    by simp⟩

/-- Without `RowsApart` an update can be lost: some schedule lets every worker finish and leaves
a shared row one update short. -/
theorem compute_shared_row_can_lose_update (output₀ : Nat → Int) (programs : Fin n → List RowUpdate)
    {t t' : Fin n} (other : t ≠ t') {u u' : RowUpdate} (mine : u ∈ programs t)
    (theirs : u' ∈ programs t') (same : u.row = u'.row) :
    ∃ schedule, Complete (execute schedule (.initial output₀ programs)) ∧
      (execute schedule (.initial output₀ programs)).output u.row =
        output₀ u.row + ∑ w, rowTotal (programs w) u.row - u.sum := by
  obtain ⟨pre, post, split⟩ := List.append_of_mem mine
  obtain ⟨pre', post', split'⟩ := List.append_of_mem theirs
  -- Each worker runs alone up to its update of the row; both read it, then both write it.
  let s₁ := execute (List.replicate (2 * pre.length) t) (.initial output₀ programs)
  have run₁ : s₁ = ⟨pre.foldl RowUpdate.apply output₀, Function.update (fun w => ⟨programs w, none⟩) t
      ⟨u :: post, none⟩⟩ :=
    execute_replicate_apply t pre (u :: post) _ (by simp [ComputeState.initial, split])
  let s₂ := execute (List.replicate (2 * pre'.length) t') s₁
  have run₂ : s₂ = ⟨pre'.foldl RowUpdate.apply s₁.output, Function.update s₁.workers t'
      ⟨u' :: post', none⟩⟩ :=
    execute_replicate_apply t' pre' (u' :: post') _ (by simp [run₁, other.symm, split'])
  have first : s₂.workers t = ⟨u :: post, none⟩ := by simp [run₂, run₁, other]
  have second : s₂.workers t' = ⟨u' :: post', none⟩ := by simp [run₂]
  obtain ⟨lost, done, done'⟩ := compute_shared_row_loses_update s₂ other first second same
  -- Then every worker runs what it has left, one worker after the other.
  let s₃ := execute [t, t', t, t'] s₂
  let left := Function.update (Function.update programs t post) t' post'
  have ready : ∀ w ∈ Finset.univ.toList, s₃.workers w = ⟨left w, none⟩ := fun w _ => by
    by_cases isT' : w = t'
    · subst isT'; simpa [left] using done'
    by_cases isT : w = t
    · subst isT; simpa [left, other] using done
    rw [execute_workers_other _ _ (by simp [Ne.symm isT, Ne.symm isT'])]
    simp [left, run₂, run₁, isT, isT']
  refine ⟨List.replicate (2 * pre.length) t ++ List.replicate (2 * pre'.length) t' ++
      [t, t', t, t'] ++ sequentialSchedule left Finset.univ.toList, fun w => ?_, ?_⟩ <;>
    simp only [execute_append]
  · exact congrArg (·.pending) ((execute_sequentialSchedule left _ s₃ (Finset.nodup_toList _)
      ready).1 w (Finset.mem_toList.mpr (Finset.mem_univ w)))
  · rw [execute_sequentialSchedule_output left _ _ s₃ (Finset.nodup_toList _) ready,
      Finset.sum_to_list, lost, run₂, run₁]
    have sumT := sum_update_add programs (fun l => rowTotal l u.row) t post
    have sumT' := sum_update_add (Function.update programs t post) (fun l => rowTotal l u.row) t' post'
    simp only [left, foldl_apply, Function.update_noteq other.symm, split, split', rowTotal_append,
      rowTotal_cons, if_pos same.symm, if_true] at sumT sumT' ⊢
    omega

/-- Two workers that each add to row 0, 5 and 7. -/
def sharedRowPrograms (t : Fin 2) : List RowUpdate := [⟨0, if t = 0 then 5 else 7⟩]

theorem compute_shared_row_can_lose_update_sharedRow :
    ∃ schedule, Complete (execute schedule (.initial (fun _ => 0) sharedRowPrograms)) ∧
      (execute schedule (.initial (fun _ => 0) sharedRowPrograms)).output 0 =
        0 + ∑ w, rowTotal (sharedRowPrograms w) 0 - 5 :=
  compute_shared_row_can_lose_update (fun _ => 0) sharedRowPrograms (by decide)
    (show (⟨0, 5⟩ : RowUpdate) ∈ sharedRowPrograms 0 by decide)
    (show (⟨0, 7⟩ : RowUpdate) ∈ sharedRowPrograms 1 by decide) rfl

theorem flatMap_taskUpdates {blockSize : Block2dSize} {fuel : Nat} {input : Nat → Int}
    {taskUpdates : TaskStrip blockSize fuel → List RowUpdate}
    (totals : ∀ strip r, rowTotal (taskUpdates strip) r =
      entrySum (stripEntries blockSize strip.blockRows) input r)
    (strips : List (TaskStrip blockSize fuel)) (r : Nat) :
    rowTotal (strips.flatMap taskUpdates) r =
      (strips.map fun strip => entrySum (stripEntries blockSize strip.blockRows) input r).sum := by
  induction strips with
  | nil => rfl
  | cons strip strips ih => rw [List.flatMap_cons, rowTotal_append, totals, ih]; rfl

/-- `sparse_matrix::compute` of a `block_spmv_task` multiplication with no block row shared
between workers: every task ends, and every interleaving leaves each row its full entry sum. -/
theorem sparse_matrix_compute_spmv (blockSize : Block2dSize)
    (hilbertXy2d : Nat → Nat → Nat → Nat) {order : BlockExecOrder}
    (order_from : order = .seq ∨ ∃ m, order = hilbertExecOrder hilbertXy2d m) (ndebug : Bool)
    (fuel : Nat) (strips : Fin n → List (TaskStrip blockSize fuel))
    (apart : ∀ t t', t ≠ t' → ∀ a ∈ strips t, ∀ b ∈ strips t',
      a.top + a.blockRows.length ≤ b.top ∨ b.top + b.blockRows.length ≤ a.top)
    (input output₀ : Nat → Int) :
    ∃ taskUpdates : TaskStrip blockSize fuel → List RowUpdate,
      (∀ strip, spmvTaskUpdates blockSize order ndebug fuel strip.blockRows input =
        some (.ok (taskUpdates strip))) ∧
      Complete (execute (sequentialSchedule (fun t => (strips t).flatMap taskUpdates)
        (List.finRange n)) (.initial output₀ fun t => (strips t).flatMap taskUpdates)) ∧
      ∀ schedule, Complete (execute schedule (.initial output₀ fun t => (strips t).flatMap taskUpdates)) →
        ∀ r, (execute schedule (.initial output₀ fun t => (strips t).flatMap taskUpdates)).output r =
          output₀ r + ∑ t, ((strips t).map fun strip =>
            entrySum (stripEntries blockSize strip.blockRows) input r).sum := by
  choose taskUpdates built totals bounds using fun strip : TaskStrip blockSize fuel =>
    spmvTaskUpdates_spec blockSize hilbertXy2d order_from strip.blockRows strip.increasing
      strip.fits ndebug fuel strip.enough strip.top strip.rowsIn strip.partsIn input
  refine ⟨taskUpdates, built, complete_sequentialSchedule _ _, fun schedule complete r => ?_⟩
  have rowsApart : RowsApart fun t => (strips t).flatMap taskUpdates := by
    intro t t' other u member u' member'
    obtain ⟨a, inA, inUpdates⟩ := List.mem_flatMap.mp member
    obtain ⟨b, inB, inUpdates'⟩ := List.mem_flatMap.mp member'
    have := bounds a u inUpdates
    have := bounds b u' inUpdates'
    rcases apart t t' other a inA b inB with before | after
    · have := Nat.mul_le_mul_right blockSize.numRows before; omega
    · have := Nat.mul_le_mul_right blockSize.numRows after; omega
  rw [execute_output_of_rowsApart output₀ _ rowsApart schedule complete r]
  simp only [flatMap_taskUpdates totals]

/-- Two `2 x 2` strips, block rows 0 and 1, run by two workers. -/
def upperStrip : TaskStrip ⟨2, 2⟩ (2 ^ 70) where
  top := 0
  blockRows := [[⟨0, 0, [⟨0, [1]⟩, ⟨1, [0]⟩]⟩]]
  increasing := by decide
  fits := by decide
  enough := by decide
  rowsIn := by decide
  partsIn := by decide

def lowerStrip : TaskStrip ⟨2, 2⟩ (2 ^ 70) where
  top := 1
  blockRows := [[⟨1, 0, [⟨0, [0, 1]⟩]⟩]]
  increasing := by decide
  fits := by decide
  enough := by decide
  rowsIn := by decide
  partsIn := by decide

def twoWorkerStrips (t : Fin 2) : List (TaskStrip ⟨2, 2⟩ (2 ^ 70)) :=
  if t = 0 then [upperStrip] else [lowerStrip]

theorem sparse_matrix_compute_spmv_twoWorkers :
    ∃ taskUpdates : TaskStrip ⟨2, 2⟩ (2 ^ 70) → List RowUpdate,
      (∀ strip, spmvTaskUpdates ⟨2, 2⟩ .seq false (2 ^ 70) strip.blockRows (fun c => c + 1) =
        some (.ok (taskUpdates strip))) ∧
      Complete (execute (sequentialSchedule (fun t => (twoWorkerStrips t).flatMap taskUpdates)
        (List.finRange 2)) (.initial (fun _ => 0) fun t => (twoWorkerStrips t).flatMap taskUpdates)) ∧
      ∀ schedule, Complete (execute schedule
          (.initial (fun _ => 0) fun t => (twoWorkerStrips t).flatMap taskUpdates)) →
        ∀ r, (execute schedule
            (.initial (fun _ => 0) fun t => (twoWorkerStrips t).flatMap taskUpdates)).output r =
          0 + ∑ t, ((twoWorkerStrips t).map fun strip =>
            entrySum (stripEntries ⟨2, 2⟩ strip.blockRows) (fun c => c + 1) r).sum :=
  sparse_matrix_compute_spmv ⟨2, 2⟩ (fun _ _ _ => 0) (.inl rfl) false (2 ^ 70) twoWorkerStrips
    (by decide) (fun c => c + 1) fun _ => 0

end Graphyti.Matrix
