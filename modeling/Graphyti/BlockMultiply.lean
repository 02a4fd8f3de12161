import Graphyti.BlockComputeTask
import Mathlib.Algebra.BigOperators.Group.List
import Mathlib.Logic.Function.Basic
import Mathlib.Algebra.Ring.Int.Defs

/-! SpMV and SpMM over the 2D-partitioned format. `run_on_block` walks a block's row parts
with the block's first row and column; `run_on_row_part` adds, into the row part's output
row, the input entries (SpMV) or input rows (SpMM) its non-zeros name. Element type `T` is an
exact integer type here, so the order of the additions does not matter and a task's result
is a sum over the entries of its strip. -/
namespace Graphyti.Matrix

/-- The entries a row part stands for, with multiplicity, from the block's first row and column. -/
def rowPartEntries (rpart : SparseRowPart) (startRowIdx startColIdx : Nat) : List (Nat × Nat) :=
  rpart.relColIdxs.map fun relColIdx => (startRowIdx + rpart.relRowIdx, startColIdx + relColIdx)

/-- The entries `(block_row_idx * R + r', block_col_idx * C + c')` a block stands for. -/
def SparseBlock2d.entries (blockSize : Block2dSize) (block : SparseBlock2d) : List (Nat × Nat) :=
  block.rowParts.flatMap fun rpart =>
    rowPartEntries rpart (block.blockRowIdx * blockSize.numRows) (block.blockColIdx * blockSize.numCols)

/-- The entries of the matrix a strip holds. -/
def stripEntries (blockSize : Block2dSize) (blockRows : List (List SparseBlock2d)) :
    List (Nat × Nat) :=
  (inFileOrderCalls blockRows).flatMap (·.entries blockSize)

/-- `Σ` over the entries `(r, c)` in row `r` of `x[c]`, with multiplicity. -/
def entrySum (entries : List (Nat × Nat)) (x : Nat → Int) (r : Nat) : Int :=
  (entries.map fun e => if e.1 = r then x e.2 else 0).sum

/-- `run_on_block` of `block_spmv_task` and `block_spmm_task`, over its `run_on_row_part`. -/
def runOnBlock {σ : Type} (runOnRowPart : σ → SparseRowPart → Nat → Nat → σ)
    (blockSize : Block2dSize) (output : σ) (block : SparseBlock2d) : σ :=
  let startColIdx := block.blockColIdx * blockSize.numCols
  let startRowIdx := block.blockRowIdx * blockSize.numRows
  block.rowParts.foldl (fun output rpart => runOnRowPart output rpart startRowIdx startColIdx) output

/-- `block_spmv_task::run_on_row_part`. -/
def spmvRunOnRowPart (input : Nat → Int) (output : Nat → Int) (rpart : SparseRowPart)
    (startRowIdx startColIdx : Nat) : Nat → Int :=
  let rowIdx := startRowIdx + rpart.relRowIdx
  let sum := rpart.relColIdxs.foldl (fun sum relColIdx => sum + input (startColIdx + relColIdx)) 0
  Function.update output rowIdx (output rowIdx + sum)

/-- `block_spmm_task::run_on_row_part`: `dest_row[j] += src_row[j]` per non-zero. -/
def spmmRunOnRowPart (rowWidth : Nat) (input : Nat → Nat → Int) (output : Nat → Nat → Int)
    (rpart : SparseRowPart) (startRowIdx startColIdx : Nat) : Nat → Nat → Int :=
  let rowIdx := startRowIdx + rpart.relRowIdx
  Function.update output rowIdx <| rpart.relColIdxs.foldl (fun destRow relColIdx =>
      let srcRow := input (startColIdx + relColIdx)
      (List.range rowWidth).foldl (fun destRow j => Function.update destRow j (destRow j + srcRow j))
        destRow)
    (output rowIdx)

def blockSpmvRunOnBlock (blockSize : Block2dSize) (input : Nat → Int) :
    (Nat → Int) → SparseBlock2d → Nat → Int :=
  runOnBlock (spmvRunOnRowPart input) blockSize

def blockSpmmRunOnBlock (blockSize : Block2dSize) (rowWidth : Nat) (input : Nat → Nat → Int) :
    (Nat → Nat → Int) → SparseBlock2d → Nat → Nat → Int :=
  runOnBlock (spmmRunOnRowPart rowWidth input) blockSize

/-- A `block_spmv_task` on a strip: `run`, then `run_on_block` on its super blocks' blocks. -/
def blockSpmvTaskRun (blockSize : Block2dSize) (order : BlockExecOrder) (ndebug : Bool)
    (fuel : Nat) (blockRows : List (List SparseBlock2d)) (input output : Nat → Int) :
    Option (Except String (Nat → Int)) :=
  (blockComputeTaskRun ndebug fuel blockRows).map (·.map fun superBlocks =>
    (runOnBlockCalls (keptOrder order blockRows.length) superBlocks).foldl
      (blockSpmvRunOnBlock blockSize input) output)

/-- A `block_spmm_task` over dense matrices with `row_width` columns. -/
def blockSpmmTaskRun (blockSize : Block2dSize) (order : BlockExecOrder) (rowWidth : Nat)
    (ndebug : Bool) (fuel : Nat) (blockRows : List (List SparseBlock2d))
    (input output : Nat → Nat → Int) : Option (Except String (Nat → Nat → Int)) :=
  (blockComputeTaskRun ndebug fuel blockRows).map (·.map fun superBlocks =>
    (runOnBlockCalls (keptOrder order blockRows.length) superBlocks).foldl
      (blockSpmmRunOnBlock blockSize rowWidth input) output)

theorem foldl_add_eq_sum {α : Type} (f : α → Int) (l : List α) (start : Int) :
    l.foldl (fun sum x => sum + f x) start = start + (l.map f).sum := by
  induction l generalizing start with
  | nil => simp
  | cons x l ih => rw [List.foldl_cons, ih, List.map_cons, List.sum_cons, add_assoc]

theorem foldl_range_update (rowWidth : Nat) (srcRow destRow : Nat → Int) (j : Nat) :
    (List.range rowWidth).foldl (fun destRow j => Function.update destRow j (destRow j + srcRow j))
      destRow j = destRow j + if j < rowWidth then srcRow j else 0 := by
  induction rowWidth with
  | zero => simp
  | succ rowWidth ih =>
    rw [List.range_succ, List.foldl_append, List.foldl_cons, List.foldl_nil, Function.update_apply]
    split
    · subst j; simp [ih]
    · rw [ih]; congr 2; simp only [Nat.lt_succ_iff_lt_or_eq, or_iff_left ‹_›]

theorem spmvRunOnRowPart_apply (input output : Nat → Int) (rpart : SparseRowPart)
    (startRowIdx startColIdx r : Nat) :
    spmvRunOnRowPart input output rpart startRowIdx startColIdx r =
      output r + entrySum (rowPartEntries rpart startRowIdx startColIdx) input r := by
  unfold spmvRunOnRowPart entrySum rowPartEntries
  rw [foldl_add_eq_sum, Function.update_apply]
  split
  · subst r; simp [Function.comp_def]
  · simp [Function.comp_def, Ne.symm ‹_›, nsmul_zero]

theorem spmmRunOnRowPart_apply (rowWidth : Nat) (input output : Nat → Nat → Int)
    (rpart : SparseRowPart) (startRowIdx startColIdx r j : Nat) :
    spmmRunOnRowPart rowWidth input output rpart startRowIdx startColIdx r j =
      output r j + if j < rowWidth then
        entrySum (rowPartEntries rpart startRowIdx startColIdx) (fun c => input c j) r else 0 := by
  have nonZeros : ∀ (relColIdxs : List Nat) (destRow : Nat → Int),
      relColIdxs.foldl (fun destRow relColIdx => (List.range rowWidth).foldl
        (fun destRow j => Function.update destRow j (destRow j + input (startColIdx + relColIdx) j))
        destRow) destRow j =
      destRow j + if j < rowWidth then
        (relColIdxs.map fun relColIdx => input (startColIdx + relColIdx) j).sum else 0 := by
    intro relColIdxs
    induction relColIdxs with
    | nil => simp
    | cons relColIdx relColIdxs ih =>
      intro destRow
      rw [List.foldl_cons, ih, foldl_range_update]
      split <;> simp [add_assoc]
  unfold spmmRunOnRowPart entrySum rowPartEntries
  rw [Function.update_apply]
  split
  · subst r; simp [nonZeros, Function.comp_def]
  · simp [Function.comp_def, Ne.symm ‹_›, nsmul_zero]

section Accumulate

variable {σ : Type} (runOnRowPart : σ → SparseRowPart → Nat → Nat → σ) (blockSize : Block2dSize)
  (read : σ → Int) (δ : Nat × Nat → Int)
  (adds : ∀ output rpart startRowIdx startColIdx,
    read (runOnRowPart output rpart startRowIdx startColIdx) =
      read output + ((rowPartEntries rpart startRowIdx startColIdx).map δ).sum)

include adds

theorem runOnBlock_adds (output : σ) (block : SparseBlock2d) :
    read (runOnBlock runOnRowPart blockSize output block) =
      read output + ((block.entries blockSize).map δ).sum := by
  unfold runOnBlock SparseBlock2d.entries
  generalize block.blockRowIdx * blockSize.numRows = startRowIdx
  generalize block.blockColIdx * blockSize.numCols = startColIdx
  induction block.rowParts generalizing output with
  | nil => simp
  | cons rpart rparts ih =>
    rw [List.foldl_cons, ih, adds, List.flatMap_cons, List.map_append, List.sum_append, add_assoc]

theorem foldl_runOnBlock_adds (calls : List SparseBlock2d) (output : σ) :
    read (calls.foldl (runOnBlock runOnRowPart blockSize) output) =
      read output + ((calls.flatMap (·.entries blockSize)).map δ).sum := by
  induction calls generalizing output with
  | nil => simp
  | cons block calls ih =>
    rw [List.foldl_cons, ih, runOnBlock_adds runOnRowPart blockSize read δ adds, List.flatMap_cons,
      List.map_append, List.sum_append, add_assoc]

end Accumulate

theorem sum_entries_perm {calls : List SparseBlock2d} {blockRows : List (List SparseBlock2d)}
    (same : calls.Perm (inFileOrderCalls blockRows)) (blockSize : Block2dSize) (δ : Nat × Nat → Int) :
    ((calls.flatMap (·.entries blockSize)).map δ).sum = ((stripEntries blockSize blockRows).map δ).sum :=
  ((same.flatMap_right _).map δ).sum_eq

theorem entrySum_outside (blockSize : Block2dSize) (blockRows : List (List SparseBlock2d))
    (top : Nat)
    (rowsIn : ∀ b ∈ inFileOrderCalls blockRows,
      top ≤ b.blockRowIdx ∧ b.blockRowIdx < top + blockRows.length)
    (partsIn : ∀ b ∈ inFileOrderCalls blockRows, ∀ p ∈ b.rowParts, p.relRowIdx < blockSize.numRows)
    (x : Nat → Int) (r : Nat)
    (outside : r < top * blockSize.numRows ∨ (top + blockRows.length) * blockSize.numRows ≤ r) :
    entrySum (stripEntries blockSize blockRows) x r = 0 := by
  refine List.sum_eq_zero fun v member => ?_
  obtain ⟨e, inStrip, rfl⟩ := List.mem_map.mp member
  simp only [stripEntries, List.mem_flatMap, SparseBlock2d.entries, rowPartEntries,
    List.mem_map] at inStrip
  obtain ⟨b, inCalls, p, inParts, c, -, rfl⟩ := inStrip
  have ⟨low, high⟩ := rowsIn b inCalls
  have := partsIn b inCalls p inParts
  have : top * blockSize.numRows ≤ b.blockRowIdx * blockSize.numRows := Nat.mul_le_mul_right _ low
  have : (b.blockRowIdx + 1) * blockSize.numRows ≤ (top + blockRows.length) * blockSize.numRows :=
    Nat.mul_le_mul_right _ high
  rw [Nat.succ_mul] at this
  rw [if_neg (by omega)]

theorem entrySum_if (entries : List (Nat × Nat)) (x : Nat → Int) (r : Nat) (c : Prop)
    [Decidable c] :
    (entries.map fun e => if c then (if e.1 = r then x e.2 else 0) else 0).sum =
      if c then entrySum entries x r else 0 := by
  by_cases holds : c <;> simp [holds, entrySum, nsmul_zero]

theorem foldl_blockSpmvRunOnBlock {calls : List SparseBlock2d}
    {blockRows : List (List SparseBlock2d)} (same : calls.Perm (inFileOrderCalls blockRows))
    (blockSize : Block2dSize) (input output : Nat → Int) (r : Nat) :
    calls.foldl (blockSpmvRunOnBlock blockSize input) output r =
      output r + entrySum (stripEntries blockSize blockRows) input r :=
  (foldl_runOnBlock_adds (spmvRunOnRowPart input) blockSize (fun output => output r) _
    (fun output rpart _ _ => spmvRunOnRowPart_apply input output rpart _ _ r) calls output).trans
    (congrArg _ (sum_entries_perm same blockSize _))

theorem foldl_blockSpmmRunOnBlock {calls : List SparseBlock2d}
    {blockRows : List (List SparseBlock2d)} (same : calls.Perm (inFileOrderCalls blockRows))
    (blockSize : Block2dSize) (rowWidth : Nat) (input output : Nat → Nat → Int) (r j : Nat) :
    calls.foldl (blockSpmmRunOnBlock blockSize rowWidth input) output r j =
      output r j + if j < rowWidth then
        entrySum (stripEntries blockSize blockRows) (fun c => input c j) r else 0 := by
  rw [← entrySum_if, ← sum_entries_perm same]
  exact foldl_runOnBlock_adds (spmmRunOnRowPart rowWidth input) blockSize (fun output => output r j)
    _ (fun output rpart _ _ => (spmmRunOnRowPart_apply rowWidth input output rpart _ _ r j).trans
      (by rw [← entrySum_if])) calls output

/-- On a strip meeting the traversal's preconditions, `block_spmv_task` and `block_spmm_task`
add to each output row its entry sum over the input, and leave rows outside the strip alone. -/
theorem block_multiply_task_run (blockSize : Block2dSize) (hilbertXy2d : Nat → Nat → Nat → Nat)
    (order : BlockExecOrder) (order_from : order = .seq ∨ ∃ m, order = hilbertExecOrder hilbertXy2d m)
    (blockRows : List (List SparseBlock2d))
    (increasing : ∀ row ∈ blockRows, row.Pairwise fun a b => a.blockColIdx < b.blockColIdx)
    (fits : ∀ b ∈ blockRows.flatten, b.blockColIdx < 2 ^ 64) (ndebug : Bool) (fuel : Nat)
    (enough : (blockRows.flatten.length + blockRows.length) * 2 ^ 64 < fuel) (top : Nat)
    (rowsIn : ∀ b ∈ inFileOrderCalls blockRows,
      top ≤ b.blockRowIdx ∧ b.blockRowIdx < top + blockRows.length)
    (partsIn : ∀ b ∈ inFileOrderCalls blockRows, ∀ p ∈ b.rowParts, p.relRowIdx < blockSize.numRows) :
    (∀ input output : Nat → Int, ∃ result,
      blockSpmvTaskRun blockSize order ndebug fuel blockRows input output = some (.ok result) ∧
      ∀ r, result r = output r + entrySum (stripEntries blockSize blockRows) input r ∧
        (r < top * blockSize.numRows ∨ (top + blockRows.length) * blockSize.numRows ≤ r →
          result r = output r)) ∧
    (∀ (rowWidth : Nat) (input output : Nat → Nat → Int), ∃ result,
      blockSpmmTaskRun blockSize order rowWidth ndebug fuel blockRows input output =
        some (.ok result) ∧
      ∀ r j, result r j = output r j +
          (if j < rowWidth then entrySum (stripEntries blockSize blockRows) (fun c => input c j) r
            else 0) ∧
        (r < top * blockSize.numRows ∨ (top + blockRows.length) * blockSize.numRows ≤ r →
          result r j = output r j)) := by
  obtain ⟨superBlocks, ran, -, calls⟩ :=
    blockComputeTaskRun_increasing hilbertXy2d order_from blockRows increasing fits ndebug fuel enough
  have outside := entrySum_outside blockSize blockRows top rowsIn partsIn
  constructor
  · intro input output
    have sum := foldl_blockSpmvRunOnBlock calls blockSize input output
    exact ⟨_, by simp only [blockSpmvTaskRun, ran]; rfl, fun r =>
      ⟨sum r, fun away => by rw [sum r, outside input r away, add_zero]⟩⟩
  · intro rowWidth input output
    have sum := foldl_blockSpmmRunOnBlock calls blockSize rowWidth input output
    exact ⟨_, by simp only [blockSpmmTaskRun, ran]; rfl, fun r j =>
      ⟨sum r j, fun away => by rw [sum r j, outside _ r away, ite_self, add_zero]⟩⟩

/-- A `2 x 2`-block strip of two block rows with non-zeros in every block. -/
def productStrip : List (List SparseBlock2d) :=
  [[⟨0, 0, [⟨0, [1]⟩]⟩, ⟨0, 1, [⟨1, [0]⟩]⟩], [⟨1, 1, [⟨0, [0, 1]⟩]⟩]]

theorem block_multiply_task_run_productStrip :
    ∃ result, blockSpmvTaskRun ⟨2, 2⟩ .seq false (5 * 2 ^ 64 + 1) productStrip (fun _ => 1)
        (fun _ => 0) = some (.ok result) ∧
      result 2 = entrySum (stripEntries ⟨2, 2⟩ productStrip) (fun _ => 1) 2 := by
  obtain ⟨result, ran, sum⟩ := (block_multiply_task_run ⟨2, 2⟩ rowMajorXy2d .seq (.inl rfl)
    productStrip (by decide) (by decide) false (5 * 2 ^ 64 + 1) (by decide) 0 (by decide)
    (by decide)).1 (fun _ => 1) (fun _ => 0)
  exact ⟨result, ran, by rw [(sum 2).1, zero_add]⟩

end Graphyti.Matrix
