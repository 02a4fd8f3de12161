import Graphyti.RowComputeTask
import Mathlib.Data.List.Sort

/-! `block_compute_task`'s constructor on a `block_sparse_matrix`: it asks the matrix's index
for the file offset of each block row of its I/O and of the end of the last one, allocates a
page-aligned buffer over the I/O, and keeps each offset as a pointer into that buffer: the
`block_rows` that `run` walks. The index is what it answers to `get_block_row_off`.
`num_block_rows` is `ceil` of a `double` quotient, exact below `2^53` rows. -/
namespace Graphyti.Matrix

/-- What the constructor sets up: the buffer's offset `off`, `buf_size`, and `block_rows`. -/
structure BlockTaskBuffer where
  off : Nat
  bufSize : Nat
  blockRows : List Int
  deriving DecidableEq, Repr

/-- `block_sparse_matrix::get_block_row_offs`, where `getBlockRowOff i` is what the index
answers (`none` where it reads past its own bytes). -/
def getBlockRowOffs (getBlockRowOff : Nat → Option (BitVec 64)) (blockRowIdxs : List Nat) :
    Option (List Int) :=
  blockRowIdxs.mapM fun i => (getBlockRowOff i).map BitVec.toInt

/-- `block_compute_task(io, mat, order)` for an `io` whose top-left row is `topRow`. -/
def blockComputeTaskBuffer (getBlockRowOff : Nat → Option (BitVec 64)) (pageSize : Nat)
    (ndebug : Bool) (blockSize : Block2dSize) (io : MatrixIo) (topRow : Nat) :
    Option (Except String BlockTaskBuffer) :=
  let numBlockRows := (io.numRows + blockSize.numRows - 1) / blockSize.numRows
  let off := roundPage pageSize io.offset
  match assertion ndebug (decide (topRow % blockSize.numRows = 0))
      "io.get_top_left().get_row_idx() % block_size.get_num_rows() == 0" with
  | .error text => some (.error text)
  | .ok () =>
    (getBlockRowOffs getBlockRowOff ((List.range (numBlockRows + 1)).map
        (topRow / blockSize.numRows + ·))).map fun offs => do
      assertion ndebug (decide (offs[0]? = some (io.offset : Int)))
        "io.get_loc().get_offset() == block_row_offs[0]"
      pure ⟨off, roundupPage pageSize (io.offset - off + io.size), offs.map (· - off)⟩

theorem mapM_of_some {α β : Type} {f : α → Option β} {g : α → β} (each : ∀ a, f a = some (g a)) :
    ∀ l : List α, l.mapM f = some (l.map g)
  | [] => rfl
  | a :: l => by simp only [List.mapM_cons, each a, mapM_of_some each l]; rfl

theorem toInt_ofNat_of_lt {o : Nat} (small : o < 2 ^ 63) : (BitVec.ofNat 64 o).toInt = o := by
  have double : (2 : Nat) ^ 64 = 2 * 2 ^ 63 := by rw [Nat.pow_succ, Nat.mul_comm]
  rw [BitVec.toInt_eq_toNat_cond, BitVec.toNat_ofNat, Nat.mod_eq_of_lt (by omega),
    if_pos (by omega)]

section Index

variable {getBlockRowOff : Nat → Option (BitVec 64)} {offs : List Nat}
  (small : ∀ o ∈ offs, o < 2 ^ 63)
  (answers : ∀ i, getBlockRowOff i = some ((offs[i]?.map (BitVec.ofNat 64)).getD (-1)))
include small answers

theorem getBlockRowOffs_answers (blockRowIdxs : List Nat) :
    getBlockRowOffs getBlockRowOff blockRowIdxs =
      some (blockRowIdxs.map fun i => (offs[i]?.map fun o : Nat => (o : Int)).getD (-1)) := by
  refine mapM_of_some (fun i => ?_) blockRowIdxs
  rw [answers]
  cases found : offs[i]? with
  | none => rfl
  | some o =>
    exact congrArg some (toInt_ofNat_of_lt (small o (List.getElem?_mem found)))

theorem blockComputeTaskBuffer_spec (pageSize : Nat) (ndebug : Bool) (blockSize : Block2dSize)
    (io : MatrixIo) (first : Nat) (wide : 0 < blockSize.numRows)
    (start : offs[first]? = some io.offset) :
    blockComputeTaskBuffer getBlockRowOff pageSize ndebug blockSize io
        (first * blockSize.numRows) =
      some (.ok ⟨roundPage pageSize io.offset,
        roundupPage pageSize (io.offset - roundPage pageSize io.offset + io.size),
        (List.range ((io.numRows + blockSize.numRows - 1) / blockSize.numRows + 1)).map fun i =>
          (offs[first + i]?.map fun o : Nat => (o : Int)).getD (-1) -
            roundPage pageSize io.offset⟩) := by
  have aligned : assertion ndebug (decide (first * blockSize.numRows % blockSize.numRows = 0))
      "io.get_top_left().get_row_idx() % block_size.get_num_rows() == 0" = .ok () := by
    simp [Nat.mul_mod_left]
  simp only [blockComputeTaskBuffer, aligned, Nat.mul_div_cancel _ wide,
    getBlockRowOffs_answers small answers, Option.map_some', List.map_map]
  rw [List.range_succ_eq_map]
  simp only [List.map_cons, Function.comp_apply, Nat.add_zero, List.getElem?_cons_zero, start,
    Option.map_some', Option.getD_some, assertion, decide_True, Bool.or_true, if_true,
    Function.comp_def]
  rfl

end Index

/-- For an I/O over whole block rows of an index with non-decreasing offsets, every kept pointer
lies in the buffer; a block row past the index gets `-1`, before the buffer. -/
theorem block_compute_task_buffer_bounds (getBlockRowOff : Nat → Option (BitVec 64))
    (offs : List Nat) (small : ∀ o ∈ offs, o < 2 ^ 63)
    (answers : ∀ i, getBlockRowOff i = some ((offs[i]?.map (BitVec.ofNat 64)).getD (-1)))
    (sorted : offs.Sorted (· ≤ ·)) (pageSize : Nat) (page : 0 < pageSize) (ndebug : Bool)
    (blockSize : Block2dSize) (wide : 0 < blockSize.numRows) (io : MatrixIo) (first : Nat)
    (start : offs[first]? = some io.offset) :
    ∃ task, blockComputeTaskBuffer getBlockRowOff pageSize ndebug blockSize io
        (first * blockSize.numRows) = some (.ok task) ∧
      ∀ i (p : Int), task.blockRows[i]? = some p →
        (∀ o, offs[first + i]? = some o → o ≤ io.offset + io.size → 0 ≤ p ∧ p ≤ task.bufSize) ∧
        (offs[first + i]? = none → p < 0) := by
  refine ⟨_, blockComputeTaskBuffer_spec small answers pageSize ndebug blockSize io first wide start,
    fun i p found => ?_⟩
  dsimp only at found ⊢
  rw [List.getElem?_map] at found
  obtain ⟨k, ranged, rfl⟩ := Option.map_eq_some'.mp found
  obtain ⟨inside, rfl⟩ := List.getElem?_eq_some_iff.mp ranged
  rw [List.getElem_range]
  have low : roundPage pageSize io.offset ≤ io.offset := Nat.div_mul_le_self _ _
  refine ⟨fun o later reach => ?_, fun past => ?_⟩
  · obtain ⟨inFirst, atFirst⟩ := List.getElem?_eq_some_iff.mp start
    obtain ⟨inLater, atLater⟩ := List.getElem?_eq_some_iff.mp later
    have above : io.offset ≤ o := by
      rcases Nat.eq_zero_or_pos i with none | some
      · subst none; rw [Nat.add_zero, start, Option.some_inj] at later; omega
      · exact atFirst ▸ atLater ▸
          List.pairwise_iff_getElem.mp sorted first (first + i) inFirst inLater (by omega)
    have fits := le_roundupPage page (io.offset - roundPage pageSize io.offset + io.size)
    simp only [later, Option.map_some', Option.getD_some]
    omega
  · simp only [past, Option.map_none', Option.getD_none]
    omega

theorem block_compute_task_buffer_bounds_secondBlockRow :
    ∃ task, blockComputeTaskBuffer
        (fun i => some (([0, 4096, 8192][i]?.map (BitVec.ofNat 64)).getD (-1))) 4096 false
        ⟨2, 2⟩ ⟨4096, 4096, 2⟩ (1 * 2) = some (.ok task) ∧
      ∀ i (p : Int), task.blockRows[i]? = some p →
        (∀ o, [0, 4096, 8192][1 + i]? = some o → o ≤ 4096 + 4096 → 0 ≤ p ∧ p ≤ task.bufSize) ∧
        ([0, 4096, 8192][1 + i]? = none → p < 0) :=
  block_compute_task_buffer_bounds _ [0, 4096, 8192] (by decide) (fun _ => rfl) (by decide)
    4096 (by decide) false ⟨2, 2⟩ (by decide) ⟨4096, 4096, 2⟩ 1 rfl

end Graphyti.Matrix
