import Mathlib.Data.List.Chain

/-! The native 2D-partitioned sparse matrix format of FlashMatrix. A block holds row
parts, each one row of the block with the column offsets of its non-zeros; a strip of
block rows lists each row's blocks in file order. `assert` either aborts with its
condition's text or, with `NDEBUG`, is compiled out. -/
namespace Graphyti.Matrix

/-- `assert(cond)`: `ndebug` compiles it out, otherwise a false condition aborts. -/
def assertion (ndebug cond : Bool) (text : String) : Except String Unit :=
  if ndebug || cond then .ok () else .error text

theorem bind_unit_ok {ε β : Type} {x : Except ε Unit} {rest : Except ε β} {b : β} :
    (x >>= fun _ => rest) = .ok b ↔ x = .ok () ∧ rest = .ok b := by
  cases x <;> simp [bind, Except.bind]

@[simp] theorem assertion_ok (ndebug cond : Bool) (text : String) :
    assertion ndebug cond text = .ok () ↔ ndebug = true ∨ cond = true := by
  unfold assertion; split <;> simp_all

/-- `block_2d_size`: the rows and columns of every block. -/
structure Block2dSize where
  numRows : Nat
  numCols : Nat
  deriving DecidableEq, Repr

/-- `sparse_row_part`: its row in the block and `get_rel_col_idx(i)` of each non-zero. -/
structure SparseRowPart where
  relRowIdx : Nat
  relColIdxs : List Nat
  deriving DecidableEq, Repr

/-- `sparse_block_2d`: its block coordinates and its row parts in storage order. -/
structure SparseBlock2d where
  blockRowIdx : Nat
  blockColIdx : Nat
  rowParts : List SparseRowPart
  deriving DecidableEq, Repr

/-- The loop of `sparse_block_2d::verify` from `rel_row_id` and `num_rows`, then its assertion. -/
def verifyParts (blockSize : Block2dSize) : Nat → Nat → List SparseRowPart → Except String Unit
  | _, numRows, [] =>
    assertion false (decide (numRows ≤ blockSize.numRows)) "num_rows <= block_size.get_num_rows()"
  | relRowId, numRows, part :: parts => do
    assertion false (decide (part.relColIdxs.length ≤ blockSize.numCols))
      "part.get_num_non_zeros() <= block_size.get_num_cols()"
    if part.relRowIdx > 0 then
      assertion false (decide (relRowId < part.relRowIdx)) "rel_row_id < part.get_rel_row_idx()"
    verifyParts blockSize part.relRowIdx (numRows + 1) parts

/-- `sparse_block_2d::verify`. -/
def SparseBlock2d.verify (block : SparseBlock2d) (blockSize : Block2dSize) : Except String Unit :=
  verifyParts blockSize 0 0 block.rowParts

/-- `sparse_matrix_storage::verify`: every block of every block row. -/
def storageVerify (blockSize : Block2dSize) (blockRows : List (List SparseBlock2d)) :
    Except String Unit :=
  blockRows.forM fun blocks => blocks.forM fun block => block.verify blockSize

/-- What keeps a block inside its `R x C` tile: row parts in strictly increasing rows below `R`,
at most `C` non-zeros each, every column below `C`. -/
def SparseBlock2d.WellFormed (block : SparseBlock2d) (blockSize : Block2dSize) : Prop :=
  (block.rowParts.map (·.relRowIdx)).Pairwise (· < ·) ∧
  (∀ part ∈ block.rowParts, part.relRowIdx < blockSize.numRows) ∧
  (∀ part ∈ block.rowParts, part.relColIdxs.length ≤ blockSize.numCols) ∧
  (∀ part ∈ block.rowParts, ∀ col ∈ part.relColIdxs, col < blockSize.numCols)

instance (block : SparseBlock2d) (blockSize : Block2dSize) :
    Decidable (block.WellFormed blockSize) := by
  unfold SparseBlock2d.WellFormed; infer_instance

theorem verifyParts_ok (blockSize : Block2dSize) (parts : List SparseRowPart) :
    ∀ relRowId numRows, verifyParts blockSize relRowId numRows parts = .ok () ↔
      (∀ part ∈ parts, part.relColIdxs.length ≤ blockSize.numCols) ∧
      numRows + parts.length ≤ blockSize.numRows ∧
      (parts.map (·.relRowIdx)).Chain (fun a b => 0 < b → a < b) relRowId := by
  induction parts with
  | nil => intro relRowId numRows; simp [verifyParts]
  | cons part parts ih =>
    intro relRowId numRows
    have count : numRows + (parts.length + 1) = numRows + 1 + parts.length := by omega
    simp only [verifyParts, List.map_cons, List.chain_cons, List.forall_mem_cons, List.length_cons,
      count]
    by_cases positive : 0 < part.relRowIdx
    · simp [positive, bind_unit_ok, ih, and_assoc]
      tauto
    · simp [positive, bind_unit_ok, ih, pure, Except.pure, and_assoc]

theorem storageVerify_ok (blockSize : Block2dSize) (blockRows : List (List SparseBlock2d)) :
    storageVerify blockSize blockRows = .ok () ↔
      ∀ blocks ∈ blockRows, ∀ block ∈ blocks, block.verify blockSize = .ok () := by
  have row : ∀ blocks : List SparseBlock2d, blocks.forM (fun block => block.verify blockSize) =
      .ok () ↔ ∀ block ∈ blocks, block.verify blockSize = .ok () := by
    intro blocks
    induction blocks with
    | nil => simp [pure, Except.pure]
    | cons block blocks ih => simp [List.forM_cons, bind_unit_ok, ih]
  unfold storageVerify
  induction blockRows with
  | nil => simp [pure, Except.pure]
  | cons blocks blockRows ih => simp [List.forM_cons, bind_unit_ok, ih, row]

theorem storage_verify_sound (blockSize : Block2dSize) (blockRows : List (List SparseBlock2d))
    (verified : storageVerify blockSize blockRows = .ok ()) :
    ∀ blocks ∈ blockRows, ∀ block ∈ blocks,
      (∀ part ∈ block.rowParts, part.relColIdxs.length ≤ blockSize.numCols) ∧
      block.rowParts.length ≤ blockSize.numRows := by
  intro blocks member block inRow
  have := (verifyParts_ok blockSize block.rowParts 0 0).mp
    ((storageVerify_ok blockSize blockRows).mp verified blocks member block inRow)
  exact ⟨this.1, by simpa using this.2.1⟩

/-- Two `2 x 2` blocks, a row part on row 2 and a non-zero in column 5, outside their tile. -/
def offTileBlocks : List SparseBlock2d :=
  [⟨0, 0, [⟨2, [0]⟩]⟩, ⟨0, 1, [⟨0, [5]⟩]⟩]

theorem verify_accepts_off_tile :
    storageVerify ⟨2, 2⟩ [offTileBlocks] = .ok () ∧
      ∀ block ∈ offTileBlocks, ¬block.WellFormed ⟨2, 2⟩ :=
  ⟨rfl, by decide⟩

theorem chain_append_zero (l : List Nat) :
    ∀ c, (l ++ [0]).Chain (fun a b => 0 < b → a < b) c ↔ l.Chain (fun a b => 0 < b → a < b) c := by
  induction l with
  | nil => simp
  | cons a l ih => simp [ih]

/-- `verify` bounds the non-zeros per row part and the row parts per block, but checks the order
only at a non-zero `rel_row_idx`: a part at row 0 passes after any rows. -/
theorem sparse_verify_skips_row_zero (blockSize : Block2dSize) :
    (∀ blockRows, storageVerify blockSize blockRows = .ok () →
      ∀ blocks ∈ blockRows, ∀ block ∈ blocks,
        (∀ part ∈ block.rowParts, part.relColIdxs.length ≤ blockSize.numCols) ∧
        block.rowParts.length ≤ blockSize.numRows) ∧
    ∀ (block : SparseBlock2d) (part : SparseRowPart), part.relRowIdx = 0 →
      ({ block with rowParts := block.rowParts ++ [part] }.verify blockSize = .ok () ↔
        block.verify blockSize = .ok () ∧ part.relColIdxs.length ≤ blockSize.numCols ∧
          block.rowParts.length < blockSize.numRows) := by
  refine ⟨storage_verify_sound blockSize, fun block part zero => ?_⟩
  simp only [SparseBlock2d.verify, verifyParts_ok, List.map_append, List.map_cons, List.map_nil,
    zero, chain_append_zero, List.forall_mem_append, List.forall_mem_singleton,
    List.length_append, List.length_singleton]
  constructor
  · rintro ⟨⟨parts, fewCols⟩, room, ordered⟩
    exact ⟨⟨parts, by omega, ordered⟩, fewCols, by omega⟩
  · rintro ⟨⟨parts, -, ordered⟩, fewCols, room⟩
    exact ⟨⟨parts, fewCols⟩, by omega, ordered⟩

/-- Row 1 stored before row 0 in a `2 x 2` block. -/
def rowOneFirst : SparseBlock2d := ⟨0, 0, [⟨1, [0]⟩, ⟨0, [1]⟩]⟩

theorem sparse_verify_skips_row_zero_rowOneFirst :
    rowOneFirst.rowParts.length ≤ 2 ∧ rowOneFirst.verify ⟨2, 2⟩ = .ok () ∧
      ¬rowOneFirst.WellFormed ⟨2, 2⟩ :=
  ⟨((sparse_verify_skips_row_zero ⟨2, 2⟩).1 [[rowOneFirst]] rfl _ (List.mem_singleton_self _) _
      (List.mem_singleton_self _)).2,
    ((sparse_verify_skips_row_zero ⟨2, 2⟩).2 ⟨0, 0, [⟨1, [0]⟩]⟩ ⟨0, [1]⟩ rfl).mpr
      ⟨rfl, by decide, by decide⟩,
    by decide⟩

end Graphyti.Matrix
