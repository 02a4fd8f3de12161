import Graphyti.SparseFormat
import Mathlib.Data.List.Basic
import Mathlib.Algebra.Group.Nat.Basic

/-! `sparse_matrix_index` is a `matrix_header` followed by `off_t offs[]`, the file offset of
each block row and the end of the last one, and it is the same bytes in memory and in its
file: `dump` writes the object and `load` reads a whole file back as the object. An `off_t`
is eight bytes, least significant first; the header's layout is not in the source. -/
namespace Graphyti.Matrix

/-- The `w` bytes of `n`, least significant first. -/
def toBytesLE : Nat → Nat → List UInt8
  | 0, _ => []
  | w + 1, n => UInt8.ofNat (n % 256) :: toBytesLE w (n / 256)

/-- The number whose bytes, least significant first, are `bytes`. -/
def ofBytesLE : List UInt8 → Nat
  | [] => 0
  | b :: bs => b.toNat + 256 * ofBytesLE bs

@[simp] theorem length_toBytesLE (w n : Nat) : (toBytesLE w n).length = w := by
  induction w generalizing n with
  | zero => rfl
  | succ w ih => simp [toBytesLE, ih]

theorem ofBytesLE_toBytesLE (w n : Nat) : ofBytesLE (toBytesLE w n) = n % 256 ^ w := by
  induction w generalizing n with
  | zero => simp [toBytesLE, ofBytesLE, Nat.mod_one]
  | succ w ih =>
    have low : (UInt8.ofNat (n % 256)).toNat = n % 256 := Nat.mod_mod n 256
    rw [toBytesLE, ofBytesLE, ih, low, Nat.pow_succ, Nat.mul_comm (256 ^ w), Nat.mod_mul]

def offBytes (off : BitVec 64) : List UInt8 := toBytesLE 8 off.toNat

/-- The `off_t` at byte `pos` of `bytes`: `none` if its bytes are not all there. -/
def readOff (bytes : List UInt8) (pos : Nat) : Option (BitVec 64) :=
  if pos + 8 ≤ bytes.length then some (BitVec.ofNat 64 (ofBytesLE ((bytes.drop pos).take 8)))
  else none

/-- `matrix_header` as the index reads it: `get_num_rows()` and `get_2d_block_size()`. -/
structure MatrixHeader where
  numRows : Nat
  blockSize : Block2dSize
  deriving DecidableEq, Repr

/-- Modelled from the spec: `cal_num_block_rows`, the block rows that cover `num_rows` rows. -/
def calNumBlockRows (header : MatrixHeader) : Nat :=
  (header.numRows + header.blockSize.numRows - 1) / header.blockSize.numRows

/-- Modelled from the spec: where a header lies, its first `size` bytes; its fixed-width fields
hold the headers `fits` accepts, and such a header reads back from its bytes. -/
structure HeaderLayout where
  size : Nat
  encode : MatrixHeader → List UInt8
  decode : List UInt8 → MatrixHeader
  fits : MatrixHeader → Bool
  size_pos : 0 < size
  length_encode : ∀ header, (encode header).length = size
  decode_encode : ∀ header, fits header → decode (encode header) = header

/-- A `sparse_matrix_index` in memory: the object's bytes. -/
structure SparseMatrixIndex where
  bytes : List UInt8
  deriving DecidableEq, Repr

section Index

variable (layout : HeaderLayout)

/-- `get_size(num_entries)`: the bytes of an index with that many offsets. -/
def getSize (numEntries : Nat) : Nat := layout.size + 8 * numEntries

/-- The header, read from the object's first bytes: `none` if they are not all there. -/
def SparseMatrixIndex.header (idx : SparseMatrixIndex) : Option MatrixHeader :=
  if layout.size ≤ idx.bytes.length then some (layout.decode (idx.bytes.take layout.size))
  else none

/-- `get_num_entries()`: the block rows and one more, counted from the header. -/
def SparseMatrixIndex.getNumEntries (idx : SparseMatrixIndex) : Option Nat :=
  (idx.header layout).map fun header => calNumBlockRows header + 1

/-- `get_block_row_off(idx)`: `-1` ("get_block_row_off: out of range." logged) from the
header's count on, else `offs[idx]`; `none` where that reads bytes the object lacks. -/
def SparseMatrixIndex.getBlockRowOff (idx : SparseMatrixIndex) (i : Nat) : Option (BitVec 64) := do
  let numEntries ← idx.getNumEntries layout
  if i ≥ numEntries then pure (-1) else readOff idx.bytes (layout.size + 8 * i)

/-- `sparse_matrix_index::create`, once `posix_memalign` has succeeded. -/
def sparseMatrixIndexCreate (header : MatrixHeader) (offs : List (BitVec 64)) :
    Except String SparseMatrixIndex :=
  if offs.length ≠ calNumBlockRows header + 1 then .error "There are an incorrect number of offsets"
  else .ok ⟨layout.encode header ++ offs.flatMap offBytes⟩

/-- `sparse_matrix_index::dump`: the bytes `fwrite(this, get_size(...), 1, f)` writes. -/
def SparseMatrixIndex.dump (idx : SparseMatrixIndex) : Option (List UInt8) := do
  let numEntries ← idx.getNumEntries layout
  if getSize layout numEntries ≤ idx.bytes.length then
    some (idx.bytes.take (getSize layout numEntries))
  else none

end Index

/-- `sparse_matrix_index::load` of an open file: all of it read in, nothing checked. -/
def sparseMatrixIndexLoad (file : List UInt8) : Except String SparseMatrixIndex :=
  if file.length = 0 then .error "can't read %1%: %2%" else .ok ⟨file⟩

theorem length_flatMap_offBytes (offs : List (BitVec 64)) :
    (offs.flatMap offBytes).length = 8 * offs.length := by
  induction offs with
  | nil => rfl
  | cons off offs ih => simp [offBytes, ih]; omega

theorem readOff_offBytes (pre rest : List UInt8) (off : BitVec 64) :
    readOff (pre ++ (offBytes off ++ rest)) pre.length = some off := by
  have fits : off.toNat % 256 ^ 8 = off.toNat := Nat.mod_eq_of_lt off.isLt
  rw [readOff, if_pos (by simp [offBytes]), List.drop_left, offBytes,
    List.take_left' (length_toBytesLE 8 _), ofBytesLE_toBytesLE, fits]
  exact congrArg some (BitVec.eq_of_toNat_eq (by simp))

theorem readOff_flatMap (i : Nat) :
    ∀ (pre : List UInt8) (offs : List (BitVec 64)) (below : i < offs.length),
      readOff (pre ++ offs.flatMap offBytes) (pre.length + 8 * i) = some offs[i]
  | _, [], below => absurd below (Nat.not_lt_zero _)
  | pre, off :: offs, below => by
    cases i with
    | zero => exact readOff_offBytes pre _ off
    | succ i =>
      have shifted := readOff_flatMap i (pre ++ offBytes off) offs (by simpa using below)
      simp only [List.flatMap_cons, ← List.append_assoc, List.length_append, length_toBytesLE]
        at shifted ⊢
      rw [show pre.length + 8 * (i + 1) = pre.length + 8 + 8 * i by omega]
      exact shifted

theorem ofBytesLE_toBytesLE_eight {n : Nat} (small : n < 2 ^ 64) :
    ofBytesLE (toBytesLE 8 n) = n := by
  rw [ofBytesLE_toBytesLE]; exact Nat.mod_eq_of_lt small

/-- The three fields as `size_t`s, least significant byte first. -/
def sizeTLayout : HeaderLayout where
  size := 24
  encode header := toBytesLE 8 header.numRows ++ toBytesLE 8 header.blockSize.numRows ++
    toBytesLE 8 header.blockSize.numCols
  decode bytes := ⟨ofBytesLE (bytes.take 8),
    ⟨ofBytesLE ((bytes.drop 8).take 8), ofBytesLE ((bytes.drop 16).take 8)⟩⟩
  fits header := decide (header.numRows < 2 ^ 64) && decide (header.blockSize.numRows < 2 ^ 64) &&
    decide (header.blockSize.numCols < 2 ^ 64)
  size_pos := by decide
  length_encode _ := by simp only [List.length_append, length_toBytesLE]
  decode_encode := fun ⟨rows, ⟨blockRows, blockCols⟩⟩ fits => by
    simp only [Bool.and_eq_true, decide_eq_true_eq] at fits
    obtain ⟨⟨rowsFit, blockRowsFit⟩, blockColsFit⟩ := fits
    dsimp only
    rw [List.append_assoc, List.take_left' (length_toBytesLE 8 _),
      List.drop_left' (length_toBytesLE 8 _), List.take_left' (length_toBytesLE 8 _),
      ← List.append_assoc, List.drop_left' (by simp only [List.length_append, length_toBytesLE]),
      List.take_of_length_le (by simp only [length_toBytesLE, le_refl]),
      ofBytesLE_toBytesLE_eight rowsFit, ofBytesLE_toBytesLE_eight blockRowsFit,
      ofBytesLE_toBytesLE_eight blockColsFit]

section Layout

variable (layout : HeaderLayout)

theorem header_encode_append {header : MatrixHeader} (fits : layout.fits header)
    (rest : List UInt8) :
    SparseMatrixIndex.header layout ⟨layout.encode header ++ rest⟩ = some header := by
  rw [SparseMatrixIndex.header, if_pos (by simp [layout.length_encode]),
    List.take_left' (layout.length_encode header), layout.decode_encode header fits]

theorem getNumEntries_encode_append {header : MatrixHeader} (fits : layout.fits header)
    (rest : List UInt8) :
    SparseMatrixIndex.getNumEntries layout ⟨layout.encode header ++ rest⟩ =
      some (calNumBlockRows header + 1) := by
  rw [SparseMatrixIndex.getNumEntries, header_encode_append layout fits]; rfl

/-- `dump` then `load` gives back every index `create` builds from a header its layout holds,
but `load` checks nothing: a bare header loads, and `get_block_row_off(0)` then reads past it. -/
theorem sparse_matrix_index_load_unchecked :
    (∀ header offs idx, layout.fits header → sparseMatrixIndexCreate layout header offs = .ok idx →
      ∃ file, idx.dump layout = some file ∧ sparseMatrixIndexLoad file = .ok idx ∧
        idx.header layout = some header ∧
        ∀ i, idx.getBlockRowOff layout i = some (offs[i]?.getD (-1))) ∧
    ∀ header, layout.fits header → ∃ loaded,
      sparseMatrixIndexLoad (layout.encode header) = .ok loaded ∧
      loaded.getNumEntries layout = some (calNumBlockRows header + 1) ∧
      loaded.bytes.length < getSize layout (calNumBlockRows header + 1) ∧
      loaded.getBlockRowOff layout 0 = none := by
  refine ⟨fun header offs idx fits created => ?_, fun header fits => ?_⟩
  · rw [sparseMatrixIndexCreate] at created
    split at created
    · cases created
    next counted =>
      cases created
      have entries := getNumEntries_encode_append layout fits (offs.flatMap offBytes)
      rw [← not_not.mp counted] at entries
      have whole : getSize layout offs.length =
          (layout.encode header ++ offs.flatMap offBytes).length := by
        rw [getSize, List.length_append, layout.length_encode, length_flatMap_offBytes]
      refine ⟨layout.encode header ++ offs.flatMap offBytes, ?_, ?_,
        header_encode_append layout fits _, fun i => ?_⟩
      · rw [SparseMatrixIndex.dump, entries, Option.bind_eq_bind, Option.some_bind, whole,
          if_pos le_rfl, List.take_length]
      · rw [sparseMatrixIndexLoad, if_neg (by simp [layout.length_encode, layout.size_pos.ne'])]
      · rw [SparseMatrixIndex.getBlockRowOff, entries, Option.bind_eq_bind, Option.some_bind]
        split
        next past => rw [List.getElem?_eq_none past]; rfl
        next below =>
          have offset := readOff_flatMap i (layout.encode header) offs (by omega)
          rw [layout.length_encode] at offset
          rw [offset, List.getElem?_eq_getElem (by omega)]; rfl
  · have bare := getNumEntries_encode_append layout fits []
    rw [List.append_nil] at bare
    refine ⟨_, if_neg (by simp [layout.length_encode, layout.size_pos.ne']), bare,
      by simp [getSize, layout.length_encode], ?_⟩
    rw [SparseMatrixIndex.getBlockRowOff, bare, Option.bind_eq_bind, Option.some_bind,
      if_neg (by omega), readOff, if_neg (by simp [layout.length_encode])]

end Layout

theorem sparse_matrix_index_load_unchecked_sizeT :
    ∃ idx, sparseMatrixIndexCreate sizeTLayout ⟨4, ⟨2, 2⟩⟩ [0, 4096, 8192] = .ok idx ∧
      (∃ file, idx.dump sizeTLayout = some file ∧ sparseMatrixIndexLoad file = .ok idx ∧
        idx.header sizeTLayout = some ⟨4, ⟨2, 2⟩⟩ ∧
        ∀ i, idx.getBlockRowOff sizeTLayout i =
          some (([0, 4096, 8192] : List (BitVec 64))[i]?.getD (-1))) ∧
      ∃ loaded, sparseMatrixIndexLoad (sizeTLayout.encode ⟨4, ⟨2, 2⟩⟩) = .ok loaded ∧
        loaded.getNumEntries sizeTLayout = some (calNumBlockRows ⟨4, ⟨2, 2⟩⟩ + 1) ∧
        loaded.bytes.length < getSize sizeTLayout (calNumBlockRows ⟨4, ⟨2, 2⟩⟩ + 1) ∧
        loaded.getBlockRowOff sizeTLayout 0 = none :=
  ⟨_, rfl, (sparse_matrix_index_load_unchecked sizeTLayout).1 _ _ _ rfl rfl,
    (sparse_matrix_index_load_unchecked sizeTLayout).2 _ rfl⟩

end Graphyti.Matrix
