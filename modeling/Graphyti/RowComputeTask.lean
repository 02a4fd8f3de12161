import Graphyti.BlockMultiply

/-! `fg_row_compute_task` runs over a strip of a matrix in the FlashGraph format: the
records of consecutive vertices, back to back from the I/O's offset. `run` walks them by each
record's `get_size()` and calls `run_on_row` on each; `fg_row_spmv_task::run_on_row` writes the
sum of the input over the vertex's neighbours. The record layout of
`ext_mem_undirected_vertex` is not in the source, so what the bytes at an offset decode to is
a parameter, `vertexAt`. -/
namespace Graphyti.Matrix

/-- `ext_mem_undirected_vertex`: `get_id()`, `get_neighbor(i)` and `get_size()`. -/
structure ExtMemUndirectedVertex where
  id : Nat
  neighbors : List Nat
  size : Nat
  deriving DecidableEq, Repr

/-- `matrix_io`: `get_loc().get_offset()`, `get_size()` and `get_num_rows()`. -/
structure MatrixIo where
  offset : Nat
  size : Nat
  numRows : Nat
  deriving DecidableEq, Repr

/-- Modelled from the spec: `ROUND_PAGE` rounds an offset down to a page boundary. -/
def roundPage (pageSize off : Nat) : Nat := off / pageSize * pageSize

/-- Modelled from the spec: `ROUNDUP_PAGE` rounds a size up to a page multiple. -/
def roundupPage (pageSize size : Nat) : Nat := (size + pageSize - 1) / pageSize * pageSize

/-- The loop of `fg_row_compute_task::run` from file offset `pos` with `buf_size` left: the
records passed to `run_on_row`; `buf_size` is read only by the assertion, so `-` truncates. -/
def rowWalk (vertexAt : Nat → ExtMemUndirectedVertex) (ndebug : Bool) :
    Nat → Nat → Nat → Except String (List ExtMemUndirectedVertex)
  | 0, _, _ => .ok []
  | numRows + 1, pos, bufSize => do
    let v := vertexAt pos
    assertion ndebug (decide (bufSize ≥ v.size)) "buf_size >= vsize"
    (v :: ·) <$> rowWalk vertexAt ndebug numRows (pos + v.size) (bufSize - v.size)

/-- `fg_row_compute_task::run` with the buffer its constructor allocated. -/
def fgRowComputeTaskRun (vertexAt : Nat → ExtMemUndirectedVertex) (pageSize : Nat) (ndebug : Bool)
    (io : MatrixIo) : Except String (List ExtMemUndirectedVertex) :=
  let off := roundPage pageSize io.offset
  let bufSize := roundupPage pageSize (io.offset - off + io.size)
  rowWalk vertexAt ndebug io.numRows io.offset bufSize

/-- `fg_row_spmv_task::run_on_row`. -/
def fgRowSpmvRunOnRow (input : Nat → Int) (output : Nat → Int) (v : ExtMemUndirectedVertex) :
    Nat → Int :=
  Function.update output v.id (v.neighbors.foldl (fun res id => res + input id) 0)

def fgRowSpmvTaskRun (vertexAt : Nat → ExtMemUndirectedVertex) (pageSize : Nat) (ndebug : Bool)
    (io : MatrixIo) (input output : Nat → Int) : Except String (Nat → Int) :=
  (fgRowComputeTaskRun vertexAt pageSize ndebug io).map fun rows =>
    rows.foldl (fgRowSpmvRunOnRow input) output

/-- Every read of the walk from `pos` ends by `bufEnd`: a record's first `headerSize` bytes,
which `get_size()` reads, and the whole record, which `run_on_row` reads. -/
def ReadsWithin (headerSize bufEnd : Nat) : Nat → List ExtMemUndirectedVertex → Prop
  | _, [] => True
  | pos, v :: vs => pos + headerSize ≤ bufEnd ∧ pos + v.size ≤ bufEnd ∧
      ReadsWithin headerSize bufEnd (pos + v.size) vs

/-- The records lie back to back from `pos`: each where the one before it ends. -/
def LaidOut (vertexAt : Nat → ExtMemUndirectedVertex) : Nat → List ExtMemUndirectedVertex → Prop
  | _, [] => True
  | pos, v :: vs => vertexAt pos = v ∧ LaidOut vertexAt (pos + v.size) vs

theorem le_roundupPage {pageSize : Nat} (wide : 0 < pageSize) (size : Nat) :
    size ≤ roundupPage pageSize size := by
  have := Nat.div_add_mod (size + pageSize - 1) pageSize
  have := Nat.mod_lt (size + pageSize - 1) wide
  rw [roundupPage, Nat.mul_comm]
  omega

theorem rowWalk_laidOut (vertexAt : Nat → ExtMemUndirectedVertex) (ndebug : Bool) :
    ∀ (records : List ExtMemUndirectedVertex) (pos bufSize : Nat), LaidOut vertexAt pos records →
      (records.map (·.size)).sum ≤ bufSize →
      rowWalk vertexAt ndebug records.length pos bufSize = .ok records
  | [], _, _, _, _ => rfl
  | v :: vs, pos, bufSize, ⟨here, rest⟩, within => by
    simp only [List.map_cons, List.sum_cons] at within
    have checked : assertion ndebug (decide (bufSize ≥ (vertexAt pos).size)) "buf_size >= vsize" =
        .ok () := by simp [here]; omega
    rw [List.length_cons, rowWalk, checked, here,
      rowWalk_laidOut vertexAt ndebug vs _ _ rest (by omega)]
    rfl

theorem foldl_fgRowSpmvRunOnRow (input : Nat → Int) :
    ∀ (rows : List ExtMemUndirectedVertex) (output : Nat → Int), (rows.map (·.id)).Nodup →
      (∀ v ∈ rows, rows.foldl (fgRowSpmvRunOnRow input) output v.id = (v.neighbors.map input).sum) ∧
      ∀ r, r ∉ rows.map (·.id) → rows.foldl (fgRowSpmvRunOnRow input) output r = output r
  | [], _, _ => ⟨by simp, fun _ _ => rfl⟩
  | v :: vs, output, distinct => by
    obtain ⟨fresh, distinct⟩ := List.nodup_cons.mp (List.map_cons _ v vs ▸ distinct)
    obtain ⟨sums, kept⟩ := foldl_fgRowSpmvRunOnRow input vs
      (fgRowSpmvRunOnRow input output v) distinct
    have own : fgRowSpmvRunOnRow input output v v.id = (v.neighbors.map input).sum := by
      simp [fgRowSpmvRunOnRow, foldl_add_eq_sum]
    refine ⟨List.forall_mem_cons.mpr ⟨by rw [List.foldl_cons, kept _ fresh, own], sums⟩,
      fun r absent => ?_⟩
    simp only [List.map_cons, List.mem_cons, not_or] at absent
    rw [List.foldl_cons, kept r absent.2, fgRowSpmvRunOnRow, Function.update_noteq absent.1]

/-- For records laid out back to back within the I/O, `run` calls `run_on_row` once on each in
order; with distinct ids `fg_row_spmv_task` sets each vertex's entry to its neighbours' sum. -/
theorem fg_row_compute_task_run (vertexAt : Nat → ExtMemUndirectedVertex) (pageSize : Nat)
    (wide : 0 < pageSize) (io : MatrixIo) (records : List ExtMemUndirectedVertex)
    (rows : records.length = io.numRows) (laidOut : LaidOut vertexAt io.offset records)
    (within : (records.map (·.size)).sum ≤ io.size) (ndebug : Bool) :
    fgRowComputeTaskRun vertexAt pageSize ndebug io = .ok records ∧
    ((records.map (·.id)).Nodup → ∀ input output : Nat → Int, ∃ result,
      fgRowSpmvTaskRun vertexAt pageSize ndebug io input output = .ok result ∧
      (∀ v ∈ records, result v.id = (v.neighbors.map input).sum) ∧
      ∀ r, r ∉ records.map (·.id) → result r = output r) := by
  have ran : fgRowComputeTaskRun vertexAt pageSize ndebug io = .ok records := by
    have := le_roundupPage wide (io.offset - roundPage pageSize io.offset + io.size)
    rw [fgRowComputeTaskRun, ← rows]
    exact rowWalk_laidOut vertexAt ndebug records io.offset _ laidOut (by omega)
  refine ⟨ran, fun distinct input output => ?_⟩
  obtain ⟨sums, kept⟩ := foldl_fgRowSpmvRunOnRow input records output distinct
  exact ⟨_, by rw [fgRowSpmvTaskRun, ran]; rfl, sums, kept⟩

/-- Two vertices of 24 and 28 bytes from offset 4100, the first not page aligned. -/
def twoVertices : List ExtMemUndirectedVertex := [⟨7, [1, 2], 24⟩, ⟨8, [7, 7, 2], 28⟩]

def twoVerticesAt (pos : Nat) : ExtMemUndirectedVertex :=
  if pos = 4100 then ⟨7, [1, 2], 24⟩ else ⟨8, [7, 7, 2], 28⟩

theorem fg_row_compute_task_run_twoVertices :
    fgRowComputeTaskRun twoVerticesAt 4096 false ⟨4100, 52, 2⟩ = .ok twoVertices ∧
      ∃ result, fgRowSpmvTaskRun twoVerticesAt 4096 false ⟨4100, 52, 2⟩ (fun i => i) 0 =
        .ok result ∧ result 7 = 3 ∧ result 8 = 16 ∧ result 0 = 0 :=
  have ran := fg_row_compute_task_run twoVerticesAt 4096 (by decide) ⟨4100, 52, 2⟩ twoVertices
    rfl ⟨rfl, rfl, trivial⟩ (by decide) false
  have ⟨result, spmv, sums, kept⟩ := ran.2 (by decide) (fun i => i) 0
  ⟨ran.1, result, spmv, (sums ⟨7, [1, 2], 24⟩ (by decide)).trans (by decide),
    (sums ⟨8, [7, 7, 2], 28⟩ (by decide)).trans (by decide), kept 0 (by decide)⟩

theorem rowWalk_succ_of_fits {vertexAt : Nat → ExtMemUndirectedVertex} {pos bufSize : Nat}
    (fits : (vertexAt pos).size ≤ bufSize) (ndebug : Bool) (numRows : Nat) :
    rowWalk vertexAt ndebug (numRows + 1) pos bufSize = (vertexAt pos :: ·) <$>
      rowWalk vertexAt ndebug numRows (pos + (vertexAt pos).size) (bufSize - (vertexAt pos).size) := by
  have checked : assertion ndebug (decide (bufSize ≥ (vertexAt pos).size)) "buf_size >= vsize" =
      .ok () := by simpa using .inr fits
  rw [rowWalk, checked]
  rfl

theorem rowWalk_succ_ok {vertexAt : Nat → ExtMemUndirectedVertex} {numRows pos bufSize : Nat}
    {records : List ExtMemUndirectedVertex}
    (ran : rowWalk vertexAt false (numRows + 1) pos bufSize = .ok records) :
    (vertexAt pos).size ≤ bufSize ∧ ∃ rest, records = vertexAt pos :: rest ∧
      rowWalk vertexAt false numRows (pos + (vertexAt pos).size)
        (bufSize - (vertexAt pos).size) = .ok rest := by
  have fits : (vertexAt pos).size ≤ bufSize := by
    rw [rowWalk] at ran; simpa using (bind_unit_ok.mp ran).1
  rw [rowWalk_succ_of_fits fits] at ran
  cases walked : rowWalk vertexAt false numRows (pos + (vertexAt pos).size)
    (bufSize - (vertexAt pos).size) <;> rw [walked] at ran <;> cases ran
  exact ⟨fits, _, rfl, rfl⟩

theorem rowWalk_sizeless {vertexAt : Nat → ExtMemUndirectedVertex} {pos : Nat}
    (empty : (vertexAt pos).size = 0) (ndebug : Bool) :
    ∀ numRows bufSize,
      rowWalk vertexAt ndebug numRows pos bufSize = .ok (List.replicate numRows (vertexAt pos))
  | 0, _ => rfl
  | numRows + 1, bufSize => by
    rw [rowWalk_succ_of_fits (by omega), empty, Nat.add_zero, Nat.sub_zero,
      rowWalk_sizeless empty ndebug numRows]
    rfl

/-- The guard `buf_size >= vsize` keeps every read inside the buffer only for an I/O of no row,
or of one row at a page-aligned offset whose buffer holds a record header. -/
theorem fg_row_assertion_guards_iff (pageSize headerSize : Nat) (wide : 0 < pageSize)
    (header : 0 < headerSize) (io : MatrixIo) :
    (∀ vertexAt records, fgRowComputeTaskRun vertexAt pageSize false io = .ok records →
      ReadsWithin headerSize (roundPage pageSize io.offset +
        roundupPage pageSize (io.offset - roundPage pageSize io.offset + io.size)) io.offset
        records) ↔
    io.numRows = 0 ∨ io.numRows = 1 ∧ io.offset % pageSize = 0 ∧
      headerSize ≤ roundupPage pageSize (io.offset - roundPage pageSize io.offset + io.size) := by
  obtain ⟨offset, size, numRows⟩ := io
  have split := Nat.div_add_mod' offset pageSize
  have covers := le_roundupPage wide (offset - roundPage pageSize offset + size)
  simp only [fgRowComputeTaskRun]
  generalize roundupPage pageSize (offset - roundPage pageSize offset + size) = bufSize
    at covers ⊢
  rw [roundPage] at covers ⊢
  have one : ∀ size ≤ bufSize, rowWalk (fun _ => ⟨0, [], size⟩) false 1 offset bufSize =
      .ok [⟨0, [], size⟩] := fun _ fits => by rw [rowWalk_succ_of_fits fits]; rfl
  constructor
  · intro guarded
    match numRows with
    | 0 => exact .inl rfl
    | 1 =>
      have whole := guarded _ _ (one bufSize le_rfl)
      have room := guarded _ _ (one 0 (Nat.zero_le _))
      simp only [ReadsWithin] at whole room
      exact .inr ⟨rfl, by omega, by omega⟩
    | numRows + 2 =>
      -- every record reaches to the buffer's end: the first fills the buffer, and the header
      -- of the second lies past it
      let vertexAt : Nat → ExtMemUndirectedVertex := fun pos =>
        ⟨0, [], offset / pageSize * pageSize + bufSize - pos⟩
      have ends : offset + (vertexAt offset).size = offset / pageSize * pageSize + bufSize := by
        dsimp only [vertexAt]; omega
      have second : (vertexAt (offset / pageSize * pageSize + bufSize)).size = 0 :=
        Nat.sub_self _
      have walked : rowWalk vertexAt false (numRows + 2) offset bufSize =
          .ok (vertexAt offset :: List.replicate (numRows + 1)
            (vertexAt (offset / pageSize * pageSize + bufSize))) := by
        rw [rowWalk_succ_of_fits (by dsimp only [vertexAt]; omega), ends, rowWalk_sizeless second]
        rfl
      have reads := guarded _ _ walked
      simp only [ReadsWithin, List.replicate_succ, ends] at reads
      omega
  · rintro (none | ⟨one, aligned, room⟩) vertexAt records ran
    · subst none; cases ran; trivial
    · subst one
      obtain ⟨fits, rest, rfl, walked⟩ := rowWalk_succ_ok ran
      cases walked
      exact ⟨by omega, by omega, trivial⟩

/-- One row at offset 4100: the guard lets a record of 4096 bytes end at 8196, past the buffer. -/
theorem fg_row_assertion_guards_iff_unaligned :
    ¬ ∀ vertexAt records, fgRowComputeTaskRun vertexAt 4096 false ⟨4100, 4092, 1⟩ = .ok records →
      ReadsWithin 8 (roundPage 4096 4100 + roundupPage 4096 (4100 - roundPage 4096 4100 + 4092))
        4100 records := fun guarded =>
  absurd ((fg_row_assertion_guards_iff 4096 8 (by decide) (by decide) ⟨4100, 4092, 1⟩).mp guarded)
    (by decide)

end Graphyti.Matrix
