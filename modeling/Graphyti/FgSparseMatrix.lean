import Graphyti.KCoreEngine
import Mathlib.Data.List.Range

/-! A sparse matrix in the FlashGraph format is indexed by row blocks of
`matrix_conf.get_row_block_size()` vertices: `sparse_matrix::create(FG_graph)` reads the
vertex index at the first vertex of each row block and at the last vertex, four ways (an
undirected or directed graph, with a compressed or an uncompressed index). The index's file
layout and its decoding are not in the source, so each accessor is given per vertex. -/
namespace Graphyti.Matrix

/-- The one adjacency list of an undirected graph, or the out- or in-list of a directed one. -/
inductive EdgeList
  | out
  | inEdges
  deriving DecidableEq, Repr

/-- `ext_mem_vertex_info`: where an adjacency list lies in the graph file. -/
structure ExtMemVertexInfo where
  off : Nat
  size : Nat
  deriving DecidableEq, Repr

/-- A FlashGraph vertex index as `create` reads it: `info l id` is what `get_vertex_info(id)`
(or `_out`, `_in`) returns, or for a compressed index `get_vertex(id)` with its size. -/
structure VertexIndex where
  /-- `get_num_vertices()`, a `vsize_t` -/
  numVertices : Nat
  directed : Bool
  compressed : Bool
  info : EdgeList → Nat → ExtMemVertexInfo
  /-- `get_graph_size()` -/
  graphSize : Nat
  numVertices_lt : numVertices < 2 ^ 32
  /-- The graph's data ends where the last vertex's adjacency list ends. -/
  graphSize_eq : 0 < numVertices →
    graphSize = (info .out (numVertices - 1)).off + (info .out (numVertices - 1)).size

def VertexIndex.vertexInfo (index : VertexIndex) (l : EdgeList) (id : Nat) :
    Except Nat ExtMemVertexInfo :=
  if id < index.numVertices then .ok (index.info l id) else .error id

/-- The values of `i` in `for (size_t i = start; i < num_vertices; i += row_block_size)` within
`fuel` iterations; `i` stays below `num_vertices + row_block_size`, so it never wraps. -/
def rowBlockStarts (numVertices rowBlockSize : Nat) : Nat → Nat → Option (List Nat)
  | 0, _ => none
  | fuel + 1, i =>
    if i < numVertices then
      (i :: ·) <$> rowBlockStarts numVertices rowBlockSize fuel (i + rowBlockSize)
    else some []

def blockOffs (index : VertexIndex) (l : EdgeList) (starts : List Nat) : Except Nat (List Nat) :=
  starts.mapM fun i => (·.off) <$> index.vertexInfo l i

/-- `fg_sparse_sym_matrix::create`: `blocks`. -/
def fgSparseSymMatrixCreate (rowBlockSize : Nat) (index : VertexIndex) :
    Option (Except Nat (List Nat)) :=
  (rowBlockStarts index.numVertices rowBlockSize (index.numVertices + 1) 0).map fun starts => do
    let blocks ← blockOffs index .out starts
    if index.compressed then
      let last ← index.vertexInfo .out (KCore.vsizeDec index.numVertices)
      pure (blocks ++ [last.off + last.size])
    else pure (blocks ++ [index.graphSize])

/-- `fg_sparse_asym_matrix::create`: `out_blocks` and `in_blocks`; a bad id fails both tables
alike, so the two loops are taken one after the other. -/
def fgSparseAsymMatrixCreate (rowBlockSize : Nat) (index : VertexIndex) :
    Option (Except Nat (List Nat × List Nat)) :=
  (rowBlockStarts index.numVertices rowBlockSize (index.numVertices + 1) 0).map fun starts => do
    let outBlocks ← blockOffs index .out starts
    let inBlocks ← blockOffs index .inEdges starts
    let lastOut ← index.vertexInfo .out (KCore.vsizeDec index.numVertices)
    let lastIn ← index.vertexInfo .inEdges (KCore.vsizeDec index.numVertices)
    pure (outBlocks ++ [lastOut.off + lastOut.size], inBlocks ++ [lastIn.off + lastIn.size])

inductive RowBlockTables
  | sym (blocks : List Nat)
  | asym (outBlocks inBlocks : List Nat)
  deriving DecidableEq, Repr

/-- `sparse_matrix::create(FG_graph)`. -/
def sparseMatrixCreate (rowBlockSize : Nat) (index : VertexIndex) :
    Option (Except Nat RowBlockTables) :=
  if index.directed then
    (fgSparseAsymMatrixCreate rowBlockSize index).map (·.map fun tables => .asym tables.1 tables.2)
  else (fgSparseSymMatrixCreate rowBlockSize index).map (·.map .sym)

/-- Modelled from the spec: per row block the offset of its first list, then where the last ends. -/
def rowBlockTable (index : VertexIndex) (b : Nat) (l : EdgeList) : List Nat :=
  (List.range ((index.numVertices + b - 1) / b)).map (fun t => (index.info l (t * b)).off) ++
    [(index.info l (index.numVertices - 1)).off + (index.info l (index.numVertices - 1)).size]

section RowBlocks

variable {b : Nat} (wide : 0 < b)
include wide

theorem numRowBlocks_succ {n i : Nat} (below : i < n) :
    (n - i + b - 1) / b = (n - (i + b) + b - 1) / b + 1 := by
  rw [show n - i + b - 1 = n - i - 1 + b by omega, Nat.add_div_right _ wide]
  congr 1
  by_cases room : i + b ≤ n
  · congr 1; omega
  · rw [Nat.div_eq_of_lt (by omega), Nat.div_eq_of_lt (by omega)]

theorem lt_of_lt_numRowBlocks {n t : Nat} (below : t < (n + b - 1) / b) : t * b < n := by
  have := (Nat.le_div_iff_mul_le wide).mp below
  rw [Nat.succ_mul] at this
  omega

theorem rowBlockStarts_eq (n : Nat) :
    ∀ fuel i, n - i < fuel →
      rowBlockStarts n b fuel i = some ((List.range ((n - i + b - 1) / b)).map (i + · * b))
  | 0, _, enough => absurd enough (Nat.not_lt_zero _)
  | fuel + 1, i, enough => by
    unfold rowBlockStarts
    split
    next below =>
      rw [rowBlockStarts_eq n fuel (i + b) (by omega), numRowBlocks_succ wide below,
        List.range_succ_eq_map]
      simp only [Option.map_eq_map, Option.map_some', List.map_cons, List.map_map, Nat.zero_mul,
        Nat.add_zero]
      congr 3
      funext t
      simp only [Function.comp, Nat.succ_eq_add_one, Nat.add_one_mul]
      omega
    · rw [Nat.div_eq_of_lt (by omega)]; rfl

end RowBlocks

theorem blockOffs_ok (index : VertexIndex) (l : EdgeList) :
    ∀ starts : List Nat, (∀ i ∈ starts, i < index.numVertices) →
      blockOffs index l starts = .ok (starts.map fun i => (index.info l i).off)
  | [], _ => rfl
  | i :: starts, inRange => by
    have rest := blockOffs_ok index l starts fun j member => inRange j (.tail _ member)
    simp only [blockOffs] at rest ⊢
    rw [List.mapM_cons, rest, VertexIndex.vertexInfo, if_pos (inRange i (.head _))]
    rfl

theorem blockOffs_rowBlockStarts (index : VertexIndex) {b : Nat} (wide : 0 < b) :
    ∃ starts, rowBlockStarts index.numVertices b (index.numVertices + 1) 0 = some starts ∧
      ∀ l, blockOffs index l starts = .ok ((List.range ((index.numVertices + b - 1) / b)).map
        fun t => (index.info l (t * b)).off) := by
  refine ⟨_, rowBlockStarts_eq wide _ _ 0 (by omega), fun l => ?_⟩
  rw [blockOffs_ok, List.map_map]
  · simp only [Nat.sub_zero, Nat.zero_add]; rfl
  · simp only [Nat.sub_zero, List.mem_map, List.mem_range, Nat.zero_add]
    rintro _ ⟨t, below, rfl⟩
    exact lt_of_lt_numRowBlocks wide below

theorem rowBlockTable_spec (index : VertexIndex) {b : Nat} (wide : 0 < b) (l : EdgeList)
    (pos : 0 < index.numVertices) :
    (rowBlockTable index b l).length = (index.numVertices + b - 1) / b + 1 ∧
    (∀ t < (index.numVertices + b - 1) / b,
      (rowBlockTable index b l)[t]? = some (index.info l (t * b)).off) ∧
    ((∀ i j, i ≤ j → j < index.numVertices → (index.info l i).off ≤ (index.info l j).off) →
      (rowBlockTable index b l).Pairwise (· ≤ ·)) := by
  refine ⟨by simp [rowBlockTable], fun t below => ?_, fun sorted => ?_⟩
  · rw [rowBlockTable, List.getElem?_append_left (by simpa using below)]
    simp [below]
  · have early : ∀ t < (index.numVertices + b - 1) / b,
        (index.info l (t * b)).off ≤ (index.info l (index.numVertices - 1)).off :=
      fun t below => sorted _ _ (by have := lt_of_lt_numRowBlocks wide below; omega) (by omega)
    simp only [rowBlockTable, List.pairwise_append, List.pairwise_map, List.mem_map,
      List.mem_range, List.mem_singleton, List.pairwise_singleton, true_and]
    refine ⟨(List.pairwise_lt_range _).imp_of_mem fun {s t} _ tIn lt => sorted _ _
        (Nat.mul_le_mul_right b (Nat.le_of_lt lt))
        (lt_of_lt_numRowBlocks wide (List.mem_range.mp tIn)), ?_⟩
    rintro _ ⟨t, below, rfl⟩ _ rfl
    exact (early t below).trans (Nat.le_add_right _ _)

/-- With vertices, each table has one entry per row block and one more, non-decreasing when the
index is; with none, `num_vertices - 1` wraps and only one of the four paths reads no bad id. -/
theorem sparse_matrix_create_row_blocks (index : VertexIndex) (rowBlockSize : Nat)
    (wide : 0 < rowBlockSize) :
    (0 < index.numVertices →
      sparseMatrixCreate rowBlockSize index = some (.ok (if index.directed then
        .asym (rowBlockTable index rowBlockSize .out) (rowBlockTable index rowBlockSize .inEdges)
        else .sym (rowBlockTable index rowBlockSize .out))) ∧
      ∀ l, (rowBlockTable index rowBlockSize l).length =
          (index.numVertices + rowBlockSize - 1) / rowBlockSize + 1 ∧
        (∀ t < (index.numVertices + rowBlockSize - 1) / rowBlockSize,
          (rowBlockTable index rowBlockSize l)[t]? = some (index.info l (t * rowBlockSize)).off) ∧
        ((∀ i j, i ≤ j → j < index.numVertices → (index.info l i).off ≤ (index.info l j).off) →
          (rowBlockTable index rowBlockSize l).Pairwise (· ≤ ·))) ∧
    (index.numVertices = 0 → sparseMatrixCreate rowBlockSize index =
      some (if index.directed || index.compressed then .error (2 ^ 32 - 1)
        else .ok (.sym [index.graphSize]))) := by
  refine ⟨fun pos => ⟨?_, fun l => rowBlockTable_spec index wide l pos⟩, fun empty => ?_⟩
  · obtain ⟨starts, loop, offs⟩ := blockOffs_rowBlockStarts index wide
    have last : ∀ l, index.vertexInfo l (KCore.vsizeDec index.numVertices) =
        .ok (index.info l (index.numVertices - 1)) := fun l => by
      rw [KCore.vsizeDec_of_pos pos, VertexIndex.vertexInfo, if_pos (by omega)]
    unfold sparseMatrixCreate fgSparseAsymMatrixCreate fgSparseSymMatrixCreate
    rw [loop]
    cases index.directed <;> cases index.compressed <;>
      simp [offs, last, rowBlockTable, index.graphSize_eq pos] <;> rfl
  · have wrap : KCore.vsizeDec index.numVertices = 2 ^ 32 - 1 := by rw [empty]; rfl
    have outside : ∀ l, index.vertexInfo l (2 ^ 32 - 1) = .error (2 ^ 32 - 1) := fun l => by
      rw [VertexIndex.vertexInfo, if_neg (by omega)]
    have loop : rowBlockStarts index.numVertices rowBlockSize (index.numVertices + 1) 0 =
        some [] := by rw [empty]; rfl
    unfold sparseMatrixCreate fgSparseAsymMatrixCreate fgSparseSymMatrixCreate
    rw [loop, wrap]
    cases index.directed <;> cases index.compressed <;> simp only [blockOffs, outside] <;> rfl

def fiveVertices : VertexIndex where
  numVertices := 5
  directed := false
  compressed := true
  info := fun _ id => ⟨10 * id, 10⟩
  graphSize := 50
  numVertices_lt := by decide
  graphSize_eq := fun _ => rfl

theorem sparse_matrix_create_row_blocks_fiveVertices :
    sparseMatrixCreate 2 fiveVertices = some (.ok (.sym [0, 20, 40, 50])) := by
  have built := (sparse_matrix_create_row_blocks fiveVertices 2 (by decide)).1 (by decide)
  rw [built.1]
  rfl

end Graphyti.Matrix
