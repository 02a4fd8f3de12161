import Graphyti.SparseFormat
import Mathlib.Data.List.Perm.Basic
import Mathlib.Algebra.Order.Ring.Nat

/-! `block_compute_task::run` walks the block rows of a strip in super blocks of
`num_blocks x num_blocks` slots, column band after column band, and hands each super block
to the exec order the constructor kept: `seq_exec_order` or `hilbert_exec_order`.
`hilbert_curve.h` is not in the source, so the curve position `hilbert_xy2d` is a parameter;
every result here holds for any such function. -/
namespace Graphyti.Matrix

/-- The slots of a super block, row-major: a block, or `NULL` where its row has none. -/
abbrev SuperBlock := List (Option SparseBlock2d)

/-- `hilbert_exec_order::coordinate_order`. -/
structure CoordinateOrder where
  coo : Nat × Nat
  order : Nat
  deriving DecidableEq, Repr

inductive BlockExecOrder
  | seq
  | hilbert (n : Nat) (hilbertOrders : List CoordinateOrder)
  deriving Repr

/-- `hilbert_exec_order`'s constructor: every `(i, j)` with `i, j < n`, sorted by curve position. -/
def hilbertOrders (hilbertXy2d : Nat → Nat → Nat → Nat) (n : Nat) : List CoordinateOrder :=
  ((List.range n).flatMap fun i => (List.range n).map fun j => ⟨(i, j), hilbertXy2d n i j⟩).mergeSort
    fun a b => a.order ≤ b.order

def hilbertExecOrder (hilbertXy2d : Nat → Nat → Nat → Nat) (n : Nat) : BlockExecOrder :=
  .hilbert n (hilbertOrders hilbertXy2d n)

namespace BlockExecOrder

def isValidSize : BlockExecOrder → Nat → Nat → Bool
  | seq, _, _ => true
  | hilbert n _, height, width => n == height && n == width

/-- `exec`: whether it accepted the super block, and the blocks passed to `run_on_block`. -/
def exec : BlockExecOrder → SuperBlock → Bool × List SparseBlock2d
  | seq, blocks => (true, blocks.filterMap id)
  | hilbert n hilbertOrders, blocks =>
    if blocks.length ≠ hilbertOrders.length then (false, [])
    else (true, hilbertOrders.filterMap fun o => blocks.getD (o.coo.1 * n + o.coo.2) none)

end BlockExecOrder

/-- The order `block_compute_task`'s constructor keeps for `num_block_rows` block rows. -/
def keptOrder (order : BlockExecOrder) (numBlockRows : Nat) : BlockExecOrder :=
  if order.isValidSize numBlockRows numBlockRows then order else .seq

theorem range_flatMap_mul (k m : Nat) :
    ((List.range k).flatMap fun i => (List.range m).map fun j => i * m + j) = List.range (k * m) := by
  induction k with
  | zero => simp
  | succ k ih =>
    rw [List.range_succ, List.flatMap_append, ih, Nat.succ_mul, List.range_add]
    simp

theorem hilbertOrders_slots (hilbertXy2d : Nat → Nat → Nat → Nat) (n : Nat) :
    ((hilbertOrders hilbertXy2d n).map fun o => o.coo.1 * n + o.coo.2).Perm (List.range (n * n)) := by
  have sorted := (List.mergeSort_perm
    ((List.range n).flatMap fun i => (List.range n).map fun j =>
      (⟨(i, j), hilbertXy2d n i j⟩ : CoordinateOrder)) fun a b => a.order ≤ b.order).map
    fun o => o.coo.1 * n + o.coo.2
  rw [← range_flatMap_mul n n]
  simpa [List.map_flatMap, Function.comp_def] using sorted

theorem length_hilbertOrders (hilbertXy2d : Nat → Nat → Nat → Nat) (n : Nat) :
    (hilbertOrders hilbertXy2d n).length = n * n := by
  simpa using (hilbertOrders_slots hilbertXy2d n).length_eq

theorem filterMap_range_getD (blocks : SuperBlock) :
    ((List.range blocks.length).filterMap fun i => blocks.getD i none) = blocks.filterMap id := by
  induction blocks with
  | nil => rfl
  | cons b blocks ih =>
    rw [List.length_cons, List.range_succ_eq_map]
    simp only [List.filterMap_cons, List.filterMap_map, Function.comp_def, List.getD_cons_zero,
      List.getD_cons_succ, ih]
    cases b <;> rfl

theorem filterMap_getD_perm (blocks : SuperBlock) (slots : List Nat)
    (every : slots.Perm (List.range blocks.length)) :
    (slots.filterMap fun i => blocks.getD i none).Perm (blocks.filterMap id) :=
  filterMap_range_getD blocks ▸ every.filterMap _

theorem exec_hilbert (hilbertXy2d : Nat → Nat → Nat → Nat) (n : Nat) (blocks : SuperBlock)
    (size : blocks.length = n * n) :
    ((hilbertExecOrder hilbertXy2d n).exec blocks).1 = true ∧
      ((hilbertExecOrder hilbertXy2d n).exec blocks).2.Perm (blocks.filterMap id) := by
  have sameLength : blocks.length = (hilbertOrders hilbertXy2d n).length := by
    rw [size, length_hilbertOrders]
  simp only [hilbertExecOrder, BlockExecOrder.exec, sameLength, ne_eq, not_true_eq_false, if_false,
    true_and]
  have := filterMap_getD_perm blocks _ ((hilbertOrders_slots hilbertXy2d n).trans (by rw [size]))
  simpa [List.filterMap_map, Function.comp_def] using this

/-- The inner `j` loop of one block row: a slot takes the row's next block when its column is
`sb_col_idx + j` in `size_t` arithmetic, and is `NULL` otherwise. -/
def fillRow (ndebug : Bool) (sbColIdx : Nat) :
    Nat → Nat → List SparseBlock2d → Except String (SuperBlock × List SparseBlock2d)
  | _, 0, row => .ok ([], row)
  | j, remaining + 1, [] =>
    (fun r => (none :: r.1, r.2)) <$> fillRow ndebug sbColIdx (j + 1) remaining []
  | j, remaining + 1, b :: row => do
    assertion ndebug (decide (b.blockColIdx ≥ (sbColIdx + j) % 2 ^ 64))
      "b.get_block_col_idx() >= sb_col_idx + j"
    if b.blockColIdx = (sbColIdx + j) % 2 ^ 64 then
      (fun r => (some b :: r.1, r.2)) <$> fillRow ndebug sbColIdx (j + 1) remaining row
    else
      (fun r => (none :: r.1, r.2)) <$> fillRow ndebug sbColIdx (j + 1) remaining (b :: row)

/-- The `i` loop: the next super block, the iterators after it, and `has_blocks`. -/
def fillSuperBlock (ndebug : Bool) (sbColIdx numBlocks : Nat) :
    List (List SparseBlock2d) → Except String (SuperBlock × List (List SparseBlock2d) × Bool)
  | [] => .ok ([], [], false)
  | row :: its => do
    let (slots, rest) ← fillRow ndebug sbColIdx 0 numBlocks row
    let (blocks, rests, hasBlocks) ← fillSuperBlock ndebug sbColIdx numBlocks its
    return (slots ++ blocks, rest :: rests, !rest.isEmpty || hasBlocks)

/-- The do-while of `block_compute_task::run` from `sb_col_idx`, at most `fuel` iterations: the
super blocks handed to `exec`; `none` when the fuel runs out. -/
def superBlockLoop (ndebug : Bool) (numBlocks : Nat) :
    Nat → Nat → List (List SparseBlock2d) → Option (Except String (List SuperBlock))
  | 0, _, _ => none
  | fuel + 1, sbColIdx, its =>
    match fillSuperBlock ndebug sbColIdx numBlocks its with
    | .error e => some (.error e)
    | .ok (blocks, its, hasBlocks) =>
      if hasBlocks then
        (superBlockLoop ndebug numBlocks fuel ((sbColIdx + numBlocks) % 2 ^ 64) its).map
          (·.map (blocks :: ·))
      else some (.ok [blocks])

/-- One iteration building `its`, with `block_rows[i]` read as a checked access. -/
def blockRowIterator (blockRows : List Nat) (i : Nat) : Option (Nat × Nat) :=
  return (← blockRows[i]?, ← blockRows[i + 1]?)

/-- The loop that builds `its`: `none` once a read falls outside `block_rows`. -/
def blockRowIterators (blockRows : List Nat) : Option (List (Nat × Nat)) :=
  (List.range blockRows.length).mapM (blockRowIterator blockRows)

/-- `block_compute_task::run` on a strip of `num_block_rows` block rows, one iterator each. -/
def blockComputeTaskRun (ndebug : Bool) (fuel : Nat) (blockRows : List (List SparseBlock2d)) :
    Option (Except String (List SuperBlock)) :=
  superBlockLoop ndebug blockRows.length fuel 0 blockRows

def runOnBlockCalls (order : BlockExecOrder) (superBlocks : List SuperBlock) : List SparseBlock2d :=
  superBlocks.flatMap fun blocks => (order.exec blocks).2

/-- The header's `block_compute_task::run`: every block of the strip in file order. -/
def inFileOrderCalls (blockRows : List (List SparseBlock2d)) : List SparseBlock2d :=
  blockRows.flatten

/-! ### What a completed pass does

These hold of every pass that returns, whatever the strip: a slot holds the block at the
front of its row or `NULL`, and a row whose front block is not reached moves one band closer
to it, counted modulo `2^64`. -/

/-- How many slots after slot value `slot` (modulo `2^64`) a block's column comes up. -/
def slotDistance (slot : Nat) (b : SparseBlock2d) : Nat :=
  (b.blockColIdx + 2 ^ 64 - slot % 2 ^ 64) % 2 ^ 64

theorem slotDistance_mod (slot : Nat) (b : SparseBlock2d) :
    slotDistance (slot % 2 ^ 64) b = slotDistance slot b := by
  simp [slotDistance]

theorem slotDistance_succ {slot : Nat} {b : SparseBlock2d} (fits : b.blockColIdx < 2 ^ 64)
    (missed : b.blockColIdx ≠ slot % 2 ^ 64) : slotDistance (slot + 1) b + 1 = slotDistance slot b := by
  unfold slotDistance; omega

theorem map_cons_eq_ok {x : Except String (SuperBlock × List SparseBlock2d)}
    {slot : Option SparseBlock2d} {slots : SuperBlock} {rest : List SparseBlock2d} :
    (fun r => (slot :: r.1, r.2)) <$> x = .ok (slots, rest) ↔
      ∃ slots', x = .ok (slots', rest) ∧ slots = slot :: slots' := by
  cases x with
  | error => simp [Functor.map, Except.map]
  | ok r =>
    obtain ⟨slots', rest'⟩ := r
    simp only [Functor.map, Except.map, Except.ok.injEq, Prod.mk.injEq]
    constructor
    · rintro ⟨rfl, rfl⟩; exact ⟨slots', ⟨rfl, rfl⟩, rfl⟩
    · rintro ⟨_, ⟨rfl, rfl⟩, rfl⟩; exact ⟨rfl, rfl⟩

theorem fillRow_cons {ndebug : Bool} {sbColIdx j remaining : Nat} {b : SparseBlock2d}
    {row : List SparseBlock2d} (passes : ndebug = true ∨ (sbColIdx + j) % 2 ^ 64 ≤ b.blockColIdx) :
    fillRow ndebug sbColIdx j (remaining + 1) (b :: row) =
      if b.blockColIdx = (sbColIdx + j) % 2 ^ 64 then
        (fun r => (some b :: r.1, r.2)) <$> fillRow ndebug sbColIdx (j + 1) remaining row
      else (fun r => (none :: r.1, r.2)) <$> fillRow ndebug sbColIdx (j + 1) remaining (b :: row) := by
  rw [fillRow, (assertion_ok _ _ _).mpr (passes.imp id decide_eq_true)]
  rfl

/-- A completed row pass fills `remaining` slots from the front of the row; if it takes no block,
the front block lies `remaining` slots further on. -/
theorem fillRow_spec {ndebug : Bool} {sbColIdx : Nat} : ∀ {remaining j : Nat}
    {row rest : List SparseBlock2d} {slots : SuperBlock},
    fillRow ndebug sbColIdx j remaining row = .ok (slots, rest) →
    slots.length = remaining ∧ row = slots.filterMap id ++ rest ∧
    (slots.filterMap id = [] → ∀ b ∈ row.head?, b.blockColIdx < 2 ^ 64 →
      remaining ≤ slotDistance (sbColIdx + j) b ∧
      slotDistance (sbColIdx + j + remaining) b = slotDistance (sbColIdx + j) b - remaining) := by
  intro remaining
  induction remaining with
  | zero =>
    intro j row rest slots filled
    cases filled
    exact ⟨rfl, rfl, fun _ _ _ _ => ⟨Nat.zero_le _, rfl⟩⟩
  | succ remaining ih =>
    intro j row rest slots filled
    have shift : sbColIdx + j + (remaining + 1) = sbColIdx + (j + 1) + remaining := by omega
    cases row with
    | nil =>
      obtain ⟨slots, run, rfl⟩ := map_cons_eq_ok.mp filled
      obtain ⟨length, split, -⟩ := ih run
      exact ⟨by simp [length], split, by simp⟩
    | cons b row =>
      obtain ⟨-, taking⟩ := bind_unit_ok.mp filled
      split at taking
      · obtain ⟨slots, run, rfl⟩ := map_cons_eq_ok.mp taking
        obtain ⟨length, split, -⟩ := ih run
        exact ⟨by simp [length], by simp [split], by simp⟩
      · rename_i missed
        obtain ⟨slots, run, rfl⟩ := map_cons_eq_ok.mp taking
        obtain ⟨length, split, ahead⟩ := ih run
        refine ⟨by simp [length], by simpa using split, fun none c head fits => ?_⟩
        obtain rfl : b = c := by simpa using head
        have closer : slotDistance (sbColIdx + (j + 1)) b + 1 = slotDistance (sbColIdx + j) b :=
          slotDistance_succ fits missed
        have := ahead (by simpa using none) b head fits
        rw [shift]
        omega

theorem fillRow_ndebug (sbColIdx : Nat) :
    ∀ remaining j row, ∃ r, fillRow true sbColIdx j remaining row = .ok r := by
  intro remaining
  induction remaining with
  | zero => exact fun j row => ⟨_, rfl⟩
  | succ remaining ih =>
    intro j row
    cases row with
    | nil => obtain ⟨r, run⟩ := ih (j + 1) []; exact ⟨_, by simp [fillRow, run]; rfl⟩
    | cons b row =>
      rw [fillRow_cons (.inl rfl)]
      split
      · obtain ⟨r, run⟩ := ih (j + 1) row; exact ⟨_, by rw [run]; rfl⟩
      · obtain ⟨r, run⟩ := ih (j + 1) (b :: row); exact ⟨_, by rw [run]; rfl⟩

/-- A block row from column `sbColIdx` on: strictly increasing block columns, none before. -/
def RowAhead (sbColIdx : Nat) (row : List SparseBlock2d) : Prop :=
  row.Pairwise (fun a b => a.blockColIdx < b.blockColIdx) ∧ ∀ b ∈ row, sbColIdx ≤ b.blockColIdx

theorem RowAhead.nil (sbColIdx : Nat) : RowAhead sbColIdx [] := ⟨.nil, by simp⟩

theorem RowAhead.mono {sbColIdx sbColIdx' : Nat} {row : List SparseBlock2d}
    (ahead : RowAhead sbColIdx' row) (le : sbColIdx ≤ sbColIdx') : RowAhead sbColIdx row :=
  ⟨ahead.1, fun b member => le.trans (ahead.2 b member)⟩

theorem RowAhead.tail {b : SparseBlock2d} {row : List SparseBlock2d} {sbColIdx : Nat}
    (ahead : RowAhead sbColIdx (b :: row)) : RowAhead (b.blockColIdx + 1) row :=
  ⟨(List.pairwise_cons.mp ahead.1).2, fun c member => (List.pairwise_cons.mp ahead.1).1 c member⟩

theorem RowAhead.cons {b : SparseBlock2d} {row : List SparseBlock2d} {sbColIdx : Nat}
    (ahead : RowAhead (b.blockColIdx + 1) row) (le : sbColIdx ≤ b.blockColIdx) :
    RowAhead sbColIdx (b :: row) :=
  ⟨List.pairwise_cons.mpr ⟨ahead.2, ahead.1⟩,
    List.forall_mem_cons.mpr ⟨le, fun c member => by have := ahead.2 c member; omega⟩⟩

theorem fillRow_ahead (ndebug : Bool) (sbColIdx : Nat) : ∀ remaining j row,
    RowAhead (sbColIdx + j) row → (∀ b ∈ row, b.blockColIdx < 2 ^ 64) → ∃ slots rest,
      fillRow ndebug sbColIdx j remaining row = .ok (slots, rest) ∧
      RowAhead (sbColIdx + j + remaining) rest := by
  intro remaining
  induction remaining with
  | zero => exact fun j row ahead _ => ⟨[], row, rfl, ahead⟩
  | succ remaining ih =>
    intro j row ahead fits
    have shift : sbColIdx + j + (remaining + 1) = sbColIdx + (j + 1) + remaining := by omega
    cases row with
    | nil =>
      obtain ⟨slots, rest, run, ahead'⟩ := ih (j + 1) [] (RowAhead.nil _) fits
      exact ⟨none :: slots, rest, by simp [fillRow, run], shift ▸ ahead'⟩
    | cons b row =>
      have passes := ahead.2 b (List.mem_cons_self b row)
      have noWrap : (sbColIdx + j) % 2 ^ 64 = sbColIdx + j :=
        Nat.mod_eq_of_lt (by have := fits b (List.mem_cons_self b row); omega)
      rw [fillRow_cons (.inr (by rw [noWrap]; exact passes)), noWrap]
      by_cases taken : b.blockColIdx = sbColIdx + j
      · obtain ⟨slots, rest, run, ahead'⟩ := ih (j + 1) row (ahead.tail.mono (by omega))
          fun c member => fits c (List.mem_cons_of_mem b member)
        exact ⟨some b :: slots, rest, by rw [if_pos taken, run]; rfl, shift ▸ ahead'⟩
      · obtain ⟨slots, rest, run, ahead'⟩ := ih (j + 1) (b :: row) (ahead.tail.cons (by omega)) fits
        exact ⟨none :: slots, rest, by rw [if_neg taken, run]; rfl, shift ▸ ahead'⟩

/-- The passes left for one row: `2^64` per block, plus the distance to its front block. -/
def rowPotential (sbColIdx : Nat) : List SparseBlock2d → Nat
  | [] => 0
  | b :: row => (row.length + 1) * 2 ^ 64 + slotDistance sbColIdx b

def loopPotential (sbColIdx : Nat) (its : List (List SparseBlock2d)) : Nat :=
  (its.map (rowPotential sbColIdx)).sum

theorem rowPotential_bounds (sbColIdx : Nat) (row : List SparseBlock2d) :
    row.length * 2 ^ 64 ≤ rowPotential sbColIdx row ∧
      rowPotential sbColIdx row < (row.length + 1) * 2 ^ 64 := by
  cases row with
  | nil => simp [rowPotential]
  | cons b row =>
    have : slotDistance sbColIdx b < 2 ^ 64 := Nat.mod_lt _ (Nat.two_pow_pos 64)
    simp only [rowPotential, List.length_cons, Nat.succ_mul]
    omega

theorem loopPotential_le (sbColIdx : Nat) (its : List (List SparseBlock2d)) :
    loopPotential sbColIdx its ≤ (its.flatten.length + its.length) * 2 ^ 64 := by
  induction its with
  | nil => simp [loopPotential]
  | cons row its ih =>
    have := (rowPotential_bounds sbColIdx row).2
    simp only [loopPotential, List.map_cons, List.sum_cons, List.flatten_cons, List.length_append,
      List.length_cons] at ih ⊢
    omega

theorem loopPotential_mod (sbColIdx : Nat) (its : List (List SparseBlock2d)) :
    loopPotential (sbColIdx % 2 ^ 64) its = loopPotential sbColIdx its := by
  have : rowPotential (sbColIdx % 2 ^ 64) = rowPotential sbColIdx := by
    funext row; cases row <;> simp only [rowPotential, slotDistance_mod]
  unfold loopPotential
  rw [this]

theorem loopPotential_of_empty {sbColIdx : Nat} {its : List (List SparseBlock2d)}
    (empty : its.flatten = []) : loopPotential sbColIdx its = 0 := by
  induction its with
  | nil => rfl
  | cons row its ih =>
    obtain ⟨rfl, rest⟩ := List.append_eq_nil.mp empty
    simpa [loopPotential, rowPotential] using ih rest

theorem rowPotential_pass {ndebug : Bool} {sbColIdx numBlocks : Nat} {row rest : List SparseBlock2d}
    {slots : SuperBlock} (filled : fillRow ndebug sbColIdx 0 numBlocks row = .ok (slots, rest))
    (wide : 0 < numBlocks) (fits : ∀ b ∈ row, b.blockColIdx < 2 ^ 64) :
    rowPotential (sbColIdx + numBlocks) rest < rowPotential sbColIdx row ∨ rest = [] := by
  obtain ⟨-, split, closer⟩ := fillRow_spec filled
  by_cases none : slots.filterMap id = []
  · obtain rfl : rest = row := by simpa [none] using split.symm
    cases rest with
    | nil => exact .inr rfl
    | cons b row =>
      have := closer none b rfl (fits b (List.mem_cons_self b row))
      simp only [Nat.add_zero] at this
      simp only [rowPotential]
      omega
  · have shorter : rest.length < row.length := by
      rw [split, List.length_append]
      have := List.length_pos.mpr none
      omega
    have := rowPotential_bounds (sbColIdx + numBlocks) rest
    have := rowPotential_bounds sbColIdx row
    rw [Nat.succ_mul] at this
    have : (rest.length + 1) * 2 ^ 64 ≤ row.length * 2 ^ 64 := Nat.mul_le_mul_right _ shorter
    exact .inl (by omega)

/-! ### Whole passes and the do-while -/

/-- What a completed pass of the `i` loop does to the rows, `has_blocks` and the potential. -/
structure Pass (sbColIdx numBlocks : Nat) (its : List (List SparseBlock2d)) (blocks : SuperBlock)
    (rests : List (List SparseBlock2d)) (hasBlocks : Bool) : Prop where
  size : blocks.length = its.length * numBlocks
  rows : rests.length = its.length
  split : its.flatten.Perm (blocks.filterMap id ++ rests.flatten)
  has_blocks : hasBlocks = !rests.flatten.isEmpty
  progress : 0 < numBlocks → (∀ b ∈ its.flatten, b.blockColIdx < 2 ^ 64) →
    loopPotential (sbColIdx + numBlocks) rests < loopPotential sbColIdx its ∨ rests.flatten = []

theorem fillSuperBlock_cons {ndebug : Bool} {sbColIdx numBlocks : Nat} {row rest : List SparseBlock2d}
    {its rests : List (List SparseBlock2d)} {slots blocks : SuperBlock} {hasBlocks : Bool}
    (filled : fillRow ndebug sbColIdx 0 numBlocks row = .ok (slots, rest))
    (filledRest : fillSuperBlock ndebug sbColIdx numBlocks its = .ok (blocks, rests, hasBlocks)) :
    fillSuperBlock ndebug sbColIdx numBlocks (row :: its) =
      .ok (slots ++ blocks, rest :: rests, !rest.isEmpty || hasBlocks) := by
  rw [fillSuperBlock, filled, filledRest]; rfl

theorem fillSuperBlock_cons_eq_ok {ndebug : Bool} {sbColIdx numBlocks : Nat}
    {row : List SparseBlock2d} {its rests : List (List SparseBlock2d)} {blocks : SuperBlock}
    {hasBlocks : Bool}
    (filled : fillSuperBlock ndebug sbColIdx numBlocks (row :: its) = .ok (blocks, rests, hasBlocks)) :
    ∃ slots rest blocks' rests' hasBlocks',
      fillRow ndebug sbColIdx 0 numBlocks row = .ok (slots, rest) ∧
      fillSuperBlock ndebug sbColIdx numBlocks its = .ok (blocks', rests', hasBlocks') ∧
      blocks = slots ++ blocks' ∧ rests = rest :: rests' ∧ hasBlocks = (!rest.isEmpty || hasBlocks') := by
  rcases filledRow : fillRow ndebug sbColIdx 0 numBlocks row with _ | ⟨slots, rest⟩
  · rw [fillSuperBlock, filledRow] at filled; cases filled
  rcases filledRest : fillSuperBlock ndebug sbColIdx numBlocks its with _ | ⟨blocks', rests', hasBlocks'⟩
  · rw [fillSuperBlock, filledRow, filledRest] at filled; cases filled
  rw [fillSuperBlock_cons filledRow filledRest] at filled
  cases filled
  exact ⟨slots, rest, blocks', rests', hasBlocks', rfl, rfl, rfl, rfl, rfl⟩

theorem loopPotential_cons (sbColIdx : Nat) (row : List SparseBlock2d)
    (its : List (List SparseBlock2d)) :
    loopPotential sbColIdx (row :: its) = rowPotential sbColIdx row + loopPotential sbColIdx its := by
  simp [loopPotential]

theorem fillSuperBlock_spec {ndebug : Bool} {sbColIdx numBlocks : Nat} :
    ∀ {its rests : List (List SparseBlock2d)} {blocks : SuperBlock} {hasBlocks : Bool},
    fillSuperBlock ndebug sbColIdx numBlocks its = .ok (blocks, rests, hasBlocks) →
    Pass sbColIdx numBlocks its blocks rests hasBlocks
  | [], _, _, _, filled => by
    cases filled
    exact ⟨by simp, rfl, .nil, rfl, fun _ _ => .inr rfl⟩
  | row :: its, _, _, _, filled => by
    obtain ⟨slots, rest, blocks, rests, hasBlocks, filledRow, filledRest, rfl, rfl, rfl⟩ :=
      fillSuperBlock_cons_eq_ok filled
    obtain ⟨length, split, -⟩ := fillRow_spec filledRow
    have pass := fillSuperBlock_spec filledRest
    refine ⟨by simp [length, pass.size, Nat.succ_mul, Nat.add_comm], by simp [pass.rows], ?_,
      by cases rest <;> simp [pass.has_blocks], fun wide fits => ?_⟩
    · rw [List.flatten_cons, split]
      refine List.perm_iff_count.mpr fun b => ?_
      have := List.perm_iff_count.mp pass.split b
      simp only [List.filterMap_append, List.flatten_cons, List.count_append] at this ⊢
      omega
    · rw [loopPotential_cons, loopPotential_cons, List.flatten_cons, List.append_eq_nil]
      rcases rowPotential_pass filledRow wide fun b member => fits b (List.mem_append_left _ member)
        with lower | rfl <;>
      rcases pass.progress wide fun b member => fits b (List.mem_append_right _ member)
        with lower' | empty
      · exact .inl (by omega)
      · exact .inl (by rw [loopPotential_of_empty empty]; omega)
      · exact .inl (by simp only [rowPotential]; omega)
      · exact .inr ⟨rfl, empty⟩

theorem fillSuperBlock_ahead (ndebug : Bool) (sbColIdx numBlocks : Nat) :
    ∀ its : List (List SparseBlock2d), (∀ row ∈ its, RowAhead sbColIdx row) →
      (∀ b ∈ its.flatten, b.blockColIdx < 2 ^ 64) → ∃ blocks rests hasBlocks,
      fillSuperBlock ndebug sbColIdx numBlocks its = .ok (blocks, rests, hasBlocks) ∧
      ∀ rest ∈ rests, RowAhead (sbColIdx + numBlocks) rest
  | [], _, _ => ⟨[], [], false, rfl, by simp⟩
  | row :: its, ahead, fits => by
    obtain ⟨slots, rest, filled, restAhead⟩ := fillRow_ahead ndebug sbColIdx numBlocks 0 row
      (ahead row (List.mem_cons_self row its)) fun b member => fits b (List.mem_append_left _ member)
    obtain ⟨blocks, rests, hasBlocks, filledRest, restsAhead⟩ := fillSuperBlock_ahead ndebug
      sbColIdx numBlocks its (fun row member => ahead row (List.mem_cons_of_mem _ member))
      fun b member => fits b (List.mem_append_right _ member)
    exact ⟨_, _, _, fillSuperBlock_cons filled filledRest,
      List.forall_mem_cons.mpr ⟨by simpa using restAhead, restsAhead⟩⟩

theorem fillSuperBlock_ndebug (sbColIdx numBlocks : Nat) :
    ∀ its, ∃ r, fillSuperBlock true sbColIdx numBlocks its = .ok r
  | [] => ⟨_, rfl⟩
  | row :: its => by
    obtain ⟨⟨slots, rest⟩, filled⟩ := fillRow_ndebug sbColIdx numBlocks 0 row
    obtain ⟨⟨blocks, rests, hasBlocks⟩, filledRest⟩ := fillSuperBlock_ndebug sbColIdx numBlocks its
    exact ⟨_, fillSuperBlock_cons filled filledRest⟩

theorem superBlockLoop_succ {ndebug : Bool} {numBlocks fuel sbColIdx : Nat}
    {its rests : List (List SparseBlock2d)} {blocks : SuperBlock} {hasBlocks : Bool}
    (filled : fillSuperBlock ndebug sbColIdx numBlocks its = .ok (blocks, rests, hasBlocks)) :
    superBlockLoop ndebug numBlocks (fuel + 1) sbColIdx its =
      if hasBlocks then
        (superBlockLoop ndebug numBlocks fuel ((sbColIdx + numBlocks) % 2 ^ 64) rests).map
          (·.map (blocks :: ·))
      else some (.ok [blocks]) := by
  simp only [superBlockLoop, filled]

theorem superBlockLoop_of_passes {ndebug : Bool} {numBlocks : Nat} (wide : 0 < numBlocks)
    (Inv : Nat → List (List SparseBlock2d) → Prop)
    (passes : ∀ sbColIdx its, Inv sbColIdx its → (∀ b ∈ its.flatten, b.blockColIdx < 2 ^ 64) →
      ∃ blocks rests hasBlocks,
        fillSuperBlock ndebug sbColIdx numBlocks its = .ok (blocks, rests, hasBlocks) ∧
        (hasBlocks = true → Inv ((sbColIdx + numBlocks) % 2 ^ 64) rests)) :
    ∀ fuel sbColIdx its, Inv sbColIdx its → (∀ b ∈ its.flatten, b.blockColIdx < 2 ^ 64) →
      loopPotential sbColIdx its < fuel → ∃ superBlocks,
        superBlockLoop ndebug numBlocks fuel sbColIdx its = some (.ok superBlocks) ∧
        (∀ blocks ∈ superBlocks, blocks.length = its.length * numBlocks) ∧
        (superBlocks.flatMap (·.filterMap id)).Perm its.flatten := by
  intro fuel
  induction fuel with
  | zero => exact fun _ _ _ _ bounded => absurd bounded (Nat.not_lt_zero _)
  | succ fuel ih =>
    intro sbColIdx its inv fits bounded
    obtain ⟨blocks, rests, hasBlocks, filled, next⟩ := passes sbColIdx its inv fits
    have pass := fillSuperBlock_spec filled
    rw [superBlockLoop_succ filled]
    cases hasBlocks
    · have empty : rests.flatten = [] := by simpa using pass.has_blocks.symm
      exact ⟨[blocks], rfl, by simpa using pass.size, by simpa [empty] using pass.split.symm⟩
    · have left : rests.flatten ≠ [] := by simpa using pass.has_blocks.symm
      have lower := (pass.progress wide fits).resolve_right left
      obtain ⟨superBlocks, ran, lengths, covered⟩ := ih _ rests (next rfl)
        (fun b member => fits b (pass.split.symm.subset (List.mem_append_right _ member)))
        (by rw [loopPotential_mod]; omega)
      exact ⟨blocks :: superBlocks, by rw [ran]; rfl,
        List.forall_mem_cons.mpr ⟨pass.size, fun sb member => pass.rows ▸ lengths sb member⟩,
        (covered.append_left _).trans pass.split.symm⟩

theorem blockComputeTaskRun_of_passes {ndebug : Bool} (blockRows : List (List SparseBlock2d))
    (Inv : Nat → List (List SparseBlock2d) → Prop)
    (passes : ∀ sbColIdx its, Inv sbColIdx its → (∀ b ∈ its.flatten, b.blockColIdx < 2 ^ 64) →
      ∃ blocks rests hasBlocks,
        fillSuperBlock ndebug sbColIdx blockRows.length its = .ok (blocks, rests, hasBlocks) ∧
        (hasBlocks = true → Inv ((sbColIdx + blockRows.length) % 2 ^ 64) rests))
    (start : Inv 0 blockRows) (fits : ∀ b ∈ blockRows.flatten, b.blockColIdx < 2 ^ 64)
    (fuel : Nat) (enough : (blockRows.flatten.length + blockRows.length) * 2 ^ 64 < fuel) :
    ∃ superBlocks, blockComputeTaskRun ndebug fuel blockRows = some (.ok superBlocks) ∧
      (∀ blocks ∈ superBlocks, blocks.length = blockRows.length * blockRows.length) ∧
      (superBlocks.flatMap (·.filterMap id)).Perm blockRows.flatten := by
  cases blockRows with
  | nil =>
    obtain ⟨fuel, rfl⟩ : ∃ f, fuel = f + 1 := ⟨fuel - 1, by simp at enough; omega⟩
    exact ⟨[[]], rfl, by simp, by simp⟩
  | cons row its =>
    exact superBlockLoop_of_passes (by simp) Inv passes fuel 0 (row :: its) start fits
      ((loopPotential_le 0 _).trans_lt enough)

/-! ### Which blocks `run` hands to `run_on_block`, and that it ends -/

theorem keptOrder_exec (hilbertXy2d : Nat → Nat → Nat → Nat) {order : BlockExecOrder}
    (order_from : order = .seq ∨ ∃ m, order = hilbertExecOrder hilbertXy2d m) (numBlockRows : Nat)
    (blocks : SuperBlock) (size : blocks.length = numBlockRows * numBlockRows) :
    ((keptOrder order numBlockRows).exec blocks).1 = true ∧
      ((keptOrder order numBlockRows).exec blocks).2.Perm (blocks.filterMap id) := by
  rcases order_from with rfl | ⟨m, rfl⟩
  · exact ⟨rfl, .refl _⟩
  · unfold keptOrder
    split
    · rename_i valid
      obtain rfl : m = numBlockRows := by
        simpa [hilbertExecOrder, BlockExecOrder.isValidSize] using valid
      exact exec_hilbert hilbertXy2d m blocks size
    · exact ⟨rfl, .refl _⟩

theorem blockComputeTaskRun_increasing (hilbertXy2d : Nat → Nat → Nat → Nat)
    {order : BlockExecOrder} (order_from : order = .seq ∨ ∃ m, order = hilbertExecOrder hilbertXy2d m)
    (blockRows : List (List SparseBlock2d))
    (increasing : ∀ row ∈ blockRows, row.Pairwise fun a b => a.blockColIdx < b.blockColIdx)
    (fits : ∀ b ∈ blockRows.flatten, b.blockColIdx < 2 ^ 64) (ndebug : Bool) (fuel : Nat)
    (enough : (blockRows.flatten.length + blockRows.length) * 2 ^ 64 < fuel) :
    ∃ superBlocks, blockComputeTaskRun ndebug fuel blockRows = some (.ok superBlocks) ∧
      (∀ blocks ∈ superBlocks, ((keptOrder order blockRows.length).exec blocks).1 = true) ∧
      (runOnBlockCalls (keptOrder order blockRows.length) superBlocks).Perm
        (inFileOrderCalls blockRows) := by
  have passes : ∀ sbColIdx its, (∀ row ∈ its, RowAhead sbColIdx row) →
      (∀ b ∈ its.flatten, b.blockColIdx < 2 ^ 64) → ∃ blocks rests hasBlocks,
        fillSuperBlock ndebug sbColIdx blockRows.length its = .ok (blocks, rests, hasBlocks) ∧
        (hasBlocks = true →
          ∀ row ∈ rests, RowAhead ((sbColIdx + blockRows.length) % 2 ^ 64) row) := by
    intro sbColIdx its ahead fits
    obtain ⟨blocks, rests, hasBlocks, filled, restsAhead⟩ :=
      fillSuperBlock_ahead ndebug sbColIdx blockRows.length its ahead fits
    refine ⟨blocks, rests, hasBlocks, filled, fun left => ?_⟩
    have pass := fillSuperBlock_spec filled
    have nonempty : rests.flatten ≠ [] := by simpa [left] using pass.has_blocks.symm
    obtain ⟨b, member⟩ := List.exists_mem_of_ne_nil _ nonempty
    obtain ⟨rest, inRests, inRest⟩ := List.mem_flatten.mp member
    have := (restsAhead rest inRests).2 b inRest
    have := fits b (pass.split.symm.subset (List.mem_append_right _ member))
    rw [Nat.mod_eq_of_lt (by omega)]
    exact restsAhead
  obtain ⟨superBlocks, ran, lengths, covered⟩ := blockComputeTaskRun_of_passes blockRows _ passes
    (fun row member => ⟨increasing row member, fun _ _ => Nat.zero_le _⟩) fits fuel enough
  have kept := fun blocks member =>
    keptOrder_exec hilbertXy2d order_from blockRows.length blocks (lengths blocks member)
  exact ⟨superBlocks, ran, fun blocks member => (kept blocks member).1,
    (List.Perm.flatMap_left _ fun blocks member => (kept blocks member).2).trans covered⟩

/-- On a strip whose block rows list strictly increasing `size_t` block columns, `run` ends with
assertions on or off, and `run_on_block` sees the blocks of the in-file traversal, each once. -/
theorem block_compute_task_runs_each_block (hilbertXy2d : Nat → Nat → Nat → Nat)
    (order : BlockExecOrder) (order_from : order = .seq ∨ ∃ m, order = hilbertExecOrder hilbertXy2d m)
    (blockRows : List (List SparseBlock2d))
    (increasing : ∀ row ∈ blockRows, row.Pairwise fun a b => a.blockColIdx < b.blockColIdx)
    (fits : ∀ b ∈ blockRows.flatten, b.blockColIdx < 2 ^ 64) (ndebug : Bool) (fuel : Nat)
    (enough : (blockRows.flatten.length + blockRows.length) * 2 ^ 64 < fuel) :
    ∃ superBlocks, blockComputeTaskRun ndebug fuel blockRows = some (.ok superBlocks) ∧
      (∀ blocks ∈ superBlocks, ((keptOrder order blockRows.length).exec blocks).1 = true) ∧
      (runOnBlockCalls (keptOrder order blockRows.length) superBlocks).Perm
        (inFileOrderCalls blockRows) ∧
      ∀ m, ((hilbertOrders hilbertXy2d m).map fun o => o.coo.1 * m + o.coo.2).Perm (List.range (m * m)) :=
  (blockComputeTaskRun_increasing hilbertXy2d order_from blockRows increasing fits ndebug fuel
    enough).imp fun _ ran => ⟨ran.1, ran.2.1, ran.2.2, hilbertOrders_slots hilbertXy2d⟩

/-- Two block rows over a `2 x 2` super block, run in the row-major curve order. -/
def twoRowStrip : List (List SparseBlock2d) := [[⟨0, 0, []⟩, ⟨0, 2, []⟩], [⟨1, 1, []⟩]]

def rowMajorXy2d (n i j : Nat) : Nat := i * n + j

theorem block_compute_task_runs_each_block_twoRows :
    ∃ superBlocks, blockComputeTaskRun false (5 * 2 ^ 64 + 1) twoRowStrip = some (.ok superBlocks) ∧
      (runOnBlockCalls (keptOrder (hilbertExecOrder rowMajorXy2d 2) 2) superBlocks).Perm
        (inFileOrderCalls twoRowStrip) := by
  obtain ⟨superBlocks, ran, -, calls, -⟩ := block_compute_task_runs_each_block rowMajorXy2d _
    (.inr ⟨2, rfl⟩) twoRowStrip (by decide) (by decide) false (5 * 2 ^ 64 + 1) (by decide)
  exact ⟨superBlocks, ran, calls⟩

theorem superBlockLoop_waits (b : SparseBlock2d) :
    ∀ fuel sbColIdx, b.blockColIdx < sbColIdx → sbColIdx + fuel ≤ 2 ^ 64 →
      superBlockLoop true 1 fuel sbColIdx [[b]] = none := by
  intro fuel
  induction fuel with
  | zero => exact fun _ _ _ => rfl
  | succ fuel ih =>
    intro sbColIdx past room
    have filled : fillSuperBlock true sbColIdx 1 [[b]] = .ok ([none], [[b]], true) := by
      rw [fillSuperBlock, fillRow_cons (.inl rfl), if_neg (by omega)]; rfl
    rw [superBlockLoop_succ filled, if_pos rfl]
    cases fuel with
    | zero => rfl
    | succ fuel => rw [Nat.mod_eq_of_lt (by omega), ih _ (by omega) (by omega)]; rfl

/-- With assertions compiled out `run` ends on every strip, each block in exactly one super
block; a row whose columns do not increase waits for `sb_col_idx` to wrap around. -/
theorem block_compute_task_terminates (blockRows : List (List SparseBlock2d))
    (fits : ∀ b ∈ blockRows.flatten, b.blockColIdx < 2 ^ 64) (fuel : Nat)
    (enough : (blockRows.flatten.length + blockRows.length) * 2 ^ 64 < fuel) :
    ∃ superBlocks, blockComputeTaskRun true fuel blockRows = some (.ok superBlocks) ∧
      (superBlocks.flatMap (·.filterMap id)).Perm blockRows.flatten := by
  obtain ⟨superBlocks, ran, -, covered⟩ := blockComputeTaskRun_of_passes blockRows (fun _ _ => True)
    (fun sbColIdx its _ _ => by
      obtain ⟨⟨blocks, rests, hasBlocks⟩, filled⟩ := fillSuperBlock_ndebug sbColIdx blockRows.length its
      exact ⟨blocks, rests, hasBlocks, filled, fun _ => trivial⟩)
    trivial fits fuel enough
  exact ⟨superBlocks, ran, covered⟩

/-- One block row whose second block has a smaller column than its first. -/
def unorderedStrip : List (List SparseBlock2d) := [[⟨0, 1, []⟩, ⟨0, 0, []⟩]]

theorem unorderedStrip_waits_for_wraparound :
    ∀ fuel ≤ 2 ^ 64, blockComputeTaskRun true fuel unorderedStrip = none := by
  intro fuel bounded
  match fuel, bounded with
  | 0, _ | 1, _ | 2, _ => rfl
  | fuel + 3, bounded =>
    have first : fillSuperBlock true 0 1 unorderedStrip =
        .ok ([none], [[⟨0, 1, []⟩, ⟨0, 0, []⟩]], true) := rfl
    have second : fillSuperBlock true ((0 + 1) % 2 ^ 64) 1 [[⟨0, 1, []⟩, ⟨0, 0, []⟩]] =
        .ok ([some ⟨0, 1, []⟩], [[⟨0, 0, []⟩]], true) := rfl
    show superBlockLoop true 1 (fuel + 2 + 1) 0 unorderedStrip = none
    rw [superBlockLoop_succ first, if_pos rfl, superBlockLoop_succ second, if_pos rfl,
      superBlockLoop_waits _ (fuel + 1) _ (by decide) (by omega)]
    rfl

theorem block_compute_task_terminates_unordered :
    (∃ superBlocks, blockComputeTaskRun true (3 * 2 ^ 64 + 1) unorderedStrip = some (.ok superBlocks)) ∧
      ∀ fuel ≤ 2 ^ 64, blockComputeTaskRun true fuel unorderedStrip = none :=
  ⟨(block_compute_task_terminates unorderedStrip (by decide) (3 * 2 ^ 64 + 1) (by decide)).imp
    fun _ ran => ran.1, unorderedStrip_waits_for_wraparound⟩

theorem blockRowIterator_of_lt {blockRows : List Nat} {i : Nat}
    (inside : i + 1 < blockRows.length) :
    blockRowIterator blockRows i = some (blockRows[i], blockRows[i + 1]) := by
  simp [blockRowIterator, List.getElem?_eq_getElem inside,
    List.getElem?_eq_getElem (by omega : i < blockRows.length)]

theorem mapM_blockRowIterator (blockRows : List Nat) :
    ∀ k, k < blockRows.length →
      (List.range k).mapM (blockRowIterator blockRows) = some ((blockRows.zip blockRows.tail).take k)
  | 0, _ => rfl
  | k + 1, inside => by
    have pair : (blockRows.zip blockRows.tail)[k]? = some (blockRows[k], blockRows[k + 1]) := by
      rw [List.getElem?_eq_getElem (by simp; omega), List.getElem_zip, List.getElem_tail]
    rw [List.range_succ, List.mapM_append, mapM_blockRowIterator blockRows k (by omega),
      List.mapM_cons, blockRowIterator_of_lt inside, List.take_succ, pair]
    rfl

/-- The iterations for `i < num_block_rows` read inside `block_rows` and give the iterators the
loop walks, but the last one reads `block_rows[block_rows.size()]`, one past its end. -/
theorem block_compute_task_reads_past_block_rows (numBlockRows : Nat) (blockRows : List Nat)
    (sized : blockRows.length = numBlockRows + 1) :
    (List.range numBlockRows).mapM (blockRowIterator blockRows) =
      some (blockRows.zip blockRows.tail) ∧
    blockRowIterator blockRows numBlockRows = none ∧ blockRowIterators blockRows = none := by
  have last : blockRowIterator blockRows numBlockRows = none := by
    simp [blockRowIterator, List.getElem?_eq_none (by omega : blockRows.length ≤ numBlockRows + 1)]
  have before := mapM_blockRowIterator blockRows numBlockRows (by omega)
  rw [List.take_of_length_le (by simp [sized])] at before
  refine ⟨before, last, ?_⟩
  rw [blockRowIterators, sized, List.range_succ, List.mapM_append, before, List.mapM_cons, last]
  rfl

theorem block_compute_task_reads_past_block_rows_twoRows :
    blockRowIterator [0, 4096, 8192] 2 = none ∧ blockRowIterators [0, 4096, 8192] = none :=
  (block_compute_task_reads_past_block_rows 2 [0, 4096, 8192] rfl).2

end Graphyti.Matrix
