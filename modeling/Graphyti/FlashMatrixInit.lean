import Mathlib.Algebra.Order.BigOperators.Group.Finset
import Mathlib.Logic.Function.Basic

/-! `init_flash_matrix` and `destroy_flash_matrix` count the library's users in the atomic
`init_count`: the call whose `fetch_add` returns 0 initializes `matrix_conf` and the SAFS I/O
system (and takes its increment back if `init_io_system` throws), and the call whose
`fetch_sub` returns 1 destroys the I/O system. Callers interleave at each atomic step; a
thread that nests calls is several callers whose steps it orders. -/
namespace Graphyti.FlashMatrix

/-- Where a caller stands between atomic steps. -/
inductive Phase
  /-- in no call, and not holding the library -/
  | idle
  /-- its `fetch_add` returned 0: next `matrix_conf.init` -/
  | confInit
  /-- next `safs::init_io_system` -/
  | ioInit
  /-- `init_io_system` threw: next `init_count--` -/
  | rollback
  /-- `init_flash_matrix` returned normally -/
  | holding
  /-- its `fetch_sub` returned 1: next `safs::destroy_io_system` -/
  | teardown
  deriving DecidableEq, Repr

namespace Phase

def registered : Phase → Bool
  | confInit | ioInit | rollback | holding => true
  | idle | teardown => false

def midCall : Phase → Bool
  | confInit | ioInit | rollback | teardown => true
  | idle | holding => false

end Phase

structure State (m : Nat) where
  initCount : Nat
  ioSystem : Bool
  phase : Fin m → Phase

def initial (m : Nat) : State m := ⟨0, false, fun _ => .idle⟩

inductive Action
  | initFetchAdd
  | confInit
  | ioInitOk
  | ioInitThrow
  | rollback
  | destroyFetchSub
  | destroyIo
  deriving DecidableEq, Repr

structure Event (m : Nat) where
  caller : Fin m
  action : Action

/-- One atomic step of one caller. -/
def step {m : Nat} (e : Event m) (s : State m) : Option (State m) :=
  let moveTo (p : Phase) := Function.update s.phase e.caller p
  match e.action, s.phase e.caller with
  | .initFetchAdd, .idle => some { s with
      initCount := s.initCount + 1
      phase := moveTo (if s.initCount = 0 then .confInit else .holding) }
  | .confInit, .confInit => some { s with phase := moveTo .ioInit }
  | .ioInitOk, .ioInit => some { s with ioSystem := true, phase := moveTo .holding }
  | .ioInitThrow, .ioInit => some { s with phase := moveTo .rollback }
  | .rollback, .rollback => some { s with initCount := s.initCount - 1, phase := moveTo .idle }
  | .destroyFetchSub, .holding => some { s with
      initCount := s.initCount - 1
      phase := moveTo (if s.initCount = 1 then .teardown else .idle) }
  | .destroyIo, .teardown => some { s with ioSystem := false, phase := moveTo .idle }
  | _, _ => none

def execute {m : Nat} : List (Event m) → State m → Option (State m)
  | [], s => some s
  | e :: es, s => (step e s).bind (execute es)

/-- Calls that do not overlap: a caller steps only while no other caller is inside a call. -/
def serialStep {m : Nat} (e : Event m) (s : State m) : Option (State m) :=
  if ∀ u, u ≠ e.caller → (s.phase u).midCall = false then step e s else none

def serialExecute {m : Nat} : List (Event m) → State m → Option (State m)
  | [], s => some s
  | e :: es, s => (serialStep e s).bind (serialExecute es)

def registeredCount {m : Nat} (phase : Fin m → Phase) : Nat := ∑ t, (phase t).registered.toNat

variable {m : Nat} {e : Event m} {s s' : State m}

theorem step_cases (stepped : step e s = some s') :
    s'.phase = Function.update s.phase e.caller (s'.phase e.caller) ∧
    ((s.phase e.caller = .idle ∧ s'.initCount = s.initCount + 1 ∧ s'.ioSystem = s.ioSystem ∧
        s'.phase e.caller = if s.initCount = 0 then .confInit else .holding) ∨
      (s.phase e.caller = .confInit ∧ s'.initCount = s.initCount ∧ s'.ioSystem = s.ioSystem ∧
        s'.phase e.caller = .ioInit) ∨
      (s.phase e.caller = .ioInit ∧ s'.initCount = s.initCount ∧ s'.ioSystem = true ∧
        s'.phase e.caller = .holding) ∨
      (s.phase e.caller = .ioInit ∧ s'.initCount = s.initCount ∧ s'.ioSystem = s.ioSystem ∧
        s'.phase e.caller = .rollback) ∨
      (s.phase e.caller = .rollback ∧ s'.initCount = s.initCount - 1 ∧ s'.ioSystem = s.ioSystem ∧
        s'.phase e.caller = .idle) ∨
      (s.phase e.caller = .holding ∧ s'.initCount = s.initCount - 1 ∧ s'.ioSystem = s.ioSystem ∧
        s'.phase e.caller = if s.initCount = 1 then .teardown else .idle) ∨
      (s.phase e.caller = .teardown ∧ s'.initCount = s.initCount ∧ s'.ioSystem = false ∧
        s'.phase e.caller = .idle)) := by
  unfold step at stepped
  split at stepped <;> cases stepped <;> simp_all

theorem registeredCount_update (phase : Fin m → Phase) (t : Fin m) (p : Phase) :
    registeredCount (Function.update phase t p) + (phase t).registered.toNat =
      registeredCount phase + p.registered.toNat := by
  unfold registeredCount
  rw [← Finset.add_sum_erase _ _ (Finset.mem_univ t), ← Finset.add_sum_erase _ _ (Finset.mem_univ t),
    Finset.sum_congr rfl fun u member => by rw [Function.update_noteq (Finset.ne_of_mem_erase member)],
    Function.update_same]
  omega

theorem registeredCount_eq_one {phase : Fin m → Phase} {t : Fin m}
    (own : (phase t).registered = true) (one : registeredCount phase = 1) :
    ∀ u, u ≠ t → (phase u).registered = false := by
  intro u other
  have split := Finset.add_sum_erase Finset.univ (fun v => (phase v).registered.toNat)
    (Finset.mem_univ t)
  have le := Finset.single_le_sum (f := fun v => (phase v).registered.toNat)
    (fun _ _ => Nat.zero_le _) (Finset.mem_erase.mpr ⟨other, Finset.mem_univ u⟩)
  unfold registeredCount at one
  simp only [own, Bool.toNat_true] at split
  cases h : (phase u).registered
  · rfl
  · simp only [h, Bool.toNat_true] at le; omega

theorem registeredCount_eq_zero {phase : Fin m → Phase} (zero : registeredCount phase = 0) :
    ∀ u, (phase u).registered = false := by
  intro u
  have := Finset.single_le_sum (f := fun v => (phase v).registered.toNat)
    (fun _ _ => Nat.zero_le _) (Finset.mem_univ u)
  unfold registeredCount at zero
  cases h : (phase u).registered
  · rfl
  · simp only [h, Bool.toNat_true] at this; omega

theorem registeredCount_le (phase : Fin m → Phase) : registeredCount phase ≤ m := by
  simpa using Finset.sum_le_sum fun t (_ : t ∈ Finset.univ) => Bool.toNat_le (phase t).registered

theorem Phase.eq_holding {p : Phase} (registered : p.registered = true)
    (calm : p.midCall = false) : p = .holding := by
  cases p <;> simp_all [Phase.registered, Phase.midCall]

theorem Phase.eq_idle {p : Phase} (unregistered : p.registered = false)
    (calm : p.midCall = false) : p = .idle := by
  cases p <;> simp_all [Phase.registered, Phase.midCall]

/-- `init_count` counts the callers whose increment is outstanding. -/
def Counted (s : State m) : Prop := s.initCount = registeredCount s.phase

theorem Counted.initial : Counted (initial m) := by
  simp [Counted, FlashMatrix.initial, registeredCount, Phase.registered]

theorem Counted.step (counted : Counted s) (stepped : step e s = some s') : Counted s' := by
  obtain ⟨frame, cases⟩ := step_cases stepped
  have moved := registeredCount_update s.phase e.caller (s'.phase e.caller)
  rw [← frame] at moved
  unfold Counted at *
  rcases cases with ⟨was, count, -, now⟩ | ⟨was, count, -, now⟩ | ⟨was, count, -, now⟩ |
    ⟨was, count, -, now⟩ | ⟨was, count, -, now⟩ | ⟨was, count, -, now⟩ | ⟨was, count, -, now⟩ <;>
  · rw [was, now] at moved
    try split at moved
    all_goals simp only [Phase.registered, Bool.toNat_true, Bool.toNat_false] at moved; omega

/-- Without overlapping calls, a caller inside a call is the only one not idle, and while anyone
holds the library the I/O system is initialized. -/
structure SerialInv (s : State m) : Prop where
  counted : Counted s
  alone : ∀ t, (s.phase t).midCall = true → ∀ u, u ≠ t → s.phase u = .idle
  held : ∀ t, s.phase t = .holding → s.ioSystem = true

theorem SerialInv.initial : SerialInv (initial m) :=
  ⟨Counted.initial, fun _ mid => by simp [FlashMatrix.initial, Phase.midCall] at mid,
    fun _ holding => by simp [FlashMatrix.initial] at holding⟩

theorem serialStep_cases (stepped : serialStep e s = some s') :
    (∀ u, u ≠ e.caller → (s.phase u).midCall = false) ∧ step e s = some s' := by
  unfold serialStep at stepped
  split at stepped
  · exact ⟨‹_›, stepped⟩
  · cases stepped

section SerialStep

variable (inv : SerialInv s) (calm : ∀ u, u ≠ e.caller → (s.phase u).midCall = false)
  (stepped : step e s = some s')
include inv calm stepped

theorem SerialInv.alone_step (t : Fin m) (mid : (s'.phase t).midCall = true) (u : Fin m)
    (ne : u ≠ t) : s'.phase u = .idle := by
  obtain ⟨frame, cases⟩ := step_cases stepped
  have other : ∀ u, u ≠ e.caller → s'.phase u = s.phase u := fun u ne => by
    rw [frame, Function.update_noteq ne]
  by_cases same : t = e.caller
  · subst same
    have othersIdle : (∀ u, u ≠ e.caller → s.phase u = .idle) → s'.phase u = .idle :=
      fun idle => (other u ne).trans (idle u ne)
    have unregisteredIdle : (∀ u, u ≠ e.caller → (s.phase u).registered = false) →
        ∀ u, u ≠ e.caller → s.phase u = .idle :=
      fun none u ne => Phase.eq_idle (none u ne) (calm u ne)
    rcases cases with ⟨was, count, -, now⟩ | ⟨was, count, -, now⟩ | ⟨was, count, -, now⟩ |
      ⟨was, count, -, now⟩ | ⟨was, count, -, now⟩ | ⟨was, count, -, now⟩ | ⟨was, count, -, now⟩
    · split at now
      · exact othersIdle (unregisteredIdle fun u _ => registeredCount_eq_zero
          (inv.counted.symm.trans ‹_›) u)
      · simp [now, Phase.midCall] at mid
    · exact othersIdle (inv.alone e.caller (by simp [was, Phase.midCall]))
    · simp [now, Phase.midCall] at mid
    · exact othersIdle (inv.alone e.caller (by simp [was, Phase.midCall]))
    · simp [now, Phase.midCall] at mid
    · split at now
      · exact othersIdle (unregisteredIdle (registeredCount_eq_one
          (by simp [was, Phase.registered]) (inv.counted.symm.trans ‹_›)))
      · simp [now, Phase.midCall] at mid
    · simp [now, Phase.midCall] at mid
  · rw [other t same, calm t same] at mid
    cases mid

theorem SerialInv.held_step (t : Fin m) (holding : s'.phase t = .holding) :
    s'.ioSystem = true := by
  obtain ⟨frame, cases⟩ := step_cases stepped
  by_cases same : t = e.caller
  · subst same
    rcases cases with ⟨was, count, io, now⟩ | ⟨-, -, -, now⟩ | ⟨-, -, io, -⟩ |
      ⟨-, -, -, now⟩ | ⟨-, -, -, now⟩ | ⟨-, -, -, now⟩ | ⟨-, -, -, now⟩
    · split at now
      · simp [now] at holding
      · rename_i busy
        obtain ⟨u, registered⟩ : ∃ u, (s.phase u).registered = true := by
          by_contra none
          exact busy (inv.counted.trans (by simpa [registeredCount] using none))
        have ne : u ≠ e.caller := by rintro rfl; simp [was, Phase.registered] at registered
        rw [io]
        exact inv.held u (Phase.eq_holding registered (calm u ne))
    · simp [now] at holding
    · exact io
    · simp [now] at holding
    · simp [now] at holding
    · split at now <;> simp [now] at holding
    · simp [now] at holding
  · rw [frame, Function.update_noteq same] at holding
    have before := inv.held t holding
    rcases cases with ⟨-, -, io, -⟩ | ⟨-, -, io, -⟩ | ⟨-, -, io, -⟩ |
      ⟨-, -, io, -⟩ | ⟨-, -, io, -⟩ | ⟨-, -, io, -⟩ | ⟨was, -, -, -⟩ <;>
      try simp only [io, before]
    have := inv.alone e.caller (by simp [was, Phase.midCall]) t same
    simp [this] at holding

end SerialStep

theorem SerialInv.of_serialStep (inv : SerialInv s) (stepped : serialStep e s = some s') :
    SerialInv s' :=
  let ⟨calm, stepped⟩ := serialStep_cases stepped
  ⟨inv.counted.step stepped, inv.alone_step calm stepped, inv.held_step calm stepped⟩

theorem execute_counted {events : List (Event m)} (counted : Counted s)
    (ran : execute events s = some s') : Counted s' := by
  induction events generalizing s with
  | nil => cases ran; exact counted
  | cons e events ih =>
    obtain ⟨t, stepped, rest⟩ := Option.bind_eq_some.mp ran
    exact ih (counted.step stepped) rest

theorem serialExecute_inv {events : List (Event m)} (inv : SerialInv s)
    (ran : serialExecute events s = some s') : SerialInv s' ∧ execute events s = some s' := by
  induction events generalizing s with
  | nil => cases ran; exact ⟨inv, rfl⟩
  | cons e events ih =>
    obtain ⟨t, stepped, rest⟩ := Option.bind_eq_some.mp ran
    obtain ⟨final, ran'⟩ := ih (inv.of_serialStep stepped) rest
    exact ⟨final, by rw [execute, (serialStep_cases stepped).2]; exact ran'⟩

/-- Over every interleaving `init_count` counts the outstanding `fetch_add`s; with calls that do
not overlap every holder finds the I/O system initialized, and teardown leaves no holder. -/
theorem flash_matrix_refcount (m : Nat) (events : List (Event m)) (s : State m)
    (ran : execute events (initial m) = some s) :
    s.initCount = registeredCount s.phase ∧ s.initCount ≤ m ∧
    (∀ t, s.phase t = .holding → s.initCount = 1 → ∀ u, u ≠ t → (s.phase u).registered = false) ∧
    (serialExecute events (initial m) = some s →
      (∀ t, s.phase t = .holding → s.ioSystem = true) ∧
      ∀ t, s.phase t = .teardown → ∀ u, s.phase u ≠ .holding) := by
  have counted := execute_counted Counted.initial ran
  refine ⟨counted, counted ▸ registeredCount_le _, fun t holding one =>
    registeredCount_eq_one (by simp [holding, Phase.registered]) (counted.symm.trans one),
    fun serial => ?_⟩
  have inv := (serialExecute_inv SerialInv.initial serial).1
  refine ⟨inv.held, fun t teardown u holding => ?_⟩
  by_cases same : u = t
  · subst same; simp [teardown] at holding
  · simp [inv.alone t (by simp [teardown, Phase.midCall]) u same] at holding

/-- Two nested users: the first initializes, the second joins and leaves, the first tears down. -/
def nestedRun : List (Event 2) :=
  [⟨0, .initFetchAdd⟩, ⟨0, .confInit⟩, ⟨0, .ioInitOk⟩, ⟨1, .initFetchAdd⟩,
    ⟨1, .destroyFetchSub⟩, ⟨0, .destroyFetchSub⟩]

def nestedFinal : State 2 := (execute nestedRun (initial 2)).get (by decide)

theorem flash_matrix_refcount_nested :
    execute nestedRun (initial 2) = some nestedFinal ∧ nestedFinal.initCount = 0 ∧
      ∀ u, nestedFinal.phase u ≠ .holding := by
  have ran : execute nestedRun (initial 2) = some nestedFinal := (Option.some_get _).symm
  have serial : serialExecute nestedRun (initial 2) = some nestedFinal := ran
  obtain ⟨counted, -, -, safe⟩ := flash_matrix_refcount 2 nestedRun nestedFinal ran
  exact ⟨ran, counted.trans (by decide), (safe serial).2 0 rfl⟩

def earlyReturn : List (Event 2) := [⟨0, .initFetchAdd⟩, ⟨1, .initFetchAdd⟩]

def lateTeardown : List (Event 2) :=
  [⟨0, .initFetchAdd⟩, ⟨0, .confInit⟩, ⟨0, .ioInitOk⟩, ⟨0, .destroyFetchSub⟩,
    ⟨1, .initFetchAdd⟩, ⟨1, .confInit⟩, ⟨1, .ioInitOk⟩]

/-- With overlapping calls `init_flash_matrix` can return before the I/O system is initialized,
and `destroy_io_system` can run while a caller holds the library. -/
theorem init_returns_before_io_system :
    (∃ s, execute earlyReturn (initial 2) = some s ∧ s.phase 1 = .holding ∧ s.ioSystem = false) ∧
    (∃ s, execute lateTeardown (initial 2) = some s ∧ s.phase 0 = .teardown ∧
      s.phase 1 = .holding ∧
      ∃ s', step ⟨0, .destroyIo⟩ s = some s' ∧ s'.phase 1 = .holding ∧ s'.ioSystem = false) :=
  ⟨⟨_, rfl, rfl, rfl⟩, ⟨_, rfl, rfl, rfl, _, rfl, rfl, rfl⟩⟩

end Graphyti.FlashMatrix
