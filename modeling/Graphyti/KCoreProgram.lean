import Graphyti.KCoreRun

/-! main's loop `for (CURRENT_K = kmin; CURRENT_K <= kmax; CURRENT_K++)`: every round
runs on the same vertex array, seeded by `activate_k_filter(CURRENT_K)`. The message
bookkeeping holds over the whole program; the filter's index degrees, however, miss a
survivor whose degree field fell below the next `k` in an earlier round. -/
namespace Graphyti.KCore

/-- `CURRENT_K++` on a `vsize_t`. -/
def vsizeInc (k : Nat) : Nat := (k + 1) % 2 ^ 32

/-- The vertex array and engine, the loop variable, and whether the loop is still going. -/
structure Program (n : Nat) where
  engine : State n
  curK : Nat
  kmax : Nat
  running : Bool

inductive ProgramEvent (n : Nat)
  | engine (e : Event n)
  | nextRound

def ProgramEvent.isNextRound {n : Nat} : ProgramEvent n → Bool
  | .engine _ => false
  | .nextRound => true

namespace Program

variable {n : Nat} (g : Graph n)

def init (kmin kmax : Nat) : Program n where
  engine := if kmin ≤ kmax then (State.init g).start g kmin else State.init g
  curK := kmin
  kmax := kmax
  running := decide (kmin ≤ kmax)

/-- An engine event of the current round, or, once `wait4complete` returns, `CURRENT_K++` and the
next round's `start` or the end of the loop. -/
def step : ProgramEvent n → Program n → Option (Program n)
  | .engine e, p =>
    if p.running then (KCore.step g p.curK e p.engine).map fun s => { p with engine := s }
    else none
  | .nextRound, p =>
    if p.running ∧ p.engine.Quiescent then
      some (if vsizeInc p.curK ≤ p.kmax then
          { p with curK := vsizeInc p.curK, engine := p.engine.start g (vsizeInc p.curK) }
        else { p with curK := vsizeInc p.curK, running := false })
    else none

def execute : List (ProgramEvent n) → Program n → Option (Program n)
  | [], p => some p
  | e :: es, p => (step g e p).bind (execute es)

theorem step_accounting {e : ProgramEvent n} {p p' : Program n} (acc : Accounting g p.engine)
    (stepped : step g e p = some p') : Accounting g p'.engine := by
  cases e with
  | engine e =>
    simp only [step] at stepped
    split at stepped
    · obtain ⟨s, engineStep, rfl⟩ := Option.map_eq_some'.mp stepped
      exact acc.step engineStep
    · cases stepped
  | nextRound =>
    simp only [step] at stepped
    split at stepped
    · cases (Option.some.inj stepped)
      split
      · exact acc.start ‹_ ∧ _›.2
      · exact acc
    · cases stepped

theorem execute_accounting {events : List (ProgramEvent n)} {p p' : Program n}
    (acc : Accounting g p.engine) (ran : execute g events p = some p') : Accounting g p'.engine := by
  induction events generalizing p with
  | nil => cases ran; exact acc
  | cons e events ih =>
    simp only [execute] at ran
    obtain ⟨q, stepped, rest⟩ := Option.bind_eq_some.mp ran
    exact ih (step_accounting g acc stepped) rest

theorem init_accounting (kmin kmax : Nat) : Accounting g (init g kmin kmax).engine := by
  simp only [init]
  split
  · exact Accounting.init.start ⟨fun _ => ⟨rfl, rfl⟩, fun _ => rfl⟩
  · exact Accounting.init

theorem step_loop {e : ProgramEvent n} {p p' : Program n} (stepped : step g e p = some p') :
    p.running = true ∧ p'.kmax = p.kmax ∧
    (e.isNextRound = false → p'.curK = p.curK ∧ p'.running = true) ∧
    (e.isNextRound = true →
      p'.curK = vsizeInc p.curK ∧ p'.running = decide (vsizeInc p.curK ≤ p.kmax)) := by
  cases e with
  | engine e =>
    simp only [step] at stepped
    split at stepped
    next running =>
      obtain ⟨s, -, rfl⟩ := Option.map_eq_some'.mp stepped
      exact ⟨running, rfl, fun _ => ⟨rfl, running⟩, fun engine => absurd engine Bool.false_ne_true⟩
    · cases stepped
  | nextRound =>
    simp only [step] at stepped
    split at stepped
    next ready =>
      cases Option.some.inj stepped
      refine ⟨ready.1, ?_, ?_, fun _ => ?_⟩
      · split <;> rfl
      · intro engineEvent; cases engineEvent
      · split <;> simp_all
    · cases stepped

theorem execute_rounds (I : Nat → Program n → Prop)
    (kept : ∀ r e p p', I r p → step g e p = some p' →
      I (r + if e.isNextRound then 1 else 0) p') :
    ∀ (events : List (ProgramEvent n)) (r : Nat) (p p' : Program n), I r p →
      execute g events p = some p' → I (r + events.countP (·.isNextRound)) p'
  | [], r, p, p', holds, ran => by cases ran; exact holds
  | e :: events, r, p, p', holds, ran => by
    obtain ⟨q, stepped, rest⟩ := Option.bind_eq_some.mp ran
    have after := execute_rounds I kept events _ q p' (kept r e p q holds stepped) rest
    rwa [List.countP_cons, ← Nat.add_assoc, Nat.add_right_comm]

section Loop

variable (kmin kmax : Nat)

/-- Below the largest `vsize_t`: the round is `kmin + r` while the loop runs, in `[kmin, kmax]`. -/
def BoundedLoop (r : Nat) (p : Program n) : Prop :=
  p.kmax = kmax ∧ (p.running = true → p.curK = kmin + r ∧ kmin + r ≤ kmax) ∧
    (p.running = false → r = kmax + 1 - kmin)

def EndlessLoop (r : Nat) (p : Program n) : Prop :=
  p.kmax = 2 ^ 32 - 1 ∧ p.running = true ∧ p.curK = (kmin + r) % 2 ^ 32

theorem init_boundedLoop : BoundedLoop kmin kmax 0 (init g kmin kmax) :=
  ⟨rfl, fun running => ⟨rfl, by simpa [init] using running⟩,
    fun stopped => by simp [init] at stopped; omega⟩

theorem init_endlessLoop (fits : kmin < 2 ^ 32) :
    EndlessLoop kmin 0 (init g kmin (2 ^ 32 - 1)) :=
  ⟨rfl, by simp [init]; omega, by simp [init]; omega⟩

theorem BoundedLoop.step {r : Nat} {e : ProgramEvent n} {p p' : Program n}
    (below : kmax < 2 ^ 32 - 1) (holds : BoundedLoop kmin kmax r p)
    (stepped : step g e p = some p') :
    BoundedLoop kmin kmax (r + if e.isNextRound then 1 else 0) p' := by
  obtain ⟨running, sameMax, engine, increment⟩ := step_loop g stepped
  obtain ⟨maxIs, atRound, -⟩ := holds
  obtain ⟨curK, inside⟩ := atRound running
  cases next : e.isNextRound
  · obtain ⟨sameK, stillRunning⟩ := engine next
    refine ⟨sameMax.trans maxIs, fun _ => ⟨sameK.trans curK, inside⟩, fun stopped => ?_⟩
    rw [stillRunning] at stopped
    cases stopped
  · show BoundedLoop kmin kmax (r + 1) p'
    have wrapless : vsizeInc p.curK = kmin + r + 1 := by unfold vsizeInc; omega
    obtain ⟨nextK, test⟩ := increment next
    rw [wrapless, maxIs] at test
    refine ⟨sameMax.trans maxIs, fun again => ?_, fun stopped => ?_⟩
    · rw [again, eq_comm, decide_eq_true_eq] at test
      exact ⟨nextK.trans wrapless, test⟩
    · rw [stopped, eq_comm, decide_eq_false_iff_not] at test
      omega

theorem EndlessLoop.step {r : Nat} {e : ProgramEvent n} {p p' : Program n}
    (holds : EndlessLoop kmin r p) (stepped : step g e p = some p') :
    EndlessLoop kmin (r + if e.isNextRound then 1 else 0) p' := by
  obtain ⟨-, sameMax, engine, increment⟩ := step_loop g stepped
  obtain ⟨maxIs, -, curK⟩ := holds
  cases next : e.isNextRound
  · obtain ⟨sameK, stillRunning⟩ := engine next
    exact ⟨sameMax.trans maxIs, stillRunning, sameK.trans curK⟩
  · show EndlessLoop kmin (r + 1) p'
    obtain ⟨nextK, test⟩ := increment next
    refine ⟨sameMax.trans maxIs, ?_, ?_⟩
    · rw [test, maxIs, decide_eq_true_eq]; unfold vsizeInc; omega
    · rw [nextK, curK]; unfold vsizeInc; omega

end Loop

end Program

/-- Over all rounds and interleavings: each vertex is deleted at most once, `degree--` never wraps,
and at every quiescent point a live vertex's degree is its degree among the live vertices. -/
theorem kcore_program_accounting (g : Graph n) (kmin kmax : Nat) (events : List (ProgramEvent n))
    (p : Program n) (ran : Program.execute g events (Program.init g kmin kmax) = some p) :
    (∀ v, p.engine.deletions v ≤ 1) ∧
    (∀ v, p.engine.deleted v = false →
      p.engine.applied v ≤ (g.neighbors v).countP p.engine.deleted ∧
      (p.engine.vertices v).degree + p.engine.applied v = g.numInEdges v + g.numOutEdges v ∧
      (0 < p.engine.inbox v → 0 < (p.engine.vertices v).degree)) ∧
    (p.engine.Quiescent → ∀ v, p.engine.deleted v = false →
      (p.engine.vertices v).degree = g.degreeIn p.engine.alive v) := by
  have acc := Program.execute_accounting g (Program.init_accounting g kmin kmax) ran
  refine ⟨fun v => ?_, fun v alive => ⟨acc.applied_le_deleted v, ?_, fun waiting =>
    acc.degree_pos alive waiting⟩, fun quiet v alive => acc.degree_quiescent quiet alive⟩
  · rw [acc.deletions v]; split <;> omega
  · rw [acc.degree v, g.numInEdges_add_numOutEdges]

/-- Below the largest `vsize_t` the loop runs one round per `k` in `[kmin, kmax]`; at
`kmax = 2 ^ 32 - 1` the increment wraps `CURRENT_K` to 0 and the loop never stops. -/
theorem main_loop_rounds (g : Graph n) (kmin kmax : Nat) (fits : kmin < 2 ^ 32)
    (events : List (ProgramEvent n)) (p : Program n)
    (ran : Program.execute g events (Program.init g kmin kmax) = some p) :
    (kmax < 2 ^ 32 - 1 →
      (p.running = true → p.curK = kmin + events.countP (·.isNextRound) ∧
        kmin + events.countP (·.isNextRound) ≤ kmax) ∧
      (p.running = false → events.countP (·.isNextRound) = kmax + 1 - kmin)) ∧
    (kmax = 2 ^ 32 - 1 →
      p.running = true ∧ p.curK = (kmin + events.countP (·.isNextRound)) % 2 ^ 32) := by
  refine ⟨fun below => ?_, fun top => ?_⟩
  · have loop := Program.execute_rounds g _ (fun _ _ _ _ holds stepped =>
      Program.BoundedLoop.step g kmin kmax below holds stepped) events 0 _ p
      (Program.init_boundedLoop g kmin kmax) ran
    rw [Nat.zero_add] at loop
    exact loop.2
  · subst top
    have loop := Program.execute_rounds g _ (fun _ _ _ _ holds stepped =>
      Program.EndlessLoop.step g kmin holds stepped) events 0 _ p
      (Program.init_endlessLoop g kmin fits) ran
    rw [Nat.zero_add] at loop
    exact loop.2

def isolatedVertex : Graph 1 := ⟨[]⟩

/-- The round for `k = 2 ^ 32 - 1` deletes the vertex; then the rounds for 0 and 1 start. -/
def wrapSchedule : List (ProgramEvent 1) :=
  [.engine (.run 0), .engine (.complete 0), .nextRound, .nextRound]

def wrapFinal : Program 1 :=
  (Program.execute isolatedVertex wrapSchedule
    (Program.init isolatedVertex (2 ^ 32 - 1) (2 ^ 32 - 1))).get (by decide)

theorem main_loop_rounds_wraps : wrapFinal.running = true ∧ wrapFinal.curK = 1 := by
  have loop := (main_loop_rounds isolatedVertex (2 ^ 32 - 1) (2 ^ 32 - 1) (by decide) wrapSchedule
    wrapFinal (Option.some_get _).symm).2 rfl
  exact ⟨loop.1, loop.2.trans rfl⟩

/-- A triangle with a pendant vertex on each corner: its 2-core is the triangle. -/
def pendantTriangle : Graph 6 := ⟨[(0, 1), (1, 2), (2, 0), (3, 0), (4, 1), (5, 2)]⟩

/-- Round `k = 2`: level zero deletes the pendants, level one brings the corners to degree 2. -/
def roundTwoSchedule : List (Event 6) :=
  [.run 3, .run 4, .run 5, .complete 3, .complete 4, .complete 5, .barrier,
    .deliver 0, .deliver 1, .deliver 2, .run 0, .run 1, .run 2,
    .complete 0, .complete 1, .complete 2]

/-- Round `k = 3`: the filter activates only the pendants, which are already deleted. -/
def roundThreeSchedule : List (Event 6) := [.run 3, .run 4, .run 5]

def afterRoundTwo : State 6 :=
  (KCore.execute pendantTriangle 2 roundTwoSchedule
    ((State.init pendantTriangle).start pendantTriangle 2)).get (by decide)

def afterRoundThree : State 6 :=
  (KCore.execute pendantTriangle 3 roundThreeSchedule
    (afterRoundTwo.start pendantTriangle 3)).get (by decide)

/-- Round two leaves the 2-core with its degrees and no message; the round for `k = 3` then stops
at once with the corners live at degree 2, not a 3-core. -/
theorem kcore_next_round_keeps_corners :
    afterRoundTwo.Quiescent ∧ pendantTriangle.IsKCore 2 afterRoundTwo.alive ∧
    (∀ v, afterRoundTwo.deleted v = false →
      (afterRoundTwo.vertices v).degree = pendantTriangle.degreeIn afterRoundTwo.alive v) ∧
    (∀ v, afterRoundTwo.inbox v = 0 ∧ afterRoundTwo.outbox v = 0) ∧
    KCore.execute pendantTriangle 3 roundThreeSchedule (afterRoundTwo.start pendantTriangle 3) =
      some afterRoundThree ∧
    afterRoundThree.Quiescent ∧ afterRoundThree.alive = afterRoundTwo.alive ∧
    ¬pendantTriangle.IsKCore 3 afterRoundThree.alive := by
  have ran : KCore.execute pendantTriangle 2 roundTwoSchedule
      ((State.init pendantTriangle).start pendantTriangle 2) = some afterRoundTwo :=
    (Option.some_get _).symm
  have inv := (execute_potential RoundInvariant.start ran).2
  have quiet : afterRoundTwo.Quiescent := by decide
  exact ⟨quiet, inv.kcore quiet, fun v alive => inv.accounting.degree_quiescent quiet alive,
    by decide, (Option.some_get _).symm, by decide, by decide, fun core => absurd core.1 (by decide)⟩

/-- Both rounds as main runs them, `CURRENT_K++` between. -/
def pendantProgram : List (ProgramEvent 6) :=
  roundTwoSchedule.map .engine ++ .nextRound :: roundThreeSchedule.map .engine

def pendantProgramFinal : Program 6 :=
  (Program.execute pendantTriangle pendantProgram (Program.init pendantTriangle 2 3)).get
    (by decide)

theorem kcore_program_accounting_pendantTriangle :
    Program.execute pendantTriangle pendantProgram (Program.init pendantTriangle 2 3) =
        some pendantProgramFinal ∧
      (∀ v, pendantProgramFinal.engine.deletions v ≤ 1) := by
  have ran : Program.execute pendantTriangle pendantProgram (Program.init pendantTriangle 2 3) =
      some pendantProgramFinal := (Option.some_get _).symm
  exact ⟨ran, (kcore_program_accounting pendantTriangle 2 3 _ pendantProgramFinal ran).1⟩

end Graphyti.KCore
