import Graphyti.KCoreInvariant
import Graphyti.VertexQuery
import Mathlib.Algebra.Order.BigOperators.Group.Finset

/-! One k-core round from freshly built vertices. The engine can move until it is
quiescent, every schedule is bounded by a potential that counts the work left in the
level and the levels left, and a quiescent state holds exactly the k-core. -/
namespace Graphyti.KCore

variable {n : Nat} {g : Graph n} {curK : Nat} {s s' : State n}

/-- Without quiescence some event is enabled. -/
theorem progress (busy : ¬s.Quiescent) : ∃ e, (step g curK e s).isSome := by
  by_cases active : ∃ v, s.current v = true
  · obtain ⟨v, active⟩ := active
    by_cases waiting : 0 < s.inbox v
    · exact ⟨.deliver v, by simp [step, active, waiting]⟩
    · exact ⟨.run v, by simp [step, active, Nat.eq_zero_of_not_pos waiting]⟩
  by_cases requested : ∃ v, s.pending v = true
  · obtain ⟨v, requested⟩ := requested
    exact ⟨.complete v, by simp [step, requested]⟩
  have idle : s.Idle := fun v => ⟨by simpa using not_exists.mp active v,
    by simpa using not_exists.mp requested v⟩
  have activated : ∃ v, s.next v = true := by
    by_contra none
    exact busy ⟨idle, fun v => by simpa using not_exists.mp none v⟩
  exact ⟨.barrier, by simp [step, idle, activated]⟩

/-- Work left in the level: two per vertex to dispatch, one per pending vertex or message. -/
def vertexWork (s : State n) (v : Fin n) : Nat :=
  2 * (s.current v).toNat + (s.pending v).toNat + s.inbox v

def levelWork (s : State n) : Nat := ∑ v, vertexWork s v

/-- More than the work any level can start with. -/
def levelCap (g : Graph n) : Nat := 2 * n + ∑ v, (g.neighbors v).length + 1

def potential (g : Graph n) (s : State n) : Nat := (n + 1 - s.level) * levelCap g + levelWork s

def runBound (g : Graph n) : Nat := (n + 2) * levelCap g

theorem sum_update_work (f f' : Fin n → Nat) (v : Fin n) (off : ∀ w, w ≠ v → f' w = f w) :
    ∑ w, f' w + f v = ∑ w, f w + f' v := by
  have whole := Finset.add_sum_erase Finset.univ f (Finset.mem_univ v)
  have whole' := Finset.add_sum_erase Finset.univ f' (Finset.mem_univ v)
  have rest : ∑ w ∈ Finset.univ.erase v, f' w = ∑ w ∈ Finset.univ.erase v, f w :=
    Finset.sum_congr rfl fun w member => off w (Finset.ne_of_mem_erase member)
  omega

theorem levelWork_lt {v : Fin n} (off : ∀ w, w ≠ v → vertexWork s' w = vertexWork s w)
    (less : vertexWork s' v < vertexWork s v) : levelWork s' < levelWork s := by
  have := sum_update_work (vertexWork s) (vertexWork s') v off
  simp only [levelWork]
  omega

theorem levelWork_idle (acc : Accounting g s) (idle : s.Idle) : levelWork s = 0 := by
  simp [levelWork, vertexWork, (idle _).1, (idle _).2, acc.inbox_idle idle]

theorem levelWork_progressNextLevel (acc : Accounting g s) (idle : s.Idle) :
    levelWork s.progressNextLevel < levelCap g := by
  have bounded : ∀ v, vertexWork s.progressNextLevel v ≤ 2 + (g.neighbors v).length := by
    intro v
    have := acc.conserved v
    have := List.countP_le_length (p := s.deleted) (l := g.neighbors v)
    have := Bool.toNat_le (s.next v)
    simp only [vertexWork, State.progressNextLevel_current, State.progressNextLevel_pending,
      (idle v).2, State.progressNextLevel_inbox, Bool.toNat_false]
    omega
  have := Finset.sum_le_sum fun v (_ : v ∈ Finset.univ) => bounded v
  simp only [Finset.sum_add_distrib, Finset.sum_const, Finset.card_univ, Fintype.card_fin,
    Nat.nsmul_eq_mul] at this
  simp only [levelWork, levelCap]
  omega

theorem potential_step {e : Event n} (inv : RoundInvariant g curK s)
    (stepped : step g curK e s = some s') : potential g s' < potential g s := by
  rcases step_cases stepped with ⟨v, -, waiting, rfl⟩ | ⟨v, active, -, rfl⟩ |
    ⟨v, requested, rfl⟩ | ⟨idle, activated, rfl⟩
  · have : levelWork (s.deliver v) < levelWork s :=
      levelWork_lt (v := v) (fun w other => by simp [vertexWork, other])
        (by simp [vertexWork]; omega)
    simp only [potential, State.deliver_level]
    omega
  · have : levelWork (s.dispatch curK v) < levelWork s :=
      levelWork_lt (v := v) (fun w other => by simp [vertexWork, other])
        (by have := Bool.toNat_le ((s.vertices v).run curK); simp [vertexWork, active]; omega)
    simp only [potential, State.dispatch_level]
    omega
  · have : levelWork (s.complete g curK v) < levelWork s :=
      levelWork_lt (v := v) (fun w other => by simp [vertexWork, other])
        (by simp [vertexWork, requested])
    simp only [potential, State.complete_level]
    omega
  · have started := levelWork_progressNextLevel inv.accounting idle
    have idleWork := levelWork_idle inv.accounting idle
    have reached := inv.next_level activated
    have := deletedCount_le s
    have levelsLeft : n + 1 - s.level = (n - s.level) + 1 := by omega
    have levelsAfter : n + 1 - (s.level + 1) = n - s.level := by omega
    simp only [potential, State.progressNextLevel_level, levelsLeft, levelsAfter, idleWork,
      Nat.add_mul, Nat.one_mul]
    omega

theorem execute_potential {sched : List (Event n)} (inv : RoundInvariant g curK s)
    (ran : execute g curK sched s = some s') :
    sched.length + potential g s' ≤ potential g s ∧ RoundInvariant g curK s' := by
  induction sched generalizing s with
  | nil => cases ran; exact ⟨by simp, inv⟩
  | cons e sched ih =>
    simp only [execute] at ran
    obtain ⟨t, stepped, rest⟩ := Option.bind_eq_some.mp ran
    have ⟨bound, final⟩ := ih (inv.step stepped) rest
    have := potential_step inv stepped
    exact ⟨by simp only [List.length_cons]; omega, final⟩

theorem potential_start : potential g ((State.init g).start g curK) < runBound g := by
  have bounded : ∀ v, vertexWork ((State.init g).start g curK) v ≤ 2 := by
    intro v
    have := Bool.toNat_le (activateKFilter g curK v)
    simp [vertexWork, State.init]
    omega
  have := Finset.sum_le_sum fun v (_ : v ∈ Finset.univ) => bounded v
  simp only [Finset.sum_const, Finset.card_univ, Fintype.card_fin, Nat.nsmul_eq_mul] at this
  simp only [potential, runBound, levelWork, State.start_level, Nat.sub_zero]
  have : (n + 2) * levelCap g = (n + 1) * levelCap g + levelCap g := Nat.succ_mul _ _
  simp only [levelCap] at this ⊢
  omega

theorem RoundInvariant.kcore (inv : RoundInvariant g curK s) (quiet : s.Quiescent) :
    g.IsKCore curK s.alive := by
  refine ⟨fun v alive => ?_, fun T core v member => ?_⟩
  · have fresh : s.deleted v = false := by simpa [State.alive, State.deleted] using alive
    rw [← inv.accounting.degree_quiescent quiet fresh]
    by_contra low
    rcases inv.settled v fresh (Nat.lt_of_not_le low) with h | h | h
    · simp [(quiet.1 v).1] at h
    · simp [(quiet.1 v).2] at h
    · simp [quiet.2 v] at h
  · simpa [State.alive, State.deleted] using inv.intact T core v member

/-- One k-core round under any interleaving ends within `runBound g` events in levels `0 .. n`,
and then the live vertices are exactly the k-core, whatever `query_on_all` plan counts them. -/
theorem kcore_round_correct (g : Graph n) (k : Nat) (sched : List (Event n)) (s : State n)
    (ran : execute g k sched ((State.init g).start g k) = some s) :
    sched.length ≤ runBound g ∧ s.level ≤ n ∧ (s.Quiescent ∨ ∃ e, (step g k e s).isSome) ∧
    (s.Quiescent → g.IsKCore k s.alive ∧
      ∀ plan : MergePlan n, plan.Covers →
        (countVertexQuery s.vertices).onAll plan =
          n - (Finset.univ.filter fun v => s.alive v = true).card) := by
  obtain ⟨bound, inv⟩ := execute_potential RoundInvariant.start ran
  have : potential g ((State.init g).start g k) < runBound g := potential_start
  refine ⟨by omega, inv.level_le.trans (deletedCount_le s), ?_,
    fun quiet => ⟨inv.kcore quiet, fun plan covers => ?_⟩⟩
  · by_cases quiet : s.Quiescent
    · exact .inl quiet
    · exact .inr (progress quiet)
  · rw [((countVertexQuery_lawful _).onAll_covers covers).trans (countVertexQuery_finRange _)]
    have := Finset.filter_card_add_filter_neg_card_eq_card (s := Finset.univ)
      (fun v => (s.vertices v).deleted = true)
    simp only [Finset.card_univ, Fintype.card_fin] at this
    simp only [State.alive, Bool.not_eq_true', ← Bool.not_eq_true]
    omega

/-- One edge peeled at `k = 2`: both ends go in level zero. -/
def pathGraph : Graph 2 := ⟨[(0, 1)]⟩

def pathSchedule : List (Event 2) :=
  [.run 0, .run 1, .complete 0, .complete 1, .barrier, .deliver 0, .deliver 1, .run 0, .run 1]

def pathFinal : State 2 :=
  (execute pathGraph 2 pathSchedule ((State.init pathGraph).start pathGraph 2)).get (by decide)

theorem kcore_round_path :
    execute pathGraph 2 pathSchedule ((State.init pathGraph).start pathGraph 2) = some pathFinal ∧
      pathFinal.Quiescent ∧ pathGraph.IsKCore 2 pathFinal.alive := by
  have ran : execute pathGraph 2 pathSchedule ((State.init pathGraph).start pathGraph 2) =
      some pathFinal := (Option.some_get _).symm
  have quiet : pathFinal.Quiescent := by decide
  exact ⟨ran, quiet, ((kcore_round_correct pathGraph 2 pathSchedule pathFinal ran).2.2.2 quiet).1⟩

end Graphyti.KCore
