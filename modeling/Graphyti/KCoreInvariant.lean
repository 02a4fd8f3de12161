import Graphyti.KCoreEngine

/-! Bookkeeping of the `deleted_message`s, kept by every event and by every `start`
from a quiescent state, so it holds across all of main's rounds: a message was sent for
each edge whose other end is deleted, the degree field lost one per message applied,
and the delete branch runs once per vertex. -/
namespace Graphyti.KCore

variable {n : Nat} (g : Graph n)

structure Accounting (s : State n) : Prop where
  conserved : ∀ v, s.received v + s.inbox v + s.outbox v = (g.neighbors v).countP s.deleted
  applied_le : ∀ v, s.applied v ≤ s.received v
  applied_alive : ∀ v, s.deleted v = false → s.applied v = s.received v
  degree : ∀ v, (s.vertices v).degree + s.applied v = (g.neighbors v).length
  deletions : ∀ v, s.deletions v = if s.deleted v then 1 else 0
  inbox_current : ∀ v, 0 < s.inbox v → s.current v = true
  outbox_next : ∀ v, 0 < s.outbox v → s.next v = true

namespace Accounting

variable {g} {curK : Nat} {s : State n} {v : Fin n}

theorem init : Accounting g (State.init g) where
  conserved v := by rw [State.init_deleted]; simp [State.init]
  applied_le := by simp [State.init]
  applied_alive := by simp [State.init]
  degree := by simp [State.init, KcoreVertex.create, Graph.numInEdges_add_numOutEdges]
  deletions v := by rw [State.init_deleted]; rfl
  inbox_current := by simp [State.init]
  outbox_next := by simp [State.init]

theorem applied_le_deleted (acc : Accounting g s) (v : Fin n) :
    s.applied v ≤ (g.neighbors v).countP s.deleted := by
  have := acc.conserved v
  have := acc.applied_le v
  omega

/-- A live vertex with a message waiting has a positive degree, so `degree--` does not wrap. -/
theorem degree_pos (acc : Accounting g s) (alive : s.deleted v = false) (waiting : 0 < s.inbox v) :
    0 < (s.vertices v).degree := by
  have := acc.conserved v
  have := acc.degree v
  have := acc.applied_alive v alive
  have := List.countP_le_length (p := s.deleted) (l := g.neighbors v)
  omega

theorem inbox_idle (acc : Accounting g s) (idle : s.Idle) (v : Fin n) : s.inbox v = 0 := by
  have := acc.inbox_current v
  have := (idle v).1
  by_contra nonzero
  simp_all [Nat.pos_iff_ne_zero]

theorem outbox_quiescent (acc : Accounting g s) (quiet : s.Quiescent) (v : Fin n) :
    s.outbox v = 0 := by
  have := acc.outbox_next v
  have := quiet.2 v
  by_contra nonzero
  simp_all [Nat.pos_iff_ne_zero]

/-- At a quiescent point a live vertex's degree field is its degree among the live vertices. -/
theorem degree_quiescent (acc : Accounting g s) (quiet : s.Quiescent) (alive : s.deleted v = false) :
    (s.vertices v).degree = g.degreeIn s.alive v := by
  have := acc.conserved v
  have := acc.degree v
  have := acc.applied_alive v alive
  have := g.degreeIn_add_compl s.alive v
  have negated : (fun u => !s.alive u) = s.deleted := by funext u; simp [State.alive, State.deleted]
  rw [negated] at this
  simp only [acc.inbox_idle quiet.1 v, acc.outbox_quiescent quiet v] at *
  omega

theorem deliver (acc : Accounting g s) (waiting : 0 < s.inbox v) : Accounting g (s.deliver v) where
  conserved w := by
    have := acc.conserved w
    by_cases same : w = v
    · subst same; simp; omega
    · simpa [same] using this
  applied_le w := by
    have := acc.applied_le w
    by_cases same : w = v
    · subst same; simp; split <;> omega
    · simp [same, this]
  applied_alive w alive := by
    by_cases same : w = v
    · subst same
      simp only [State.deleted, State.deliver_vertices, Function.update_same,
        KcoreVertex.runOnMessage_deleted] at alive
      simp [alive, acc.applied_alive w alive]
    · simp only [State.deleted, State.deliver_vertices, Function.update_noteq same] at alive
      simp [same, acc.applied_alive w alive]
  degree w := by
    have := acc.degree w
    by_cases same : w = v
    · subst same
      cases alive : s.deleted w
      · have positive := acc.degree_pos alive waiting
        simp only [State.deleted] at alive
        simp [KcoreVertex.runOnMessage, alive, vsizeDec_of_pos positive]; omega
      · simp only [State.deleted] at alive
        simpa [KcoreVertex.runOnMessage, alive] using this
    · simpa [same] using this
  deletions w := by simpa using acc.deletions w
  inbox_current w := by
    by_cases same : w = v
    · subst same; simp; intro waiting; exact acc.inbox_current w (by omega)
    · simpa [same] using acc.inbox_current w
  outbox_next := acc.outbox_next

theorem dispatch (acc : Accounting g s) (empty : s.inbox v = 0) :
    Accounting g (s.dispatch curK v) where
  conserved := acc.conserved
  applied_le := acc.applied_le
  applied_alive := acc.applied_alive
  degree := acc.degree
  deletions := acc.deletions
  inbox_current w waiting := by
    have := acc.inbox_current w waiting
    by_cases same : w = v
    · subst same; simp_all
    · simpa [same] using this
  outbox_next := acc.outbox_next

theorem deleted_update (s : State n) (v u : Fin n) :
    (Function.update s.vertices v { s.vertices v with deleted := true } u).deleted =
      Function.update s.deleted v true u := by
  by_cases same : u = v
  · subst same; simp
  · simp [same, State.deleted]

theorem complete (acc : Accounting g s) : Accounting g (s.complete g curK v) := by
  cases deleting : (s.vertices v).deletes curK
  · rw [State.complete_of_keeps g curK s v deleting]
    exact { acc with }
  · rw [State.complete_of_deletes g curK s v deleting]
    have alive : (s.vertices v).deleted = false := by
      simp only [KcoreVertex.deletes, Bool.and_eq_true, Bool.not_eq_true'] at deleting
      exact deleting.1
    constructor
    · intro w
      show _ = (g.neighbors w).countP
        (fun u => (Function.update s.vertices v { s.vertices v with deleted := true } u).deleted)
      simp only [deleted_update]
      rw [Graph.countP_update_true _ _ _ alive, ← g.count_neighbors_comm]
      have := acc.conserved w
      simp only at this ⊢
      omega
    · exact acc.applied_le
    · intro w fresh
      have other : w ≠ v := by rintro rfl; simp [State.deleted] at fresh
      exact acc.applied_alive w (by simpa [State.deleted, other] using fresh)
    · intro w
      by_cases same : w = v
      · subst same; simpa using acc.degree w
      · simpa [same] using acc.degree w
    · intro w
      by_cases same : w = v
      · subst same; simp [State.deleted, acc.deletions w, alive]
      · simpa [State.deleted, same] using acc.deletions w
    · exact acc.inbox_current
    · intro w waiting
      by_cases sent : 0 < s.outbox w
      · simp [acc.outbox_next w sent]
      · simp only at waiting
        have : 0 < (g.neighbors v).count w := by omega
        simp [List.count_pos_iff.mp this]

theorem progressNextLevel (acc : Accounting g s) (idle : s.Idle) :
    Accounting g s.progressNextLevel where
  conserved w := by simpa [acc.inbox_idle idle w] using acc.conserved w
  applied_le := acc.applied_le
  applied_alive := acc.applied_alive
  degree := acc.degree
  deletions := acc.deletions
  inbox_current := acc.outbox_next
  outbox_next := by simp

theorem start (acc : Accounting g s) (quiet : s.Quiescent) : Accounting g (s.start g curK) where
  conserved := acc.conserved
  applied_le := acc.applied_le
  applied_alive := acc.applied_alive
  degree := acc.degree
  deletions := acc.deletions
  inbox_current w waiting := by simp [acc.inbox_idle quiet.1 w] at waiting
  outbox_next := acc.outbox_next

theorem step {e : Event n} {s' : State n} (acc : Accounting g s)
    (stepped : step g curK e s = some s') : Accounting g s' := by
  rcases step_cases stepped with ⟨v, -, waiting, rfl⟩ | ⟨v, -, empty, rfl⟩ | ⟨v, -, rfl⟩ |
    ⟨idle, -, rfl⟩
  · exact acc.deliver waiting
  · exact acc.dispatch empty
  · exact acc.complete
  · exact acc.progressNextLevel idle

end Accounting

theorem deletedCount_update {s : State n} {v : Fin n} (alive : s.deleted v = false) :
    (Finset.univ.filter fun w => Function.update s.deleted v true w = true).card =
      s.deletedCount + 1 := by
  have grown : (Finset.univ.filter fun w => Function.update s.deleted v true w = true) =
      insert v (Finset.univ.filter fun w => s.deleted w = true) := by
    ext w
    by_cases same : w = v
    · subst same; simp
    · simp [same]
  rw [grown, Finset.card_insert_of_not_mem (by simp [alive])]
  rfl

theorem deletedCount_le (s : State n) : s.deletedCount ≤ n := by
  simpa using Finset.card_filter_le Finset.univ fun v => s.deleted v = true

/-- A round on fresh vertices keeps: a live vertex below `curK` is still to be run, no vertex
of a core set is deleted, and a level is reached only after as many deletions. -/
structure RoundInvariant (curK : Nat) (s : State n) : Prop where
  accounting : Accounting g s
  settled : ∀ v, s.deleted v = false → (s.vertices v).degree < curK →
    s.current v = true ∨ s.pending v = true ∨ s.next v = true
  intact : ∀ T, g.IsCoreSet curK T → ∀ v, T v = true → s.deleted v = false
  level_le : s.level ≤ s.deletedCount
  next_level : (∃ v, s.next v = true) → s.level + 1 ≤ s.deletedCount

namespace RoundInvariant

variable {g} {curK : Nat} {s : State n} {v : Fin n}

theorem start : RoundInvariant g curK ((State.init g).start g curK) where
  accounting := Accounting.init.start ⟨fun _ => ⟨rfl, rfl⟩, fun _ => rfl⟩
  settled v _ low := .inl (by simpa [activateKFilter, State.init, KcoreVertex.create] using low)
  intact _ _ _ _ := rfl
  level_le := Nat.zero_le _
  next_level := by simp [State.init]

theorem core_keeps (inv : RoundInvariant g curK s) {T : Fin n → Bool}
    (core : g.IsCoreSet curK T) (member : T v = true) : (s.vertices v).deletes curK = false := by
  have alive := inv.intact T core v member
  have outside : (g.neighbors v).countP s.deleted ≤ (g.neighbors v).countP fun u => !T u :=
    List.countP_mono_left fun u _ gone => by
      cases inT : T u
      · rfl
      · simp [inv.intact T core u inT] at gone
  have := inv.accounting.conserved v
  have := inv.accounting.degree v
  have := inv.accounting.applied_alive v alive
  have := g.degreeIn_add_compl T v
  have := core v member
  simp only [State.deleted] at alive
  simp only [KcoreVertex.deletes, alive, Bool.not_false, Bool.true_and, decide_eq_false_iff_not]
  omega

theorem deliver (inv : RoundInvariant g curK s) (active : s.current v = true)
    (waiting : 0 < s.inbox v) : RoundInvariant g curK (s.deliver v) where
  accounting := inv.accounting.deliver waiting
  settled w alive low := by
    by_cases same : w = v
    · subst same; exact .inl active
    · simp only [State.deliver_deleted] at alive
      simp only [State.deliver_vertices, Function.update_noteq same] at low
      simpa using inv.settled w alive low
  intact := by simpa using inv.intact
  level_le := by simpa [State.deletedCount] using inv.level_le
  next_level := by simpa [State.deletedCount] using inv.next_level

theorem dispatch (inv : RoundInvariant g curK s) (empty : s.inbox v = 0) :
    RoundInvariant g curK (s.dispatch curK v) where
  accounting := inv.accounting.dispatch empty
  settled w alive low := by
    by_cases same : w = v
    · subst same
      exact .inr (.inl (by simpa using KcoreVertex.run_of_alive alive (Nat.le_of_lt low)))
    · simpa [same] using inv.settled w alive low
  intact := inv.intact
  level_le := inv.level_le
  next_level := inv.next_level

theorem complete (inv : RoundInvariant g curK s) : RoundInvariant g curK (s.complete g curK v) := by
  cases deleting : (s.vertices v).deletes curK
  · rw [State.complete_of_keeps g curK s v deleting]
    refine { inv with accounting := ?_, settled := ?_ }
    · have accounting : Accounting g (s.complete g curK v) := inv.accounting.complete
      simpa [State.complete_of_keeps g curK s v deleting] using accounting
    · intro w alive low
      by_cases same : w = v
      · subst same
        simp [KcoreVertex.deletes, State.deleted] at deleting alive
        exact absurd (deleting alive) (Nat.not_le.mpr low)
      · simpa [same] using inv.settled w alive low
  · have accounting : Accounting g (s.complete g curK v) := inv.accounting.complete
    rw [State.complete_of_deletes g curK s v deleting] at accounting ⊢
    have alive : s.deleted v = false := by
      simp only [KcoreVertex.deletes, Bool.and_eq_true, Bool.not_eq_true'] at deleting
      exact deleting.1
    have counted := deletedCount_update alive
    have level := inv.level_le
    constructor
    · exact accounting
    · intro w fresh low
      have other : w ≠ v := by rintro rfl; simp [State.deleted] at fresh
      have := inv.settled w (by simpa [State.deleted, other] using fresh) (by simpa [other] using low)
      simp only [Function.update_noteq other]
      rcases this with h | h | h <;> simp [h]
    · intro T core w member
      by_cases same : w = v
      · subst same
        rw [inv.core_keeps core member] at deleting
        cases deleting
      · simpa [State.deleted, same] using inv.intact T core w member
    · show s.level ≤ (Finset.univ.filter fun w =>
        (Function.update s.vertices v { s.vertices v with deleted := true } w).deleted = true).card
      simp only [Accounting.deleted_update, counted]
      omega
    · intro _
      show s.level + 1 ≤ (Finset.univ.filter fun w =>
        (Function.update s.vertices v { s.vertices v with deleted := true } w).deleted = true).card
      simp only [Accounting.deleted_update, counted]
      omega

theorem progressNextLevel (inv : RoundInvariant g curK s) (idle : s.Idle)
    (activated : ∃ v, s.next v = true) : RoundInvariant g curK s.progressNextLevel where
  accounting := inv.accounting.progressNextLevel idle
  settled w alive low := by
    rcases inv.settled w alive low with h | h | h
    · simp [(idle w).1] at h
    · simp [(idle w).2] at h
    · exact .inl h
  intact := inv.intact
  level_le := inv.next_level activated
  next_level := by simp

theorem step {e : Event n} {s' : State n} (inv : RoundInvariant g curK s)
    (stepped : step g curK e s = some s') : RoundInvariant g curK s' := by
  rcases step_cases stepped with ⟨v, active, waiting, rfl⟩ | ⟨v, -, empty, rfl⟩ |
    ⟨v, -, rfl⟩ | ⟨idle, activated, rfl⟩
  · exact inv.deliver active waiting
  · exact inv.dispatch empty
  · exact inv.complete
  · exact inv.progressNextLevel idle activated

end RoundInvariant

end Graphyti.KCore
