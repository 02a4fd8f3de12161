import Graphyti.Graph

/-! The k-core application on the level-synchronous engine. `KcoreVertex` is the vertex
state of `k_core.cpp` with its three callbacks. The engine around it (`graph_engine`,
`start`, `multicast_msg`, the level barrier) is not in the source, so `State` and `step`
are modelled from the spec: one atomic event of an arbitrary interleaving is a message
delivery, a dispatch calling `run(prog)`, an I/O completion calling `run(prog, vertex)`,
or the barrier between levels. A `deleted_message` carries nothing, so an inbox is a count. -/
namespace Graphyti.KCore

/-- `vsize_t` is unsigned 32-bit: `degree--` at zero would wrap to this value. -/
def vsizeMax : Nat := 2 ^ 32 - 1

def vsizeDec (d : Nat) : Nat := if d = 0 then vsizeMax else d - 1

theorem vsizeDec_of_pos {d : Nat} (positive : 0 < d) : vsizeDec d = d - 1 := by
  simp [vsizeDec, Nat.pos_iff_ne_zero.mp positive]

structure KcoreVertex where
  deleted : Bool
  degree : Nat
  deriving DecidableEq, Repr

namespace KcoreVertex

/-- The constructor: not deleted, degree taken from the index. -/
def create (g : Graph n) (v : Fin n) : KcoreVertex :=
  ⟨false, g.numInEdges v + g.numOutEdges v⟩

/-- `run(vertex_program &)`: whether the vertex requests its own edge list. -/
def run (curK : Nat) (v : KcoreVertex) : Bool :=
  if v.degree > curK then false else !v.deleted

/-- `run(prog, page_vertex)`: the vertex afterwards, and whether it took the delete branch. -/
def runPage (curK : Nat) (v : KcoreVertex) : KcoreVertex × Bool :=
  if v.deleted then (v, false)
  else if v.degree < curK then ({ v with deleted := true }, true)
  else (v, false)

def runOnMessage (v : KcoreVertex) : KcoreVertex :=
  if v.deleted then v else { v with degree := vsizeDec v.degree }

def deletes (curK : Nat) (v : KcoreVertex) : Bool := !v.deleted && decide (v.degree < curK)

theorem runPage_eq (curK : Nat) (v : KcoreVertex) :
    v.runPage curK = if v.deletes curK then ({ v with deleted := true }, true) else (v, false) := by
  cases v with
  | mk deleted degree => cases deleted <;> by_cases lt : degree < curK <;> simp [runPage, deletes, lt]

@[simp] theorem runOnMessage_deleted (v : KcoreVertex) : v.runOnMessage.deleted = v.deleted := by
  unfold runOnMessage; split <;> rfl

theorem run_of_alive {curK : Nat} {v : KcoreVertex} (alive : v.deleted = false)
    (low : v.degree ≤ curK) : v.run curK = true := by
  simp [run, alive, Nat.not_lt.mpr low]

end KcoreVertex

/-- `activate_k_filter::keep`: in- plus out-degree from the index, not the degree field. -/
def activateKFilter (g : Graph n) (min : Nat) (v : Fin n) : Bool :=
  decide (g.numInEdges v + g.numOutEdges v < min)

/-- Modelled from the spec: the vertex array and the engine's queues (`current`, `pending`,
`next`) and message counts; `received`, `applied` and `deletions` are ghost counters. -/
structure State (n : Nat) where
  vertices : Fin n → KcoreVertex
  current : Fin n → Bool
  pending : Fin n → Bool
  next : Fin n → Bool
  inbox : Fin n → Nat
  outbox : Fin n → Nat
  level : Nat
  received : Fin n → Nat
  applied : Fin n → Nat
  deletions : Fin n → Nat

namespace State

variable {n : Nat} (g : Graph n) (curK : Nat) (s : State n) (v : Fin n)

/-- Modelled from the spec: the vertex array `graph_engine::create` builds. -/
def init : State n where
  vertices := KcoreVertex.create g
  current := fun _ => false
  pending := fun _ => false
  next := fun _ => false
  inbox := fun _ => 0
  outbox := fun _ => 0
  level := 0
  received := fun _ => 0
  applied := fun _ => 0
  deletions := fun _ => 0

/-- Modelled from the spec: `graph->start(filter)` seeds level zero. -/
def start : State n := { s with current := activateKFilter g curK, level := 0 }

/-- Modelled from the spec: one delivered `deleted_message` and its `run_on_message`. -/
def deliver : State n :=
  { s with
    vertices := Function.update s.vertices v (s.vertices v).runOnMessage
    inbox := Function.update s.inbox v (s.inbox v - 1)
    received := Function.update s.received v (s.received v + 1)
    applied := Function.update s.applied v
      (s.applied v + if (s.vertices v).deleted then 0 else 1) }

/-- Modelled from the spec: the engine dispatches `v` and calls `run(prog)`. -/
def dispatch : State n :=
  { s with
    current := Function.update s.current v false
    pending := Function.update s.pending v ((s.vertices v).run curK) }

/-- Modelled from the spec: `multicast_msg`, one message per edge, receivers activated. -/
def multicastDeleteMsg (dests : List (Fin n)) : State n :=
  { s with
    outbox := fun w => s.outbox w + dests.count w
    next := fun w => s.next w || dests.contains w }

/-- Modelled from the spec: the edge list of `v` arrives and `run(prog, page_vertex)` runs. -/
def complete : State n :=
  let waited := { s with pending := Function.update s.pending v false }
  match (s.vertices v).runPage curK with
  | (vertex, true) =>
    (({ waited with
        vertices := Function.update s.vertices v vertex
        deletions := Function.update s.deletions v (s.deletions v + 1) }).multicastDeleteMsg
      (g.inNeighbors v)).multicastDeleteMsg (g.outNeighbors v)
  | (vertex, false) => { waited with vertices := Function.update s.vertices v vertex }

/-- Modelled from the spec: the barrier makes the next level's queues current. -/
def progressNextLevel : State n :=
  { s with
    level := s.level + 1
    current := s.next
    next := fun _ => false
    inbox := s.outbox
    outbox := fun _ => 0 }

def Idle : Prop := ∀ v, s.current v = false ∧ s.pending v = false

def Quiescent : Prop := s.Idle ∧ ∀ v, s.next v = false

instance : Decidable s.Idle :=
  inferInstanceAs (Decidable (∀ v, s.current v = false ∧ s.pending v = false))

instance : Decidable s.Quiescent := inferInstanceAs (Decidable (_ ∧ _))

def deleted : Fin n → Bool := fun v => (s.vertices v).deleted

def alive : Fin n → Bool := fun v => !(s.vertices v).deleted

def deletedCount : Nat := (Finset.univ.filter fun v => s.deleted v = true).card

@[simp] theorem deliver_vertices : (s.deliver v).vertices =
    Function.update s.vertices v (s.vertices v).runOnMessage := rfl
@[simp] theorem deliver_current : (s.deliver v).current = s.current := rfl
@[simp] theorem deliver_pending : (s.deliver v).pending = s.pending := rfl
@[simp] theorem deliver_next : (s.deliver v).next = s.next := rfl
@[simp] theorem deliver_inbox : (s.deliver v).inbox = Function.update s.inbox v (s.inbox v - 1) :=
  rfl
@[simp] theorem deliver_outbox : (s.deliver v).outbox = s.outbox := rfl
@[simp] theorem deliver_level : (s.deliver v).level = s.level := rfl
@[simp] theorem deliver_received :
    (s.deliver v).received = Function.update s.received v (s.received v + 1) := rfl
@[simp] theorem deliver_applied : (s.deliver v).applied = Function.update s.applied v
    (s.applied v + if (s.vertices v).deleted then 0 else 1) := rfl
@[simp] theorem deliver_deletions : (s.deliver v).deletions = s.deletions := rfl

@[simp] theorem dispatch_vertices : (s.dispatch curK v).vertices = s.vertices := rfl
@[simp] theorem dispatch_current :
    (s.dispatch curK v).current = Function.update s.current v false := rfl
@[simp] theorem dispatch_pending :
    (s.dispatch curK v).pending = Function.update s.pending v ((s.vertices v).run curK) := rfl
@[simp] theorem dispatch_next : (s.dispatch curK v).next = s.next := rfl
@[simp] theorem dispatch_inbox : (s.dispatch curK v).inbox = s.inbox := rfl
@[simp] theorem dispatch_outbox : (s.dispatch curK v).outbox = s.outbox := rfl
@[simp] theorem dispatch_level : (s.dispatch curK v).level = s.level := rfl
@[simp] theorem dispatch_received : (s.dispatch curK v).received = s.received := rfl
@[simp] theorem dispatch_applied : (s.dispatch curK v).applied = s.applied := rfl
@[simp] theorem dispatch_deletions : (s.dispatch curK v).deletions = s.deletions := rfl

@[simp] theorem progressNextLevel_vertices : s.progressNextLevel.vertices = s.vertices := rfl
@[simp] theorem progressNextLevel_current : s.progressNextLevel.current = s.next := rfl
@[simp] theorem progressNextLevel_pending : s.progressNextLevel.pending = s.pending := rfl
@[simp] theorem progressNextLevel_next : s.progressNextLevel.next = fun _ => false := rfl
@[simp] theorem progressNextLevel_inbox : s.progressNextLevel.inbox = s.outbox := rfl
@[simp] theorem progressNextLevel_outbox : s.progressNextLevel.outbox = fun _ => 0 := rfl
@[simp] theorem progressNextLevel_level : s.progressNextLevel.level = s.level + 1 := rfl
@[simp] theorem progressNextLevel_received : s.progressNextLevel.received = s.received := rfl
@[simp] theorem progressNextLevel_applied : s.progressNextLevel.applied = s.applied := rfl
@[simp] theorem progressNextLevel_deletions : s.progressNextLevel.deletions = s.deletions := rfl

@[simp] theorem init_deleted : (init g).deleted = fun _ => false := rfl

@[simp] theorem start_vertices : (s.start g curK).vertices = s.vertices := rfl
@[simp] theorem start_current : (s.start g curK).current = activateKFilter g curK := rfl
@[simp] theorem start_pending : (s.start g curK).pending = s.pending := rfl
@[simp] theorem start_next : (s.start g curK).next = s.next := rfl
@[simp] theorem start_inbox : (s.start g curK).inbox = s.inbox := rfl
@[simp] theorem start_outbox : (s.start g curK).outbox = s.outbox := rfl
@[simp] theorem start_level : (s.start g curK).level = 0 := rfl
@[simp] theorem start_deleted : (s.start g curK).deleted = s.deleted := rfl

@[simp] theorem deliver_deleted : (s.deliver v).deleted = s.deleted := by
  funext w
  by_cases same : w = v
  · subst same; simp [deleted]
  · simp [deleted, same]

@[simp] theorem dispatch_deleted : (s.dispatch curK v).deleted = s.deleted := rfl
@[simp] theorem progressNextLevel_deleted : s.progressNextLevel.deleted = s.deleted := rfl

theorem multicastDeleteMsg_append (a b : List (Fin n)) :
    (s.multicastDeleteMsg a).multicastDeleteMsg b = s.multicastDeleteMsg (a ++ b) := by
  simp only [multicastDeleteMsg, List.count_append, List.contains_eq_any_beq, List.any_append,
    Bool.or_assoc, Nat.add_assoc]

theorem complete_of_deletes (deleting : (s.vertices v).deletes curK = true) :
    s.complete g curK v =
      { s with
        pending := Function.update s.pending v false
        vertices := Function.update s.vertices v { s.vertices v with deleted := true }
        deletions := Function.update s.deletions v (s.deletions v + 1)
        outbox := fun w => s.outbox w + (g.neighbors v).count w
        next := fun w => s.next w || (g.neighbors v).contains w } := by
  simp only [complete, KcoreVertex.runPage_eq, deleting, if_true, multicastDeleteMsg_append]
  rfl

theorem complete_of_keeps (keeping : (s.vertices v).deletes curK = false) :
    s.complete g curK v = { s with pending := Function.update s.pending v false } := by
  simp only [complete, KcoreVertex.runPage_eq, keeping]
  simp

@[simp] theorem complete_current : (s.complete g curK v).current = s.current := by
  cases deleting : (s.vertices v).deletes curK
  · rw [complete_of_keeps g curK s v deleting]
  · rw [complete_of_deletes g curK s v deleting]

@[simp] theorem complete_pending :
    (s.complete g curK v).pending = Function.update s.pending v false := by
  cases deleting : (s.vertices v).deletes curK
  · rw [complete_of_keeps g curK s v deleting]
  · rw [complete_of_deletes g curK s v deleting]

@[simp] theorem complete_inbox : (s.complete g curK v).inbox = s.inbox := by
  cases deleting : (s.vertices v).deletes curK
  · rw [complete_of_keeps g curK s v deleting]
  · rw [complete_of_deletes g curK s v deleting]

@[simp] theorem complete_level : (s.complete g curK v).level = s.level := by
  cases deleting : (s.vertices v).deletes curK
  · rw [complete_of_keeps g curK s v deleting]
  · rw [complete_of_deletes g curK s v deleting]

end State

inductive Event (n : Nat)
  | deliver (v : Fin n)
  | run (v : Fin n)
  | complete (v : Fin n)
  | barrier
  deriving DecidableEq, Repr

/-- Modelled from the spec: one atomic event, `none` where the engine cannot take it;
messages reach a vertex before its `run`, and the barrier waits for every dispatch. -/
def step (g : Graph n) (curK : Nat) : Event n → State n → Option (State n)
  | .deliver v, s => if s.current v ∧ 0 < s.inbox v then some (s.deliver v) else none
  | .run v, s => if s.current v ∧ s.inbox v = 0 then some (s.dispatch curK v) else none
  | .complete v, s => if s.pending v then some (s.complete g curK v) else none
  | .barrier, s => if s.Idle ∧ ∃ v, s.next v then some s.progressNextLevel else none

def execute (g : Graph n) (curK : Nat) : List (Event n) → State n → Option (State n)
  | [], s => some s
  | e :: es, s => (step g curK e s).bind (execute g curK es)

section Cases

variable {n : Nat} {g : Graph n} {curK : Nat} {e : Event n} {s s' : State n}

/-- Everything one event can do, guards included. -/
theorem step_cases (stepped : step g curK e s = some s') :
    (∃ v, s.current v = true ∧ 0 < s.inbox v ∧ s' = s.deliver v) ∨
    (∃ v, s.current v = true ∧ s.inbox v = 0 ∧ s' = s.dispatch curK v) ∨
    (∃ v, s.pending v = true ∧ s' = s.complete g curK v) ∨
    (s.Idle ∧ (∃ v, s.next v = true) ∧ s' = s.progressNextLevel) := by
  cases e with
  | deliver v =>
    simp only [step] at stepped; split at stepped
    · exact .inl ⟨v, ‹_ ∧ _›.1, ‹_ ∧ _›.2, (Option.some.inj stepped).symm⟩
    · cases stepped
  | run v =>
    simp only [step] at stepped; split at stepped
    · exact .inr (.inl ⟨v, ‹_ ∧ _›.1, ‹_ ∧ _›.2, (Option.some.inj stepped).symm⟩)
    · cases stepped
  | complete v =>
    simp only [step] at stepped; split at stepped
    · exact .inr (.inr (.inl ⟨v, ‹_›, (Option.some.inj stepped).symm⟩))
    · cases stepped
  | barrier =>
    simp only [step] at stepped; split at stepped
    · exact .inr (.inr (.inr ⟨‹_ ∧ _›.1, ‹_ ∧ _›.2, (Option.some.inj stepped).symm⟩))
    · cases stepped

end Cases

end Graphyti.KCore
