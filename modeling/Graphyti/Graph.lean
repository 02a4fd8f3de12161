import Mathlib.Data.Fintype.Card

/-! Directed multigraphs as the FlashGraph vertex index presents them: ids are `Fin n`,
an edge is listed once per copy and self-loops are allowed. The k-core is stated here
as a set property, apart from how the engine computes it. -/
namespace Graphyti

structure Graph (n : Nat) where
  edges : List (Fin n × Fin n)

namespace Graph

variable {n : Nat} (g : Graph n)

/-- Sources of the in-edges of `v`, one per edge: the receivers of an `IN_EDGE` multicast. -/
def inNeighbors (v : Fin n) : List (Fin n) :=
  (g.edges.filter fun e => e.2 == v).map Prod.fst

/-- Destinations of the out-edges of `v`: the receivers of an `OUT_EDGE` multicast. -/
def outNeighbors (v : Fin n) : List (Fin n) :=
  (g.edges.filter fun e => e.1 == v).map Prod.snd

/-- The other end of every edge of `v`, in-edges first, as `multicast_delete_msg` is called. -/
def neighbors (v : Fin n) : List (Fin n) := g.inNeighbors v ++ g.outNeighbors v

def numInEdges (v : Fin n) : Nat := (g.inNeighbors v).length

def numOutEdges (v : Fin n) : Nat := (g.outNeighbors v).length

/-- `in_S(v) + out_S(v)`: the edges of `v` whose other end lies in `S`, with multiplicity. -/
def degreeIn (S : Fin n → Bool) (v : Fin n) : Nat := (g.neighbors v).countP S

/-- Every member of `S` keeps at least `k` of its edges inside `S`. -/
def IsCoreSet (k : Nat) (S : Fin n → Bool) : Prop := ∀ v, S v = true → k ≤ g.degreeIn S v

/-- `S` is the k-core: a core set that contains every other core set. -/
def IsKCore (k : Nat) (S : Fin n → Bool) : Prop :=
  g.IsCoreSet k S ∧ ∀ T, g.IsCoreSet k T → ∀ v, T v = true → S v = true

instance (k : Nat) (S : Fin n → Bool) : Decidable (g.IsCoreSet k S) :=
  inferInstanceAs (Decidable (∀ v, S v = true → k ≤ g.degreeIn S v))

theorem numInEdges_add_numOutEdges (v : Fin n) :
    g.numInEdges v + g.numOutEdges v = (g.neighbors v).length := by
  simp [numInEdges, numOutEdges, neighbors]

theorem count_inNeighbors (u w : Fin n) : (g.inNeighbors u).count w = g.edges.count (w, u) := by
  simp only [inNeighbors, List.count, List.countP_map, List.countP_filter]
  exact List.countP_congr fun e _ => by simp [Prod.ext_iff, and_comm]

theorem count_outNeighbors (u w : Fin n) : (g.outNeighbors u).count w = g.edges.count (u, w) := by
  simp only [outNeighbors, List.count, List.countP_map, List.countP_filter]
  exact List.countP_congr fun e _ => by simp [Prod.ext_iff, and_comm]

/-- The messages `w` gets when `u` is deleted are the edges `w` loses. -/
theorem count_neighbors_comm (u w : Fin n) :
    (g.neighbors u).count w = (g.neighbors w).count u := by
  simp only [neighbors, List.count_append, count_inNeighbors, count_outNeighbors]
  omega

theorem countP_update_true (l : List (Fin n)) (S : Fin n → Bool) (u : Fin n)
    (absent : S u = false) :
    l.countP (Function.update S u true) = l.countP S + l.count u := by
  induction l with
  | nil => rfl
  | cons w l ih =>
    by_cases same : w = u
    · subst same; simp [List.countP_cons, List.count_cons, ih, absent]; omega
    · simp [List.countP_cons, List.count_cons, ih, same]; omega

theorem degreeIn_add_compl (S : Fin n → Bool) (v : Fin n) :
    g.degreeIn S v + (g.neighbors v).countP (fun u => !S u) = (g.neighbors v).length := by
  rw [degreeIn, List.length_eq_countP_add_countP (fun u => S u)]
  simp

end Graph

end Graphyti
