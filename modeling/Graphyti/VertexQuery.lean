import Graphyti.KCoreEngine
import Mathlib.Data.Fintype.Card
import Mathlib.Data.Finset.Lattice.Fold
import Mathlib.Data.Nat.Lattice

/-! `query_on_all` splits the vertices among the original query and its clones and merges
the clones back in some order. `MergePlan` is any such split and merge tree. A query whose
`merge` is associative and commutative with the fresh query as unit, and whose `run` is a
merge with one vertex's contribution, gives the same answer for every plan. -/
namespace Graphyti.KCore

/-- A leaf is one query object with the vertices it runs in order; `merge a b` is `a.merge(b)`,
the query of `b` merged into that of `a`. -/
inductive MergePlan (n : Nat)
  | query (vertices : List (Fin n))
  | merge (into other : MergePlan n)

namespace MergePlan

def vertices : MergePlan n → List (Fin n)
  | query vs => vs
  | merge a b => a.vertices ++ b.vertices

/-- Every vertex is run by exactly one query object. -/
def Covers (plan : MergePlan n) : Prop := plan.vertices.Perm (List.finRange n)

end MergePlan

/-- A `vertex_query` subclass over its state `σ`; `clone()` and the constructor give `fresh`. -/
structure VertexQuery (σ : Type) (n : Nat) where
  fresh : σ
  run : σ → Fin n → σ
  merge : σ → σ → σ

namespace VertexQuery

variable {σ : Type} {n : Nat} (q : VertexQuery σ n)

def onAll : MergePlan n → σ
  | .query vs => vs.foldl q.run q.fresh
  | .merge a b => q.merge (onAll a) (onAll b)

/-- The algebra that makes the split and the merge order irrelevant. -/
structure Lawful : Prop where
  merge_fresh : ∀ a, q.merge a q.fresh = a
  merge_assoc : ∀ a b c, q.merge (q.merge a b) c = q.merge a (q.merge b c)
  merge_comm : ∀ a b, q.merge a b = q.merge b a
  run_merge : ∀ a v, q.run a v = q.merge a (q.run q.fresh v)

variable {q}

theorem Lawful.foldl_run (lawful : q.Lawful) (vs : List (Fin n)) (a : σ) :
    vs.foldl q.run a = q.merge a (vs.foldl q.run q.fresh) := by
  induction vs generalizing a with
  | nil => simp [lawful.merge_fresh]
  | cons v vs ih =>
    simp only [List.foldl_cons]
    rw [ih, ih (q.run q.fresh v), lawful.run_merge a v, lawful.merge_assoc]

theorem Lawful.onAll_eq (lawful : q.Lawful) (plan : MergePlan n) :
    q.onAll plan = plan.vertices.foldl q.run q.fresh := by
  induction plan with
  | query vs => rfl
  | merge a b iha ihb =>
    simp only [onAll, MergePlan.vertices, List.foldl_append, iha, ihb]
    exact (lawful.foldl_run _ _).symm

theorem Lawful.onAll_covers (lawful : q.Lawful) {plan : MergePlan n} (covers : plan.Covers) :
    q.onAll plan = (List.finRange n).foldl q.run q.fresh := by
  rw [lawful.onAll_eq]
  refine covers.foldl_eq' (fun x _ y _ z => ?_) _
  rw [lawful.run_merge (q.run z x) y, lawful.run_merge z x, lawful.run_merge (q.run z y) x,
    lawful.run_merge z y, lawful.merge_assoc, lawful.merge_assoc,
    lawful.merge_comm (q.run q.fresh x)]

end VertexQuery

/-- `count_vertex_query`: the number of deleted vertices. -/
def countVertexQuery (vertices : Fin n → KcoreVertex) : VertexQuery Nat n where
  fresh := 0
  run num v := if (vertices v).deleted then num + 1 else num
  merge num other := num + other

/-- `graph_engine::get_vertex_edges`: the edge count recovered from the vertex's index size. -/
def getVertexEdges (vertexHeaderSize extMemSize : Nat) : Nat :=
  (extMemSize - vertexHeaderSize) / 4

/-- `max_degree_query` over the edge counts `graph.get_vertex_edges` returns. -/
def maxDegreeQuery (vertexEdges : Fin n → Nat) : VertexQuery Nat n where
  fresh := 0
  run maxDegree v := if vertexEdges v > maxDegree then vertexEdges v else maxDegree
  merge maxDegree other := if maxDegree < other then other else maxDegree

/-- Modelled from the spec: a directed vertex's index size is its header and its in- and
out-edge lists (the vertex format is not in the source). -/
def directedExtMemSize (g : Graph n) (vertexHeaderSize : Nat) (v : Fin n) : Nat :=
  vertexHeaderSize + 4 * (g.numInEdges v + g.numOutEdges v)

theorem getVertexEdges_directed (g : Graph n) (vertexHeaderSize : Nat) (v : Fin n) :
    getVertexEdges vertexHeaderSize (directedExtMemSize g vertexHeaderSize v) =
      g.numInEdges v + g.numOutEdges v := by
  simp [getVertexEdges, directedExtMemSize]

theorem countVertexQuery_lawful (vertices : Fin n → KcoreVertex) :
    (countVertexQuery vertices).Lawful where
  merge_fresh _ := rfl
  merge_assoc := Nat.add_assoc
  merge_comm := Nat.add_comm
  run_merge a v := by simp only [countVertexQuery]; split <;> rfl

theorem maxDegreeQuery_lawful (vertexEdges : Fin n → Nat) : (maxDegreeQuery vertexEdges).Lawful where
  merge_fresh a := by simp [maxDegreeQuery]
  merge_assoc a b c := by simp only [maxDegreeQuery]; split_ifs <;> omega
  merge_comm a b := by simp only [maxDegreeQuery]; split_ifs <;> omega
  run_merge a v := by simp only [maxDegreeQuery]; split_ifs <;> omega

theorem countVertexQuery_finRange (vertices : Fin n → KcoreVertex) :
    (List.finRange n).foldl (countVertexQuery vertices).run 0 =
      (Finset.univ.filter fun v => (vertices v).deleted = true).card := by
  have counted : ∀ (vs : List (Fin n)) (a : Nat),
      vs.foldl (countVertexQuery vertices).run a = a + vs.countP fun v => (vertices v).deleted := by
    intro vs
    induction vs with
    | nil => simp
    | cons v vs ih =>
      intro a
      rw [List.foldl_cons, ih, List.countP_cons]
      simp only [countVertexQuery]
      split <;> omega
  rw [counted, Nat.zero_add, List.countP_eq_length_filter, ← List.toFinset_card_of_nodup
    ((List.nodup_finRange n).filter _), List.toFinset_filter, List.toFinset_finRange]

theorem maxDegreeQuery_finRange (vertexEdges : Fin n → Nat) :
    (List.finRange n).foldl (maxDegreeQuery vertexEdges).run 0 = Finset.univ.sup vertexEdges := by
  have folded : ∀ (vs : List (Fin n)) (a : Nat),
      vs.foldl (maxDegreeQuery vertexEdges).run a = max a (vs.toFinset.sup vertexEdges) := by
    intro vs
    induction vs with
    | nil => simp
    | cons v vs ih =>
      intro a
      rw [List.foldl_cons, ih, List.toFinset_cons, Finset.sup_insert]
      simp only [maxDegreeQuery, max_def]
      split_ifs <;> omega
  rw [folded, List.toFinset_finRange]
  simp

/-- For every plan `count_vertex_query` counts the deleted vertices and `max_degree_query`
returns the largest `get_vertex_edges`; the directed conjunct holds by `directedExtMemSize`. -/
theorem query_on_all_results (g : Graph n) (vertices : Fin n → KcoreVertex)
    (vertexHeaderSize : Nat) (extMemSize : Fin n → Nat) (plan : MergePlan n)
    (covers : plan.Covers) :
    (countVertexQuery vertices).onAll plan =
      (Finset.univ.filter fun v => (vertices v).deleted = true).card ∧
    (maxDegreeQuery fun v => getVertexEdges vertexHeaderSize (extMemSize v)).onAll plan =
      Finset.univ.sup (fun v => getVertexEdges vertexHeaderSize (extMemSize v)) ∧
    (extMemSize = directedExtMemSize g vertexHeaderSize →
      (maxDegreeQuery fun v => getVertexEdges vertexHeaderSize (extMemSize v)).onAll plan =
        Finset.univ.sup fun v => g.numInEdges v + g.numOutEdges v) := by
  have count := (countVertexQuery_lawful vertices).onAll_covers covers
  have maxDegree := (maxDegreeQuery_lawful fun v =>
    getVertexEdges vertexHeaderSize (extMemSize v)).onAll_covers covers
  refine ⟨count.trans (countVertexQuery_finRange vertices),
    maxDegree.trans (maxDegreeQuery_finRange _), fun directed => ?_⟩
  rw [maxDegree.trans (maxDegreeQuery_finRange _), directed]
  simp only [getVertexEdges_directed]

def splitPlan : MergePlan 2 := .merge (.query [0]) (.query [1])

theorem query_on_all_results_split :
    (countVertexQuery fun _ : Fin 2 => (⟨true, 1⟩ : KcoreVertex)).onAll splitPlan = 2 ∧
    (maxDegreeQuery fun v => getVertexEdges 0 (directedExtMemSize (⟨[(0, 1)]⟩ : Graph 2) 0 v)).onAll
      splitPlan = Finset.univ.sup fun v => (⟨[(0, 1)]⟩ : Graph 2).numInEdges v +
        (⟨[(0, 1)]⟩ : Graph 2).numOutEdges v := by
  have results := query_on_all_results ⟨[(0, 1)]⟩ (fun _ => ⟨true, 1⟩) 0
    (directedExtMemSize ⟨[(0, 1)]⟩ 0) splitPlan (by unfold MergePlan.Covers; decide)
  exact ⟨results.1, results.2.2 rfl⟩

end Graphyti.KCore
