import HiDANN.Library.Scatter
import Mathlib.Tactic.NormNum

/-! What the edges of a graph contribute to the symmetric candidates. A node
gives its own row its neighbours, and the row of each neighbour itself, once for
every occurrence. The row of a node collects these in the order of the nodes; an
edge counts once on either side, so the multiplicities are symmetric. -/

namespace HiDANN.Reverse

open Scatter

/-! ### Contributions -/

/-- What a node contributes: its neighbours to itself, itself to each neighbour. -/
def chunks (u : ℕ) (nbr : List ℕ) : List (ℕ × List ℕ) := (u, nbr) :: nbr.map fun v => (v, [u])

/-- The contributions of the nodes below `n`, in order. -/
def contributions (n : ℕ) (nbr : ℕ → List ℕ) : List (ℕ × List ℕ) :=
  (List.range n).flatMap fun u => chunks u (nbr u)

/-- The row of `v`: the neighbours of `v` where `v` comes among the nodes, and each
node once for every occurrence of `v` among its neighbours. -/
def candidateRow (n : ℕ) (nbr : ℕ → List ℕ) (v : ℕ) : List ℕ :=
  (List.range n).flatMap fun u =>
    (if u = v then nbr v else []) ++ List.replicate ((nbr u).count v) u

theorem row_chunks (u v : ℕ) (nbr : List ℕ) : row (chunks u nbr) v =
    (if u = v then nbr else []) ++ List.replicate (nbr.count v) u := by
  rw [chunks, row_cons]
  congr 1
  induction nbr with
  | nil => rfl
  | cons w nbr ih =>
    rw [List.map_cons, row_cons, ih, List.count_cons]
    by_cases h : w = v
    · simp [h, List.replicate_succ]
    · simp [h]

theorem row_contributions (n : ℕ) (nbr : ℕ → List ℕ) (v : ℕ) :
    row (contributions n nbr) v = candidateRow n nbr v := by
  rw [contributions, row_flatMap, candidateRow]
  refine List.flatMap_congr fun u _ => ?_
  rw [row_chunks]
  by_cases h : u = v
  · rw [h]
  · simp [h]

theorem candidateRow_succ (n : ℕ) (nbr : ℕ → List ℕ) (v : ℕ) : candidateRow (n + 1) nbr v =
    candidateRow n nbr v ++
      ((if n = v then nbr v else []) ++ List.replicate ((nbr n).count v) n) := by
  rw [candidateRow, List.range_succ, List.flatMap_append, ← candidateRow, List.flatMap_singleton]

section Graph

variable {N : ℕ} {nbr : ℕ → List ℕ}

/-- A node comes in a row once for every edge between the two, in either direction. -/
theorem count_candidateRow (n u v : ℕ) : (candidateRow n nbr v).count u =
    (if v < n then (nbr v).count u else 0) + if u < n then (nbr u).count v else 0 := by
  induction n with
  | zero => rfl
  | succ n ih =>
    rw [candidateRow_succ, List.count_append, List.count_append, ih, List.count_replicate]
    have h1 : (if n = v then nbr v else []).count u = if n = v then (nbr v).count u else 0 := by
      split_ifs <;> rfl
    have h2 : (if (n == u) = true then (nbr n).count v else 0) =
        if n = u then (nbr u).count v else 0 := by
      by_cases h : n = u <;> simp [h]
    rw [h1, h2]
    split_ifs <;> omega

theorem length_candidateRow (n v : ℕ) : (candidateRow n nbr v).length =
    (if v < n then (nbr v).length else 0) + offset (fun u => (nbr u).count v) n := by
  induction n with
  | zero => rfl
  | succ n ih =>
    rw [candidateRow_succ, List.length_append, List.length_append, ih, List.length_replicate,
      offset]
    have h : (if n = v then nbr v else []).length = if n = v then (nbr v).length else 0 := by
      split_ifs <;> rfl
    rw [h]
    split_ifs <;> omega

variable (hid : ∀ u < N, ∀ v ∈ nbr u, v < N)

include hid

theorem contributions_key_lt : ∀ p ∈ contributions N nbr, p.1 < N := by
  intro p hp
  simp only [contributions, chunks, List.mem_flatMap, List.mem_range, List.mem_cons,
    List.mem_map] at hp
  obtain ⟨u, hu, rfl | ⟨v, hv, rfl⟩⟩ := hp
  · exact hu
  · exact hid u hu v hv

theorem candidateRow_lt (v : ℕ) : ∀ u ∈ candidateRow N nbr v, u < N := by
  intro u hu
  simp only [candidateRow, List.mem_flatMap, List.mem_range, List.mem_append] at hu
  obtain ⟨w, hw, hu | hu⟩ := hu
  · split_ifs at hu with h
    · exact hid v (h ▸ hw) u hu
    · cases hu
  · rw [List.eq_of_mem_replicate hu]
    exact hw

/-- All rows together hold every edge twice. -/
theorem total_candidateRow : offset (fun v => (candidateRow N nbr v).length) N =
    2 * offset (fun u => (nbr u).length) N := by
  have hsum := sum_lengths (contributions_key_lt hid)
  simp only [row_contributions] at hsum
  rw [← hsum]
  have hn : ∀ n, ((contributions n nbr).map fun p => p.2.length).sum =
      2 * offset (fun u => (nbr u).length) n := by
    intro n
    induction n with
    | zero => rfl
    | succ n ih =>
      have hnode : ((chunks n (nbr n)).map fun p => p.2.length).sum = 2 * (nbr n).length := by
        simp [chunks, Function.comp_def]
        omega
      rw [contributions, List.range_succ, List.flatMap_append, ← contributions,
        List.flatMap_singleton, List.map_append, List.sum_append, ih, hnode, offset]
      omega
  exact hn N

end Graph

/-! ### Counting -/

def countNode (cnt : ℕ → ℕ) (u : ℕ) (nbr : List ℕ) : ℕ → ℕ :=
  nbr.foldl (fun c v => Function.update c v ((c v + 1) % 2 ^ 32))
    (Function.update cnt u ((cnt u + nbr.length) % 2 ^ 32))

def counts (n : ℕ) (nbr : ℕ → List ℕ) : ℕ → ℕ :=
  (List.range n).foldl (fun c u => countNode c u (nbr u)) fun _ => 0

/-- The counters hold the lengths of the rows, modulo their range. -/
theorem counts_eq (n : ℕ) (nbr : ℕ → List ℕ) (v : ℕ) :
    counts n nbr v = (candidateRow n nbr v).length % 2 ^ 32 := by
  have hnode : ∀ c u, countNode c u (nbr u) =
      (chunks u (nbr u)).foldl (tallyStep (2 ^ 32)) c := by
    intro c u
    rw [chunks, List.foldl_cons, List.foldl_map]
    rfl
  have htally : counts n nbr = tally (2 ^ 32) (contributions n nbr) := by
    rw [counts, tally, contributions, List.foldl_flatMap]
    exact List.foldl_ext _ _ _ fun c u _ => hnode c u
  rw [htally, tally_eq, row_contributions]

end HiDANN.Reverse
