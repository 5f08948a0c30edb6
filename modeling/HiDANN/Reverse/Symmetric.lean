import HiDANN.Reverse.Stripes

/-! The reverse edges are exact. As long as the counters do not wrap, every pass
over the graph finds the contributions that were counted: no cursor leaves its
row, every row is full when its stripe is written, and the candidate files are
those of the symmetric rows, whatever the memory and the stripes it leads to. -/

namespace HiDANN.Reverse

open Bytes Scatter Posix Format

/-! ### The contributions to a stripe -/

def window (lo hi : ℕ) (items : List (ℕ × List ℕ)) : List (ℕ × List UInt8) :=
  (items.filter fun p => lo ≤ p.1 ∧ p.1 < hi).map fun p => (p.1 - lo, cells 4 p.2)

section Window

variable {lo hi : ℕ}

@[simp] theorem window_nil : window lo hi [] = [] := rfl

theorem window_append (xs ys : List (ℕ × List ℕ)) :
    window lo hi (xs ++ ys) = window lo hi xs ++ window lo hi ys := by
  simp [window]

theorem window_in {p : ℕ × List ℕ} (h : lo ≤ p.1 ∧ p.1 < hi) :
    window lo hi [p] = [(p.1 - lo, cells 4 p.2)] := by
  simp [window, h]

theorem window_out {p : ℕ × List ℕ} (h : ¬ (lo ≤ p.1 ∧ p.1 < hi)) : window lo hi [p] = [] := by
  simp [window, h]

theorem row_window (items : List (ℕ × List ℕ)) {i : ℕ} (hi' : i < hi - lo) :
    row (window lo hi items) i = cells 4 (row items (lo + i)) := by
  induction items with
  | nil => rfl
  | cons p items ih =>
    rw [show p :: items = [p] ++ items from rfl, window_append, row_append, ih, row_append,
      cells_append]
    congr 1
    by_cases h : lo ≤ p.1 ∧ p.1 < hi
    · rw [window_in h, row_singleton, row_singleton]
      by_cases he : p.1 = lo + i
      · rw [if_pos (by simp only; omega), if_pos he]
      · rw [if_neg (by simp only; omega), if_neg he, cells_nil]
    · rw [window_out h, row_nil, row_singleton, if_neg (by omega), cells_nil]

end Window

/-! ### Filling -/

section Fill

variable {lo hi stripeBytes : ℕ} {len : ℕ → ℕ} {s : Stripe} {done : List (ℕ × List UInt8)}

/-- A contribution to the stripe stays inside the buffer. -/
theorem cursor_le (hbytes : offset len (hi - lo) = stripeBytes)
    (hs : Filled len (hi - lo) done s) {p : ℕ × List ℕ} (hp : lo ≤ p.1 ∧ p.1 < hi)
    (hlen : ∀ i < hi - lo, (row (done ++ window lo hi [p]) i).length ≤ len i) :
    s.2 (p.1 - lo) + 4 * p.2.length ≤ stripeBytes := by
  have h := hlen (p.1 - lo) (by omega)
  rw [window_in hp] at h
  have := hs.cursor_add_le (p.1 - lo, cells 4 p.2) (by simp only; omega) h
  rw [hbytes, length_cells] at this
  exact this

theorem forwardStep_ok (hbytes : offset len (hi - lo) = stripeBytes)
    (hs : Filled len (hi - lo) done s) (u : ℕ) (nbr : List ℕ)
    (hlen : ∀ i < hi - lo, (row (done ++ window lo hi [(u, nbr)]) i).length ≤ len i) :
    ∃ s', forwardStep lo hi stripeBytes u nbr s = .ok s' ∧
      Filled len (hi - lo) (done ++ window lo hi [(u, nbr)]) s' := by
  unfold forwardStep
  by_cases h : lo ≤ u ∧ u < hi
  · have hle := cursor_le hbytes hs (p := (u, nbr)) h hlen
    simp only at hle
    rw [window_in h] at hlen ⊢
    rw [if_pos h, if_neg (by omega)]
    exact ⟨_, rfl, hs.step _ (by simp only; omega) hlen⟩
  · rw [if_neg h, window_out h, List.append_nil]
    exact ⟨s, rfl, hs⟩

theorem reverseStep_ok (hbytes : offset len (hi - lo) = stripeBytes)
    (hs : Filled len (hi - lo) done s) (u v : ℕ)
    (hlen : ∀ i < hi - lo, (row (done ++ window lo hi [(v, [u])]) i).length ≤ len i) :
    ∃ s', reverseStep lo hi stripeBytes u s v = .ok s' ∧
      Filled len (hi - lo) (done ++ window lo hi [(v, [u])]) s' := by
  unfold reverseStep
  by_cases h : lo ≤ v ∧ v < hi
  · have hle := cursor_le hbytes hs (p := (v, [u])) h hlen
    simp only [List.length_singleton, Nat.mul_one] at hle
    rw [window_in h] at hlen ⊢
    rw [if_pos h, if_neg (by omega)]
    have hcell : cells 4 [u] = le 4 u := by simp
    rw [hcell] at hlen ⊢
    exact ⟨_, rfl, hs.step _ (by simp only; omega) hlen⟩
  · rw [if_neg h, window_out h, List.append_nil]
    exact ⟨s, rfl, hs⟩

/-- A prefix of the contributions does not exceed the counts. -/
theorem row_prefix_le {xs ys : List (ℕ × List UInt8)}
    (hlen : ∀ i < hi - lo, (row (done ++ (xs ++ ys)) i).length ≤ len i) :
    ∀ i < hi - lo, (row (done ++ xs) i).length ≤ len i := by
  intro i h
  have := hlen i h
  simp only [row_append, List.length_append] at this ⊢
  omega

theorem reverse_ok (hbytes : offset len (hi - lo) = stripeBytes)
    (hs : Filled len (hi - lo) done s) (u : ℕ) (vs : List ℕ)
    (hlen : ∀ i < hi - lo,
      (row (done ++ window lo hi (vs.map fun v => (v, [u]))) i).length ≤ len i) :
    ∃ s', vs.foldlM (reverseStep lo hi stripeBytes u) s = .ok s' ∧
      Filled len (hi - lo) (done ++ window lo hi (vs.map fun v => (v, [u]))) s' := by
  induction vs generalizing s done with
  | nil => exact ⟨s, rfl, by simpa using hs⟩
  | cons v vs ih =>
    rw [List.map_cons, show (v, [u]) :: vs.map (fun v => (v, [u])) =
      [(v, [u])] ++ vs.map fun v => (v, [u]) from rfl, window_append] at hlen ⊢
    obtain ⟨s₁, h₁, hs₁⟩ := reverseStep_ok hbytes hs u v (row_prefix_le hlen)
    rw [← List.append_assoc] at hlen ⊢
    obtain ⟨s₂, h₂, hs₂⟩ := ih hs₁ hlen
    exact ⟨s₂, by rw [List.foldlM_cons, h₁]; exact h₂, hs₂⟩

theorem stripeNode_ok (hbytes : offset len (hi - lo) = stripeBytes)
    (hs : Filled len (hi - lo) done s) (nbr : ℕ → List ℕ) (u : ℕ)
    (hlen : ∀ i < hi - lo, (row (done ++ window lo hi (chunks u (nbr u))) i).length ≤ len i) :
    ∃ s', stripeNode lo hi stripeBytes nbr s u = .ok s' ∧
      Filled len (hi - lo) (done ++ window lo hi (chunks u (nbr u))) s' := by
  rw [chunks, show (u, nbr u) :: (nbr u).map (fun v => (v, [u])) =
    [(u, nbr u)] ++ (nbr u).map fun v => (v, [u]) from rfl, window_append] at hlen ⊢
  obtain ⟨s₁, h₁, hs₁⟩ := forwardStep_ok hbytes hs u (nbr u) (row_prefix_le hlen)
  rw [← List.append_assoc] at hlen ⊢
  obtain ⟨s₂, h₂, hs₂⟩ := reverse_ok hbytes hs₁ u (nbr u) hlen
  exact ⟨s₂, by rw [stripeNode, h₁]; exact h₂, hs₂⟩

/-- A scan of the graph keeps every row within its counts. -/
theorem scan_ok (hbytes : offset len (hi - lo) = stripeBytes) (hs : Filled len (hi - lo) done s)
    (nbr : ℕ → List ℕ) (us : List ℕ)
    (hlen : ∀ i < hi - lo,
      (row (done ++ window lo hi (us.flatMap fun u => chunks u (nbr u))) i).length ≤ len i) :
    ∃ s', us.foldlM (stripeNode lo hi stripeBytes nbr) s = .ok s' ∧
      Filled len (hi - lo) (done ++ window lo hi (us.flatMap fun u => chunks u (nbr u))) s' := by
  induction us generalizing s done with
  | nil => exact ⟨s, rfl, by simpa using hs⟩
  | cons u us ih =>
    rw [List.flatMap_cons, window_append] at hlen ⊢
    obtain ⟨s₁, h₁, hs₁⟩ := stripeNode_ok hbytes hs nbr u (row_prefix_le hlen)
    rw [← List.append_assoc] at hlen ⊢
    obtain ⟨s₂, h₂, hs₂⟩ := ih hs₁ hlen
    exact ⟨s₂, by rw [List.foldlM_cons, h₁]; exact h₂, hs₂⟩

end Fill

/-! ### Stripes -/

/-- The lists of a graph file; degrees are 32-bit and neighbours are nodes. -/
structure DirectedGraph where
  adj : List (List ℕ)
  deg_lt : ∀ nb ∈ adj, nb.length < 2 ^ 32
  id_lt : ∀ nb ∈ adj, ∀ v ∈ nb, v < adj.length

namespace DirectedGraph

variable (G : DirectedGraph)

def N : ℕ := G.adj.length

def nbr (u : ℕ) : List ℕ := G.adj.getD u []

def row (v : ℕ) : List ℕ := candidateRow G.N G.nbr v

/-- Ids are 32-bit, and no row is longer than a 32-bit counter. -/
structure Countable : Prop where
  N_le : G.N ≤ 2 ^ 32
  row_lt : ∀ v < G.N, (G.nbr v).length + offset (fun u => (G.nbr u).count v) G.N < 2 ^ 32

theorem nbr_lt : ∀ u < G.N, ∀ v ∈ G.nbr u, v < G.N := by
  intro u hu v hv
  rw [nbr, List.getD_eq_getElem _ _ hu] at hv
  exact G.id_lt _ (List.getElem_mem hu) v hv

variable {G} (hG : G.Countable)

include hG

theorem Countable.length_row {v : ℕ} (hv : v < G.N) : (G.row v).length < 2 ^ 32 := by
  rw [row, length_candidateRow, if_pos hv]
  exact hG.row_lt v hv

theorem Countable.counts {v : ℕ} (hv : v < G.N) : counts G.N G.nbr v = (G.row v).length := by
  rw [counts_eq, ← row, Nat.mod_eq_of_lt (hG.length_row hv)]

theorem Countable.off {u : ℕ} (hu : u ≤ G.N) :
    offElems (Reverse.counts G.N G.nbr) u = rowStart G.row u :=
  offset_congr fun v hv => hG.counts (by omega)

theorem Countable.fitsNode : ∀ nb ∈ G.adj, FitsNode nb := fun nb hnb =>
  ⟨G.deg_lt nb hnb, fun v hv => (G.id_lt nb hnb v hv).trans_le hG.N_le⟩

end DirectedGraph

section Stripes

variable {G : DirectedGraph}

/-- The ids file once the rows below `lo` are in place. -/
def idsAt (G : DirectedGraph) (lo : ℕ) : List UInt8 :=
  candIdsHdr (rowStart G.row G.N) ++ (cells 4 ((List.range lo).flatMap G.row) ++
    List.replicate (4 * (rowStart G.row G.N - rowStart G.row lo)) 0)

theorem idsAt_N (G : DirectedGraph) : idsAt G G.N = candIds G.N G.row := by
  rw [idsAt, candIds, Nat.sub_self, Nat.mul_zero, List.replicate_zero, List.append_nil]

theorem preallocIds_eq (G : DirectedGraph) : preallocIds (rowStart G.row G.N) =
    if 0 < rowStart G.row G.N ∧ 2 ^ 63 ≤ 32 + rowStart G.row G.N * 4 then
      .error "lseek ids prealloc"
    else .ok (idsAt G 0) := by
  have hstart : rowStart G.row 0 = 0 := rfl
  rw [preallocIds, idsAt, hstart, Nat.sub_zero]
  generalize rowStart G.row G.N = total
  by_cases h0 : total = 0
  · subst h0
    simp
  · rw [if_neg h0]
    by_cases hbig : 2 ^ 63 ≤ 32 + total * 4
    · rw [if_pos hbig, if_pos ⟨by omega, hbig⟩]
    · rw [if_neg hbig, if_neg fun h => hbig h.2]
      congr 1
      have hlen : (candIdsHdr total).length = 32 := length_candIdsHdr total
      rw [overwrite, List.take_of_length_le (by omega), List.drop_of_length_le (by simp),
        List.append_nil, hlen, List.append_assoc, ← List.replicate_succ']
      simp only [List.range_zero, List.flatMap_nil, cells_nil, List.nil_append]
      congr 2
      omega

theorem range_split {lo hi : ℕ} (h : lo ≤ hi) :
    List.range hi = List.range lo ++ List.range' lo (hi - lo) := by
  obtain ⟨d, rfl⟩ := Nat.exists_eq_add_of_le h
  rw [Nat.add_sub_cancel_left, List.range_eq_range', List.range_eq_range']
  simpa using (List.range'_append_1 (s := 0) (m := lo) (n := d)).symm

/-- Rows without ids leave the file as it is. -/
theorem idsAt_eq {lo hi : ℕ} (hlo : lo ≤ hi) (h : rowStart G.row hi = rowStart G.row lo) :
    idsAt G hi = idsAt G lo := by
  have hrows := length_rows G.row hi
  rw [range_split hlo, List.flatMap_append, List.length_append, length_rows, ← rowStart,
    ← rowStart, h] at hrows
  have hnil : (List.range' lo (hi - lo)).flatMap G.row = [] :=
    List.length_eq_zero_iff.mp (by omega)
  rw [idsAt, idsAt, h, range_split hlo, List.flatMap_append, hnil, List.append_nil]

theorem overwrite_idsAt {lo hi : ℕ} (hlo : lo ≤ hi) (hhi : hi ≤ G.N) :
    overwrite (idsAt G lo) (32 + rowStart G.row lo * 4)
      (cells 4 ((List.range' lo (hi - lo)).flatMap G.row)) = idsAt G hi := by
  have h1 := rowStart_le G.row hlo
  have h2 := rowStart_le G.row hhi
  have hsplit := range_split hlo
  have hrows : ((List.range' lo (hi - lo)).flatMap G.row).length =
      rowStart G.row hi - rowStart G.row lo := by
    have h := length_rows G.row hi
    rw [hsplit, List.flatMap_append, List.length_append, length_rows G.row lo] at h
    rw [rowStart, rowStart]
    omega
  have hzeros : List.replicate (4 * (rowStart G.row G.N - rowStart G.row lo)) (0 : UInt8) =
      List.replicate (4 * (rowStart G.row hi - rowStart G.row lo)) 0 ++
        List.replicate (4 * (rowStart G.row G.N - rowStart G.row hi)) 0 := by
    rw [← List.replicate_add]
    congr 1
    omega
  have hlen : (candIdsHdr (rowStart G.row G.N) ++ cells 4 ((List.range lo).flatMap G.row)).length =
      32 + rowStart G.row lo * 4 := by
    rw [List.length_append, length_candIdsHdr, length_cells, length_rows, Nat.mul_comm]
    rfl
  rw [idsAt, hzeros, ← List.append_assoc, ← hlen, overwrite_mid _ _ _ _ (by
    rw [List.length_replicate, length_cells, hrows]), idsAt, hsplit, List.flatMap_append,
    cells_append]
  simp only [List.append_assoc]

/-- A stripe is filled without an error and its rows are written. -/
theorem fillStripe_eq (hG : G.Countable) {lo hi : ℕ} (hlo : lo ≤ hi) (hhi : hi ≤ G.N)
    (mem : ℕ → UInt8) : ∃ mem', fillStripe G.N (offElems (counts G.N G.nbr)) (memIndexNodes G.adj)
      lo hi mem (idsAt G lo) = .ok (mem', idsAt G hi) := by
  set len : ℕ → ℕ := fun i => 4 * (G.row (lo + i)).length with hlendef
  have hoff : ∀ i ≤ hi - lo, (offElems (counts G.N G.nbr) (lo + i) -
      offElems (counts G.N G.nbr) lo) * 4 = offset len i := by
    intro i hi'
    rw [hG.off (by omega), hG.off (by omega), rowStart, rowStart, offset_add, hlendef, offset_mul]
    omega
  have hbytes : offset len (hi - lo) = idsBytesOf (offElems (counts G.N G.nbr)) lo hi := by
    rw [idsBytesOf, ← hoff _ le_rfl, Nat.add_sub_cancel' hlo]
  have hrow : ∀ i < hi - lo, row (window lo hi (contributions G.N G.nbr)) i =
      cells 4 (G.row (lo + i)) := by
    intro i hi'
    rw [row_window _ hi', row_contributions]
    rfl
  have hstart : Filled len (hi - lo) [] (mem, fun i => (offElems (counts G.N G.nbr) (lo + i) -
      offElems (counts G.N G.nbr) lo) * 4) :=
    ⟨fun u hu => hoff u (by omega), fun u _ i h => absurd h (by simp)⟩
  obtain ⟨s, hs, hfilled⟩ := scan_ok hbytes hstart G.nbr (List.range G.N) (fun i hi' => by
    rw [List.nil_append, ← contributions, hrow i hi', length_cells])
  rw [List.nil_append, ← contributions] at hfilled
  have hscan : scanNodes G.N (memIndexNodes G.adj) = .ok G.adj := by
    have := scanNodes_nodes [] hG.fitsNode
    rwa [List.append_nil] at this
  have hnbr : (fun u => G.adj.getD u []) = G.nbr := rfl
  -- every cursor stands at the end of its row
  have hend : ((List.range (hi - lo)).any fun i => s.2 i ≠
      (offElems (counts G.N G.nbr) (lo + i + 1) - offElems (counts G.N G.nbr) lo) * 4) = false := by
    rw [List.any_eq_false]
    intro i hi'
    have hi' : i < hi - lo := List.mem_range.mp hi'
    have h := hoff (i + 1) (by omega)
    rw [← Nat.add_assoc, offset] at h
    rw [hfilled.cursor i hi', hrow i hi', length_cells, h]
    simp [hlendef]
  have hmem : (List.range (idsBytesOf (offElems (counts G.N G.nbr)) lo hi)).map s.1 =
      cells 4 ((List.range' lo (hi - lo)).flatMap G.row) := by
    rw [← hbytes, map_range_eq_rows (hi - lo) (fun i hi' => by rw [hrow i hi', length_cells])
      (fun i hi' k hk => hfilled.stored i hi' k hk), List.range'_eq_map_range, List.flatMap_map,
      cells, List.flatMap_assoc]
    exact List.flatMap_congr fun i hi' => hrow i (List.mem_range.mp hi')
  have hle : 32 + rowStart G.row lo * 4 ≤ (idsAt G lo).length := by
    rw [idsAt, List.length_append, List.length_append, length_candIdsHdr, length_cells, length_rows]
    rw [rowStart]
    omega
  refine ⟨s.1, ?_⟩
  rw [fillStripe, hscan]
  simp only
  rw [hnbr, hs]
  simp only
  rw [hend, hmem, hG.off (by omega), pwriteAll_eq (by norm_num) hle, overwrite_idsAt hlo hhi]
  rfl

theorem stripeLoop_eq (hG : G.Countable) (m : Memory) {lo : ℕ} (hlo : lo ≤ G.N)
    (mem : ℕ → UInt8) : stripeLoop m G.N (offElems (counts G.N G.nbr)) (memIndexNodes G.adj) lo mem
      (idsAt G lo) = .ok (candIds G.N G.row) := by
  rw [stripeLoop]
  by_cases h : lo < G.N
  · have hlt := lt_stripeEnd m G.N (offElems (counts G.N G.nbr)) lo
    have hle := stripeEnd_le m (offElems (counts G.N G.nbr)) h
    rw [if_pos h]
    by_cases hempty : idsBytesOf (offElems (counts G.N G.nbr)) lo
        (stripeEnd m G.N (offElems (counts G.N G.nbr)) lo) = 0
    · -- the rows passed over are empty
      have hsame : idsAt G (stripeEnd m G.N (offElems (counts G.N G.nbr)) lo) = idsAt G lo := by
        have h2 := rowStart_le G.row hlt.le
        rw [idsBytesOf, hG.off hle, hG.off hlo] at hempty
        exact idsAt_eq hlt.le (by omega)
      rw [if_pos hempty, ← hsame]
      exact stripeLoop_eq hG m hle mem
    · obtain ⟨mem', hfill⟩ := fillStripe_eq hG hlt.le hle mem
      rw [if_neg hempty, hfill]
      exact stripeLoop_eq hG m hle mem'
  · obtain rfl : lo = G.N := by omega
    rw [if_neg h, idsAt_N]
termination_by G.N - lo
decreasing_by
  · omega
  · omega

/-- Whether the memory is too small for the first node. -/
def Insufficient (G : DirectedGraph) (m : Memory) : Prop :=
  availForU m G.N 1 = 0 ∨ availForU m G.N 1 < idsBytesOf (rowStart G.row) 0 1

instance (G : DirectedGraph) (m : Memory) : Decidable (Insufficient G m) :=
  inferInstanceAs (Decidable (_ ∨ _))

theorem writeFiles_eq (hG : G.Countable) (h0 : G.N ≠ 0) (m : Memory) :
    writeFiles m G.N (counts G.N G.nbr) (memIndexNodes G.adj) =
      if 0 < rowStart G.row G.N ∧ 2 ^ 63 ≤ 32 + rowStart G.row G.N * 4 then
        .error "lseek ids prealloc"
      else if Insufficient G m then .error "insufficient memory for even a single-node stripe"
      else .ok (candIdx G.N G.row, candIds G.N G.row) := by
  have hidx : writeRows G.N (counts G.N G.nbr) (offElems (counts G.N G.nbr)) 0
      (candIdxHdr G.N) = candIdx G.N G.row := writeRows_candIdx fun v hv => hG.counts hv
  rw [writeFiles]
  rw [hidx, hG.off le_rfl, preallocIds_eq]
  by_cases hbig : 0 < rowStart G.row G.N ∧ 2 ^ 63 ≤ 32 + rowStart G.row G.N * 4
  · rw [if_pos hbig, if_pos hbig]
  rw [if_neg hbig, if_neg hbig]
  have hneed : idsBytesOf (offElems (counts G.N G.nbr)) 0 1 = idsBytesOf (rowStart G.row) 0 1 := by
    rw [idsBytesOf, idsBytesOf, hG.off (by omega), hG.off (by omega)]
  dsimp only
  rw [hneed]
  by_cases hmem : Insufficient G m
  · rw [if_pos hmem]
    exact if_pos hmem
  · rw [if_neg hmem, if_neg (show ¬ (availForU m G.N 1 = 0 ∨ _) from hmem),
      stripeLoop_eq hG m (Nat.zero_le _)]

/-- A run on a graph file, whatever the header. -/
theorem reverseEdges_writeFiles (G : DirectedGraph) (hN : G.N ≤ 2 ^ 32) (m : Memory)
    {hdr : List UInt8} (hhdr : hdr.length = 24) : reverseEdges m (hdr ++ memIndexNodes G.adj) =
      if G.N = 0 then .error "graph seems empty"
      else writeFiles m G.N (counts G.N G.nbr) (memIndexNodes G.adj) := by
  have hlen : ¬ (hdr ++ memIndexNodes G.adj).length < 24 := by
    rw [List.length_append]
    omega
  have hcount : countNodes (memIndexNodes G.adj) = .ok G.N := countNodes_nodes fun nb hnb =>
    ⟨G.deg_lt nb hnb, fun v hv => (G.id_lt nb hnb v hv).trans_le hN⟩
  have hscan : scanChecked G.N G.N (memIndexNodes G.adj) = .ok G.adj := by
    have := scanChecked_nodes [] hN G.deg_lt G.id_lt
    rwa [List.append_nil] at this
  rw [reverseEdges, if_neg hlen, List.drop_left' hhdr, hcount]
  dsimp only
  rw [hscan]
  rfl

/-- The memory decides only whether a run starts to fill. -/
theorem reverseEdges_eq (hG : G.Countable) (m : Memory) {hdr : List UInt8}
    (hhdr : hdr.length = 24) : reverseEdges m (hdr ++ memIndexNodes G.adj) =
      if G.N = 0 then .error "graph seems empty"
      else if 0 < rowStart G.row G.N ∧ 2 ^ 63 ≤ 32 + rowStart G.row G.N * 4 then
        .error "lseek ids prealloc"
      else if Insufficient G m then .error "insufficient memory for even a single-node stripe"
      else .ok (candIdx G.N G.row, candIds G.N G.row) := by
  rw [reverseEdges_writeFiles G hG.N_le m hhdr]
  by_cases h0 : G.N = 0
  · rw [if_pos h0, if_pos h0]
  · rw [if_neg h0, if_neg h0, writeFiles_eq hG h0]

end Stripes

end HiDANN.Reverse
