import HiDANN.Library.Bytes
import Mathlib.Data.List.Induction

/-! The memory-index graph file: a 24-byte header with the size of the file, the
largest degree, a start node and the number of frozen points, and for every node
its degree and its neighbours as 32-bit integers. `saveGraph` writes it; four
readers read it, one by the size in the header, one by a node count of its own
and two up to the end of the file. -/

namespace HiDANN.Format

open Bytes

/-- `GraphHdr{isz, maxObs, ep, nf}`. -/
def memIndexHdr (isz maxObs ep nf : ℕ) : List UInt8 := le 8 isz ++ le 4 maxObs ++ le 4 ep ++ le 8 nf

def memIndexNode (nb : List ℕ) : List UInt8 := le 4 nb.length ++ cells 4 nb

def memIndexNodes (adj : List (List ℕ)) : List UInt8 := adj.flatMap memIndexNode

def maxDegree (adj : List (List ℕ)) : ℕ := adj.foldl (fun m nb => max m nb.length) 0

def memIndex (adj : List (List ℕ)) (ep nf : ℕ) : List UInt8 :=
  memIndexHdr (24 + (memIndexNodes adj).length) (maxDegree adj) ep nf ++ memIndexNodes adj

@[simp] theorem length_memIndexHdr (isz maxObs ep nf : ℕ) :
    (memIndexHdr isz maxObs ep nf).length = 24 := by
  simp [memIndexHdr]

@[simp] theorem length_memIndexNode (nb : List ℕ) :
    (memIndexNode nb).length = 4 * (nb.length + 1) := by
  simp [memIndexNode]
  omega

@[simp] theorem memIndexNodes_nil : memIndexNodes [] = [] := rfl

@[simp] theorem memIndexNodes_cons (nb : List ℕ) (adj : List (List ℕ)) :
    memIndexNodes (nb :: adj) = memIndexNode nb ++ memIndexNodes adj := rfl

@[simp] theorem memIndexNodes_append (adj adj' : List (List ℕ)) :
    memIndexNodes (adj ++ adj') = memIndexNodes adj ++ memIndexNodes adj' :=
  List.flatMap_append

section Header

variable {isz maxObs ep nf : ℕ} (rest : List UInt8)

theorem drop_memIndexHdr : (memIndexHdr isz maxObs ep nf ++ rest).drop 24 = rest :=
  List.drop_left' (length_memIndexHdr ..)

theorem hdr_isz (h : isz < 2 ^ 64) : readLe 8 (memIndexHdr isz maxObs ep nf ++ rest) 0 = isz := by
  have hs := slice_mid [] (le 8 isz) (le 4 maxObs ++ le 4 ep ++ le 8 nf ++ rest)
  simp only [List.nil_append, List.length_nil, length_le, List.append_assoc] at hs
  rw [readLe, memIndexHdr]
  simp only [List.append_assoc]
  rw [hs, val_le_of_lt (h.trans_eq (by norm_num))]

theorem hdr_maxObs (h : maxObs < 2 ^ 32) :
    readLe 4 (memIndexHdr isz maxObs ep nf ++ rest) 8 = maxObs := by
  have hs := slice_mid (le 8 isz) (le 4 maxObs) (le 4 ep ++ le 8 nf ++ rest)
  simp only [length_le, List.append_assoc] at hs
  rw [readLe, memIndexHdr]
  simp only [List.append_assoc]
  rw [hs, val_le_of_lt (h.trans_eq (by norm_num))]

theorem hdr_ep (h : ep < 2 ^ 32) : readLe 4 (memIndexHdr isz maxObs ep nf ++ rest) 12 = ep := by
  have hs := slice_mid (le 8 isz ++ le 4 maxObs) (le 4 ep) (le 8 nf ++ rest)
  simp only [List.length_append, length_le, List.append_assoc, Nat.reduceAdd] at hs
  rw [readLe, memIndexHdr]
  simp only [List.append_assoc]
  rw [hs, val_le_of_lt (h.trans_eq (by norm_num))]

theorem hdr_nf (h : nf < 2 ^ 64) : readLe 8 (memIndexHdr isz maxObs ep nf ++ rest) 16 = nf := by
  have hs := slice_mid (le 8 isz ++ le 4 maxObs ++ le 4 ep) (le 8 nf) rest
  simp only [List.length_append, length_le, List.append_assoc, Nat.reduceAdd] at hs
  rw [readLe, memIndexHdr]
  simp only [List.append_assoc]
  rw [hs, val_le_of_lt (h.trans_eq (by norm_num))]

end Header

theorem length_memIndex (adj : List (List ℕ)) (ep nf : ℕ) :
    (memIndex adj ep nf).length = 24 + (memIndexNodes adj).length := by
  rw [memIndex, List.length_append, length_memIndexHdr]

theorem maxDegree_append (adj : List (List ℕ)) (nb : List ℕ) :
    maxDegree (adj ++ [nb]) = max (maxDegree adj) nb.length := by
  rw [maxDegree, List.foldl_append]
  rfl

theorem maxDegree_lt {adj : List (List ℕ)} {m : ℕ} (hm : 0 < m) (h : ∀ nb ∈ adj, nb.length < m) :
    maxDegree adj < m := by
  induction adj using List.reverseRecOn with
  | nil => exact hm
  | append_singleton adj nb ih =>
    rw [maxDegree_append]
    exact max_lt (ih fun nb hnb => h nb (by simp [hnb])) (h nb (by simp))

/-! ### Writing -/

/-- What `save_graph` has written, the size it counts and the largest degree. -/
structure Saved where
  out : List UInt8
  indexSize : ℕ
  maxDegree : ℕ

/-- One round of `save_graph`; the length and the length plus one are 32-bit. -/
def saveStep (s : Saved) (nb : List ℕ) : Saved :=
  let GK := nb.length % 2 ^ 32
  { out := s.out ++ le 4 GK ++ cells 4 (nb.take GK)
    indexSize := (s.indexSize + 4 * ((GK + 1) % 2 ^ 32)) % 2 ^ 64
    maxDegree := if s.maxDegree < nb.length then nb.length % 2 ^ 32 else s.maxDegree }

/-- `save_graph` of the first `num_points` lists of the store. -/
def saveGraph (maxObservedDegree start frozen : ℕ) (graph : List (List ℕ)) : List UInt8 :=
  let s := graph.foldl saveStep ⟨memIndexHdr 24 maxObservedDegree start frozen, 24, 0⟩
  overwrite (overwrite s.out 0 (le 8 s.indexSize)) 8 (le 4 s.maxDegree)

/-! ### Reading by the size in the header -/

/-- The loop of `load_impl`: the store, the nodes read, or `none` where reading
throws or a list would go past the end of the store. -/
def loadLoop (expectedFileSize : ℕ) (graph : List (List ℕ)) (nodesRead bytesRead : ℕ)
    (bs : List UInt8) : Option (List (List ℕ) × ℕ) :=
  if bytesRead = expectedFileSize then some (graph, nodesRead)
  else match _hk : nextLe 4 bs with
    | none => none
    | some (k, bs₁) => match _ht : nextCells 4 k bs₁ with
      | none => none
      | some (tmp, bs₂) =>
        if nodesRead < graph.length then
          loadLoop expectedFileSize (graph.set nodesRead tmp) (nodesRead + 1)
            (bytesRead + 4 * (k + 1)) bs₂
        else none
termination_by bs.length
decreasing_by
  have h1 := length_of_nextLe _hk
  have h2 := length_of_nextCells _ht
  omega

def resizeGraph (graph : List (List ℕ)) (n : ℕ) : List (List ℕ) :=
  graph.take n ++ List.replicate (n - graph.length) []

/-- The store `load_impl` reads into. -/
def loadStore (graph : List (List ℕ)) (expectedNumPoints : ℕ) : List (List ℕ) :=
  if graph.length < expectedNumPoints then resizeGraph graph expectedNumPoints else graph

/-- `load_impl`: the store, the nodes read, the start node and the frozen points. -/
def loadImpl (graph : List (List ℕ)) (expectedNumPoints : ℕ) (file : List UInt8) :
    Option (List (List ℕ) × ℕ × ℕ × ℕ) :=
  if file.length < 24 then none
  else (loadLoop (readLe 8 file 0) (loadStore graph expectedNumPoints) 0 24 (file.drop 24)).map
    fun (graph, nodesRead) => (graph, nodesRead, readLe 4 file 12, readLe 8 file 16)

/-! ### Reading to the end of the file -/

/-- Records until the degree of the next one cannot be read. -/
def readToEnd (short : String) (bs : List UInt8) : Except String (List (List ℕ)) :=
  match _hk : nextLe 4 bs with
  | none => .ok []
  | some (deg, bs₁) => match _ht : nextCells 4 deg bs₁ with
    | none => .error short
    | some (ids, bs₂) => (readToEnd short bs₂).map fun adj => ids :: adj
termination_by bs.length
decreasing_by
  have h1 := length_of_nextLe _hk
  have h2 := length_of_nextCells _ht
  omega

/-- `load_graph_to_adj_memindex`: the lists, and whether there are `tsize`. -/
def loadGraphToAdjMemindex (tsize : ℕ) (file : List UInt8) :
    Except String (List (List ℕ) × Bool) :=
  if file.length < 24 then .error "short read"
  else (readToEnd "short read" (file.drop 24)).map fun adj => (adj, adj.length = tsize)

/-- `load_mem_index` of the evaluator: the entry point and the lists. -/
def loadMemIndex (file : List UInt8) : Except String (ℕ × List (List ℕ)) :=
  if file.length < 8 then .error "failed to read mem index size"
  else if file.length < 12 then .error "failed to read mem max observed degree"
  else if file.length < 16 then .error "failed to read mem entry point"
  else if file.length < 24 then .error "failed to read mem frozen count"
  else (readToEnd "failed to read mem neighbors" (file.drop 24)).map fun adj =>
    (readLe 4 file 12, adj)

/-! ### Counting the nodes first -/

/-- Pass 0 of the reverse edges: a node for every record; neighbours are skipped,
which does not fail past the end. -/
def countNodes (bs : List UInt8) : Except String ℕ :=
  if bs = [] then .ok 0
  else match _hk : nextLe 4 bs with
    | none => .error "short read"
    | some (deg, bs₁) => (countNodes (bs₁.drop (deg * 4))).map fun n => n + 1
termination_by bs.length
decreasing_by
  have h1 := length_of_nextLe _hk
  rw [List.length_drop]
  omega

/-- The neighbours of a record one by one, each of them checked. -/
def readChecked (N : ℕ) : ℕ → List UInt8 → Except String (List ℕ × List UInt8)
  | 0, bs => .ok ([], bs)
  | deg + 1, bs => match nextLe 4 bs with
    | none => .error "short read"
    | some (v, bs₁) =>
      if N ≤ v then .error "neighbor id out of range"
      else (readChecked N deg bs₁).map fun (nbr, bs₂) => (v :: nbr, bs₂)

/-- Pass 1 of the reverse edges: the records of `n` nodes, with their ids checked. -/
def scanChecked (N : ℕ) : ℕ → List UInt8 → Except String (List (List ℕ))
  | 0, _ => .ok []
  | n + 1, bs => match nextLe 4 bs with
    | none => .error "short read"
    | some (deg, bs₁) => match readChecked N deg bs₁ with
      | .error e => .error e
      | .ok (nbr, bs₂) => (scanChecked N n bs₂).map fun adj => nbr :: adj

/-- A pass of the reverse edges that fills a stripe: the records of `n` nodes. -/
def scanNodes : ℕ → List UInt8 → Except String (List (List ℕ))
  | 0, _ => .ok []
  | n + 1, bs => match nextLe 4 bs with
    | none => .error "short read"
    | some (deg, bs₁) => match nextCells 4 deg bs₁ with
      | none => .error "short read"
      | some (nbr, bs₂) => (scanNodes n bs₂).map fun adj => nbr :: adj

/-! ### Records are read back -/

/-- Degrees and ids that fit their fields. -/
structure FitsNode (nb : List ℕ) : Prop where
  deg_lt : nb.length < 2 ^ 32
  id_lt : ∀ v ∈ nb, v < 2 ^ 32

section Records

variable {nb : List ℕ} {adj : List (List ℕ)} {rest : List UInt8}

theorem nextLe_node (h : FitsNode nb) :
    nextLe 4 (memIndexNode nb ++ rest) = some (nb.length, cells 4 nb ++ rest) := by
  rw [memIndexNode, List.append_assoc]
  exact nextLe_le (h.deg_lt.trans_eq (by norm_num)) _

theorem nextCells_node (h : FitsNode nb) :
    nextCells 4 nb.length (cells 4 nb ++ rest) = some (nb, rest) :=
  nextCells_cells (fun v hv => (h.id_lt v hv).trans_eq (by norm_num)) _

theorem readToEnd_nodes (short : String) (h : ∀ nb ∈ adj, FitsNode nb) :
    readToEnd short (memIndexNodes adj) = .ok adj := by
  induction adj with
  | nil => rw [readToEnd]; rfl
  | cons nb adj ih =>
    rw [memIndexNodes_cons, readToEnd, nextLe_node (h nb (by simp))]
    dsimp only
    rw [nextCells_node (h nb (by simp))]
    dsimp only
    rw [ih fun nb hnb => h nb (by simp [hnb])]
    rfl

theorem countNodes_nodes (h : ∀ nb ∈ adj, FitsNode nb) :
    countNodes (memIndexNodes adj) = .ok adj.length := by
  induction adj with
  | nil => rw [countNodes]; rfl
  | cons nb adj ih =>
    have hne : memIndexNodes (nb :: adj) ≠ [] := by
      intro h0
      have := congrArg List.length h0
      simp at this
    rw [countNodes, if_neg hne, memIndexNodes_cons, nextLe_node (h nb (by simp))]
    dsimp only
    rw [List.drop_left' (by rw [length_cells, Nat.mul_comm]),
      ih fun nb hnb => h nb (by simp [hnb])]
    rfl

theorem readChecked_cells {N : ℕ} (hN : N ≤ 2 ^ 32) (h : ∀ v ∈ nb, v < N) :
    readChecked N nb.length (cells 4 nb ++ rest) = .ok (nb, rest) := by
  induction nb with
  | nil => rfl
  | cons v nb ih =>
    have hv : v < N := h v (by simp)
    have hlt : v < 256 ^ 4 := (hv.trans_le hN).trans_eq (by norm_num)
    rw [List.length_cons, readChecked, cells_cons, List.append_assoc, nextLe_le hlt]
    dsimp only
    rw [if_neg (by omega), ih fun w hw => h w (by simp [hw])]
    rfl

theorem scanChecked_nodes (rest : List UInt8) {N : ℕ} (hN : N ≤ 2 ^ 32)
    (h : ∀ nb ∈ adj, nb.length < 2 ^ 32)
    (hid : ∀ nb ∈ adj, ∀ v ∈ nb, v < N) :
    scanChecked N adj.length (memIndexNodes adj ++ rest) = .ok adj := by
  induction adj with
  | nil => rfl
  | cons nb adj ih =>
    have hnb : FitsNode nb :=
      ⟨h nb (by simp), fun v hv => (hid nb (by simp) v hv).trans_le hN⟩
    rw [List.length_cons, scanChecked, memIndexNodes_cons, List.append_assoc, nextLe_node hnb]
    dsimp only
    rw [readChecked_cells hN (hid nb (by simp))]
    dsimp only
    rw [ih (fun nb hnb => h nb (by simp [hnb])) fun nb hnb => hid nb (by simp [hnb])]
    rfl

theorem scanNodes_nodes (rest : List UInt8) (h : ∀ nb ∈ adj, FitsNode nb) :
    scanNodes adj.length (memIndexNodes adj ++ rest) = .ok adj := by
  induction adj with
  | nil => rfl
  | cons nb adj ih =>
    rw [List.length_cons, scanNodes, memIndexNodes_cons, List.append_assoc,
      nextLe_node (h nb (by simp))]
    dsimp only
    rw [nextCells_node (h nb (by simp))]
    dsimp only
    rw [ih fun nb hnb => h nb (by simp [hnb])]
    rfl

/-- The loop stops after the last record, having put the lists into the store in order. -/
theorem loadLoop_nodes (rest : List UInt8) (h : ∀ nb ∈ adj, FitsNode nb)
    (done old : List (List ℕ)) {n : ℕ}
    (hold : adj.length ≤ old.length) :
    loadLoop (n + (memIndexNodes adj).length) (done ++ old) done.length n
      (memIndexNodes adj ++ rest) =
      some (done ++ adj ++ old.drop adj.length, done.length + adj.length) := by
  induction adj generalizing done old n with
  | nil => rw [loadLoop]; simp
  | cons nb adj ih =>
    obtain ⟨x, old, rfl⟩ := List.exists_cons_of_length_pos
      ((Nat.zero_lt_succ adj.length).trans_le hold)
    have hlen : (memIndexNodes (nb :: adj)).length =
        4 * (nb.length + 1) + (memIndexNodes adj).length := by
      simp
    rw [loadLoop, if_neg (by omega), memIndexNodes_cons, List.append_assoc,
      nextLe_node (h nb (by simp))]
    dsimp only
    rw [nextCells_node (h nb (by simp))]
    dsimp only
    have hset : (done ++ x :: old).set done.length nb = (done ++ [nb]) ++ old := by
      rw [List.set_append_right _ _ le_rfl, Nat.sub_self, List.set_cons_zero, List.append_assoc,
        List.singleton_append]
    have hrest := ih (fun nb hnb => h nb (by simp [hnb])) (done ++ [nb]) old
      (n := n + 4 * (nb.length + 1)) (by simpa using hold)
    rw [List.length_append, List.length_singleton] at hrest
    rw [if_pos (by simp), hset, List.length_append, length_memIndexNode, ← Nat.add_assoc, hrest]
    simp [Nat.add_assoc, Nat.add_comm 1]

end Records

end HiDANN.Format
