import HiDANN.Construction.BucketLog
import HiDANN.Library.FallibleFold

/-! The arena of a thread of pair processing. For each node it is made large enough for
`n` pool entries and `n` floats and is then asked for two blocks, each at a multiple of
64 bytes: the entries, and a float for each of the `m` entries that are kept. The padding
between the blocks is not reserved, and whether it fits depends on the capacity that the
nodes before have left. -/

namespace HiDANN.Construction

open FallibleFold

/-! ### The code -/

/-- The capacity and the offset; the blocks are named by their offsets. -/
structure Arena where
  cap : ℕ
  off : ℕ

namespace Arena

/-- `ensure`, where `posix_memalign` succeeds. -/
def ensure (A : Arena) (need : ℕ) : Arena :=
  if need ≤ A.cap then A
  else
    let minCap := 16 * 1024
    { cap := max need (max minCap (A.cap + A.cap / 2)), off := 0 }

def reset (A : Arena) : Arena := { A with off := 0 }

/-- `alloc_raw`; for a power of two `a` the mask rounds up. -/
def allocRaw (A : Arena) (n a : ℕ) : Except String (Arena × ℕ) :=
  let p := roundUp A.off a
  if A.cap < p + n then .error "std::bad_alloc" else .ok ({ A with off := p + n }, p)

/-- `alloc_n` for a type of the given size, whose alignment is at most 64. -/
def allocN (A : Arena) (sizeofU n : ℕ) : Except String (Arena × ℕ) := A.allocRaw (n * sizeofU) 64

end Arena

def sizeofCN : ℕ := 8

def sizeofFloat : ℕ := 4

/-- What a node asks for: `n` visited ids and own neighbours, of which `m` are not the
node itself. -/
structure NodeSizes where
  n : ℕ
  m : ℕ
  m_le : m ≤ n

/-- The use of the arena for one node: the entries of the pool, and in
`occlude_list_ptr` the occlusion factors. -/
def arenaStep (A : Arena) (v : NodeSizes) : Except String Arena :=
  if v.n = 0 then .ok A
  else match (A.ensure (v.n * (sizeofCN + sizeofFloat))).reset.allocN sizeofCN v.n with
    | .error e => .error e
    | .ok (A, _) => if v.m = 0 then .ok A else (A.allocN sizeofFloat v.m).map Prod.fst

def arenaRun (A : Arena) (nodes : List NodeSizes) : Except String Arena :=
  nodes.foldlM arenaStep A

/-! ### When the blocks fit -/

def grown (cap : ℕ) (v : NodeSizes) : ℕ :=
  if 12 * v.n ≤ cap then cap else max (12 * v.n) (max 16384 (cap + cap / 2))

/-- There are no floats to place, or they fit behind the entries. -/
def FloatsFit (cap : ℕ) (v : NodeSizes) : Prop :=
  v.m = 0 ∨ roundUp (8 * v.n) 64 + 4 * v.m ≤ grown cap v

instance (cap : ℕ) (v : NodeSizes) : Decidable (FloatsFit cap v) :=
  inferInstanceAs (Decidable (_ ∨ _))

theorem le_grown (cap : ℕ) (v : NodeSizes) : 12 * v.n ≤ grown cap v := by
  rw [grown]
  split_ifs with h
  · exact h
  · exact le_max_left _ _

theorem grown_zero {cap : ℕ} {v : NodeSizes} (h : v.n = 0) : grown cap v = cap := by
  rw [grown, if_pos (by omega)]

theorem ensure_cap (A : Arena) (v : NodeSizes) :
    (A.ensure (v.n * (sizeofCN + sizeofFloat))).cap = grown A.cap v := by
  have hneed : v.n * (sizeofCN + sizeofFloat) = 12 * v.n := Nat.mul_comm _ _
  rw [Arena.ensure, grown, hneed]
  split_ifs <;> rfl

theorem allocN_entries (A : Arena) (v : NodeSizes) :
    (A.ensure (v.n * (sizeofCN + sizeofFloat))).reset.allocN sizeofCN v.n =
      .ok (⟨grown A.cap v, 8 * v.n⟩, 0) := by
  have hle := le_grown A.cap v
  have hcap : (A.ensure (v.n * (8 + 4))).cap = grown A.cap v := ensure_cap A v
  have hzero : roundUp 0 64 = 0 := rfl
  simp only [Arena.allocN, Arena.allocRaw, Arena.reset, sizeofCN, sizeofFloat, hcap, hzero]
  rw [if_neg (by omega), Nat.zero_add, Nat.mul_comm v.n 8]

theorem arenaStep_eq {A : Arena} {v : NodeSizes} (hn : v.n ≠ 0) (hm : v.m ≠ 0) :
    arenaStep A v = if grown A.cap v < roundUp (8 * v.n) 64 + 4 * v.m then .error "std::bad_alloc"
      else .ok ⟨grown A.cap v, roundUp (8 * v.n) 64 + 4 * v.m⟩ := by
  have hcomm : v.m * 4 = 4 * v.m := Nat.mul_comm _ _
  rw [arenaStep, if_neg hn, allocN_entries]
  simp only [if_neg hm, Arena.allocN, Arena.allocRaw, sizeofFloat, hcomm]
  split_ifs <;> rfl

/-- One node ends with the capacity grown when its floats fit. -/
theorem arenaStep_ok (A : Arena) (v : NodeSizes) (h : FloatsFit A.cap v) :
    ∃ A', arenaStep A v = .ok A' ∧ A'.cap = grown A.cap v := by
  by_cases hn : v.n = 0
  · exact ⟨A, if_pos hn, (grown_zero hn).symm⟩
  by_cases hm : v.m = 0
  · rw [arenaStep, if_neg hn, allocN_entries]
    exact ⟨_, if_pos hm, rfl⟩
  · rw [arenaStep_eq hn hm, if_neg (Nat.not_lt.mpr (h.resolve_left hm))]
    exact ⟨_, rfl, rfl⟩

theorem arenaStep_error (A : Arena) (v : NodeSizes) (h : ¬ FloatsFit A.cap v) :
    ∃ e, arenaStep A v = .error e := by
  rw [FloatsFit, not_or] at h
  have hn : v.n ≠ 0 := fun h0 => h.1 (Nat.le_zero.mp (h0 ▸ v.m_le))
  rw [arenaStep_eq hn h.1, if_pos (Nat.lt_of_not_le h.2)]
  exact ⟨_, rfl⟩

/-- In the arena a thread has for each of its nodes by then, the floats fit behind the pool. -/
def Room (cap : ℕ) (nodes : List NodeSizes) : Prop :=
  ∀ pre v post, nodes = pre ++ v :: post → FloatsFit (pre.foldl grown cap) v

theorem exists_arena_iff (cap off : ℕ) (nodes : List NodeSizes) :
    (∃ arena, arenaRun ⟨cap, off⟩ nodes = .ok arena) ↔ Room cap nodes :=
  foldlM_ok_iff arenaStep_ok arenaStep_error nodes ⟨cap, off⟩

theorem room_cons {cap : ℕ} {v : NodeSizes} {nodes : List NodeSizes} :
    Room cap (v :: nodes) ↔ FloatsFit cap v ∧ Room (grown cap v) nodes := by
  constructor
  · intro h
    exact ⟨h [] v nodes rfl, fun pre w post he => h (v :: pre) w post (he ▸ rfl)⟩
  · rintro ⟨hv, h⟩ pre w post he
    cases pre with
    | nil =>
      obtain ⟨rfl, -⟩ := List.cons.inj he
      exact hv
    | cons u pre =>
      obtain ⟨rfl, hrest⟩ := List.cons.inj he
      exact h pre w post hrest

/-- An arena that is large enough for all nodes does not grow. -/
theorem room_of_large {cap : ℕ} {nodes : List NodeSizes}
    (h : ∀ v ∈ nodes, 12 * v.n + 63 ≤ cap) : Room cap nodes := by
  induction nodes with
  | nil => exact fun pre v post he => by simp at he
  | cons v nodes ih =>
    obtain ⟨hv, hnodes⟩ := List.forall_mem_cons.mp h
    have hgrown : grown cap v = cap := if_pos (by omega)
    have hm := v.m_le
    refine room_cons.mpr ⟨.inr ?_, ?_⟩
    · rw [hgrown, roundUp]
      omega
    · rw [hgrown]
      exact ih hnodes
/-- A thread gets all its blocks exactly when for each of its nodes the floats fit in
the capacity that the nodes before have left. -/
theorem arenaRun_ok_iff (A : Arena) (nodes : List NodeSizes) :
    (∃ A', arenaRun A nodes = .ok A') ↔
      ∀ pre v post, nodes = pre ++ v :: post → FloatsFit (pre.foldl grown A.cap) v :=
  foldlM_ok_iff arenaStep_ok arenaStep_error nodes A

/-- Whatever the capacity, enough entries that are not kept leave room for the padding. -/
theorem floatsFit_of_slack {v : NodeSizes} (h : v.m + 2 * ((8 - v.n % 8) % 8) ≤ v.n) (cap : ℕ) :
    FloatsFit cap v := by
  have hle := le_grown cap v
  right
  rw [roundUp]
  omega

/-- One node whose floats end 16 bytes behind the arena it gets. -/
theorem arenaRun_full :
    arenaRun ⟨0, 0⟩ [⟨1366, 1366, le_rfl⟩] = .error "std::bad_alloc" := by
  rw [arenaRun, List.foldlM_cons, arenaStep_eq (by decide) (by decide), if_pos (by decide)]
  rfl

end HiDANN.Construction
