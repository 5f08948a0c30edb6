import HiDANN.Library.Bytes

/-! The file streams of the layout writer. `cached_ifstream` and `cached_ofstream`
go through a cache of a fixed size, past it when a request is larger; what they read
and write is the same as without it. A plain `ifstream` that runs into the end of its
file stays in a failed state and reads nothing more. -/

namespace HiDANN.Disk

open Bytes

/-! ### `cached_ifstream` -/

/-- What is left in the cache, and the file behind it. -/
structure CachedIfstream where
  cacheSize : ℕ
  cached : List UInt8
  rest : List UInt8

namespace CachedIfstream

def openFile (file : List UInt8) (cacheSize : ℕ) : CachedIfstream :=
  let cacheSize := min cacheSize file.length
  ⟨cacheSize, file.take cacheSize, file.drop cacheSize⟩

/-- What there is still to read. -/
def contents (r : CachedIfstream) : List UInt8 := r.cached ++ r.rest

/-- Read `n` bytes; past the cache the rest comes from the file, and the cache is
filled again if the file has enough for it. -/
def read (r : CachedIfstream) (n : ℕ) : Except String (List UInt8 × CachedIfstream) :=
  if n ≤ r.cached.length then
    .ok (r.cached.take n, { r with cached := r.cached.drop n })
  else if r.rest.length < n - r.cached.length then .error "Reading beyond end of file"
  else
    let left := r.rest.drop (n - r.cached.length)
    .ok (r.cached ++ r.rest.take (n - r.cached.length),
      if r.cacheSize ≤ left.length then
        { r with cached := left.take r.cacheSize, rest := left.drop r.cacheSize }
      else { r with cached := [], rest := left })

@[simp] theorem contents_openFile (file : List UInt8) (cacheSize : ℕ) :
    (openFile file cacheSize).contents = file :=
  List.take_append_drop _ _

theorem read_eq {r : CachedIfstream} {n : ℕ} (h : n ≤ r.contents.length) :
    ∃ r', r.read n = .ok (r.contents.take n, r') ∧ r'.contents = r.contents.drop n := by
  have hlen : r.contents.length = r.cached.length + r.rest.length := List.length_append
  unfold read
  by_cases hin : n ≤ r.cached.length
  · rw [if_pos hin, contents, List.take_append_of_le_length hin,
      List.drop_append_of_le_length hin]
    exact ⟨_, rfl, rfl⟩
  · have htake : r.contents.take n = r.cached ++ r.rest.take (n - r.cached.length) := by
      rw [contents, List.take_append, List.take_of_length_le (by omega)]
    have hdrop : r.contents.drop n = r.rest.drop (n - r.cached.length) := by
      rw [contents, List.drop_append, List.drop_of_length_le (by omega), List.nil_append]
    rw [if_neg hin, if_neg (by omega), htake, hdrop]
    refine ⟨_, rfl, ?_⟩
    split_ifs
    · exact List.take_append_drop _ _
    · rfl

end CachedIfstream

/-! ### `cached_ofstream` -/

/-- What has gone to the file, and what is in the cache. -/
structure CachedOfstream where
  cacheSize : ℕ
  file : List UInt8
  cached : List UInt8

namespace CachedOfstream

def openFile (cacheSize : ℕ) : CachedOfstream := ⟨cacheSize, [], []⟩

def write (w : CachedOfstream) (bs : List UInt8) : CachedOfstream :=
  if bs.length ≤ w.cacheSize - w.cached.length then { w with cached := w.cached ++ bs }
  else { w with file := w.file ++ w.cached ++ bs, cached := [] }

def close (w : CachedOfstream) : List UInt8 := w.file ++ w.cached

@[simp] theorem close_openFile (cacheSize : ℕ) : (openFile cacheSize).close = [] := rfl

@[simp] theorem close_write (w : CachedOfstream) (bs : List UInt8) :
    (w.write bs).close = w.close ++ bs := by
  unfold write
  split_ifs
  · exact (List.append_assoc _ _ _).symm
  · simp [close]

end CachedOfstream

/-! ### `ifstream` -/

/-- Whether nothing has failed, and what there is still to read. -/
structure Ifstream where
  good : Bool
  rest : List UInt8

namespace Ifstream

/-- `read` into a zeroed buffer of `n` bytes. -/
def read (s : Ifstream) (n : ℕ) : List UInt8 × Ifstream :=
  if s.good then
    (s.rest.take n ++ List.replicate (n - s.rest.length) 0, ⟨n ≤ s.rest.length, s.rest.drop n⟩)
  else (List.replicate n 0, s)

/-- `seekg` forward from the current position. -/
def skip (s : Ifstream) (n : ℕ) : Ifstream :=
  if s.good then { s with rest := s.rest.drop n } else s

theorem read_append {n : ℕ} (xs rest : List UInt8) (h : xs.length = n) :
    read ⟨true, xs ++ rest⟩ n = (xs, ⟨true, rest⟩) := by
  have hle : n ≤ (xs ++ rest).length := by
    rw [List.length_append]
    omega
  rw [read, if_pos rfl, List.take_left' h, List.drop_left' h, Nat.sub_eq_zero_of_le hle,
    List.replicate_zero, List.append_nil, decide_eq_true hle]

theorem skip_append {n : ℕ} (xs rest : List UInt8) (h : xs.length = n) :
    skip ⟨true, xs ++ rest⟩ n = ⟨true, rest⟩ := by
  rw [skip, if_pos rfl, List.drop_left' h]

end Ifstream

end HiDANN.Disk
