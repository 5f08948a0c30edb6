import HiDANN.Library.Bytes

/-! Positioned reads and writes of a file in loops. One call transfers a bounded
number of bytes, so a loop goes on where the last call stopped. Inside the file
the loops read a window and write a block as a single call without a bound would. -/

namespace HiDANN.Posix

open Bytes

/-- The most bytes Linux transfers in one `read` or `write` call. -/
def maxRwCount : ℕ := 0x7ffff000

theorem maxRwCount_pos : 0 < maxRwCount := by norm_num [maxRwCount]

/-! ### Reading -/

/-- The bytes one `pread` of `n` bytes transfers. -/
def pread (file : List UInt8) (off n : ℕ) : List UInt8 := slice file off (min n maxRwCount)

/-- `pread` until `want` bytes are there; `none` when a call transfers nothing. -/
def preadAll (file : List UInt8) (off want : ℕ) (got : List UInt8) : Option (List UInt8) :=
  if got.length < want then
    if (pread file (off + got.length) (want - got.length)).length = 0 then none
    else preadAll file off want (got ++ pread file (off + got.length) (want - got.length))
  else some got
termination_by want - got.length
decreasing_by
  rw [List.length_append]
  omega

theorem slice_append_slice {α : Type*} (xs : List α) (off n m : ℕ) :
    slice xs off n ++ slice xs (off + n) m = slice xs off (n + m) := by
  rw [slice, slice, slice, List.take_add, List.drop_drop]

theorem preadAll_slice {file : List UInt8} {off want : ℕ} (h : off + want ≤ file.length) {n : ℕ}
    (hn : n ≤ want) : preadAll file off want (slice file off n) = some (slice file off want) := by
  have hlen : (slice file off n).length = n := length_slice_of_le (by omega)
  rw [preadAll, hlen]
  by_cases hlt : n < want
  · have hr : (pread file (off + n) (want - n)).length = min (want - n) maxRwCount := by
      rw [pread, length_slice]
      omega
    have hpos := maxRwCount_pos
    rw [if_pos hlt, if_neg (by omega), pread, slice_append_slice]
    exact preadAll_slice h (by omega)
  · obtain rfl : n = want := by omega
    rw [if_neg hlt]
termination_by want - n
decreasing_by
  have := maxRwCount_pos
  omega

/-- A window inside the file is read whole. -/
theorem preadAll_eq {file : List UInt8} {off want : ℕ} (h : off + want ≤ file.length) :
    preadAll file off want [] = some (slice file off want) := by
  have := preadAll_slice h (Nat.zero_le want)
  rwa [slice_zero_len] at this

/-! ### Writing -/

/-- `pwrite` of a block in pieces of at most `interval` bytes, from `done` on. -/
def pwriteAll (interval off : ℕ) (block : List UInt8) (file : List UInt8) (done : ℕ) :
    List UInt8 :=
  if 0 < min interval maxRwCount ∧ done < block.length then
    let want := min (min interval maxRwCount) (block.length - done)
    pwriteAll interval off block (overwrite file (off + done) (slice block done want)) (done + want)
  else file
termination_by block.length - done

/-- A write that goes on where the last one stopped. -/
theorem overwrite_overwrite (bs bs' : List UInt8) {file : List UInt8} {off : ℕ}
    (h : off ≤ file.length) :
    overwrite (overwrite file off bs) (off + bs.length) bs' = overwrite file off (bs ++ bs') := by
  have hgap : off - file.length = 0 := by omega
  have hlen : (file.take off ++ bs).length = off + bs.length := by
    rw [List.length_append, List.length_take]
    omega
  have hgap' : off + bs.length - (overwrite file off bs).length = 0 := by
    rw [length_overwrite]
    omega
  have htake : (overwrite file off bs).take (off + bs.length) = file.take off ++ bs := by
    rw [overwrite, hgap, List.replicate_zero, List.append_nil]
    exact List.take_left' hlen
  have hdrop : (overwrite file off bs).drop (off + bs.length + bs'.length) =
      file.drop (off + (bs ++ bs').length) := by
    rw [overwrite, hgap, List.replicate_zero, List.append_nil, ← List.drop_drop,
      List.drop_left' hlen, List.drop_drop, List.length_append, Nat.add_assoc]
  rw [overwrite, htake, hgap', hdrop, overwrite, hgap]
  simp only [List.replicate_zero, List.append_nil, List.append_assoc]

theorem pwriteAll_slice {interval off : ℕ} (hi : 0 < interval) (block : List UInt8)
    {file : List UInt8} (h : off ≤ file.length) {n : ℕ} (hn : n ≤ block.length) :
    pwriteAll interval off block (overwrite file off (slice block 0 n)) n =
      overwrite file off block := by
  have hpos := maxRwCount_pos
  have hlen : (slice block 0 n).length = n := length_slice_of_le (by omega)
  rw [pwriteAll]
  by_cases hlt : n < block.length
  · rw [if_pos ⟨by omega, hlt⟩]
    have hover := overwrite_overwrite (slice block 0 n)
      (slice block n (min (min interval maxRwCount) (block.length - n))) h
    have happ := slice_append_slice block 0 n (min (min interval maxRwCount) (block.length - n))
    rw [Nat.zero_add] at happ
    rw [hlen, happ] at hover
    dsimp only
    rw [hover]
    exact pwriteAll_slice hi block h (by omega)
  · obtain rfl : n = block.length := by omega
    rw [if_neg (by omega), slice, List.drop_zero, List.take_length]
termination_by block.length - n
decreasing_by
  have := maxRwCount_pos
  omega

/-- The pieces add up to one write of the block. -/
theorem pwriteAll_eq {interval off : ℕ} (hi : 0 < interval) {block file : List UInt8}
    (h : off ≤ file.length) : pwriteAll interval off block file 0 = overwrite file off block := by
  have hnil : overwrite file off (slice block 0 0) = file := by
    rw [slice_zero_len, overwrite, Nat.sub_eq_zero_of_le h]
    simp
  have := pwriteAll_slice hi block h (Nat.zero_le _)
  rwa [hnil] at this

end HiDANN.Posix
