import Mathlib.Order.Monotone.Basic
import Mathlib.Data.List.Basic
import Mathlib.Algebra.Order.Ring.Nat
import HiDANN.Library.Bytes

/-! Distances between quantized points. Every chunk of dimensions has a table of
distances between its centroids, and the distance of two points adds up the
entries of their codes. Of floating point arithmetic only what rounding keeps is
used: a point is at distance zero of itself, and no distance is below zero. -/

namespace HiDANN.Pruning

/-- Arithmetic of pivots `ν`, doubles `δ` and floats `ε`, none of them a NaN. -/
structure FloatOps (ν δ ε : Type*) [LinearOrder δ] [LinearOrder ε] where
  zero : δ
  add : δ → δ → δ
  sqDiff : ν → ν → δ
  toFloat : δ → ε
  ofFloat : ε → δ
  add_zero : add zero zero = zero
  le_add : ∀ x y, zero ≤ y → x ≤ add x y
  sqDiff_self : ∀ x, sqDiff x x = zero
  sqDiff_nonneg : ∀ x y, zero ≤ sqDiff x y
  toFloat_mono : Monotone toFloat
  ofFloat_mono : Monotone ofFloat
  ofFloat_zero : ofFloat (toFloat zero) = zero

namespace FloatOps

variable {ν δ ε : Type*} [LinearOrder δ] [LinearOrder ε] (F : FloatOps ν δ ε)

/-- `acc += x` over the indices below `n`. -/
def sum (n : ℕ) (x : ℕ → δ) : δ := (List.range n).foldl (fun acc k => F.add acc (x k)) F.zero

theorem sum_succ (n : ℕ) (x : ℕ → δ) : F.sum (n + 1) x = F.add (F.sum n x) (x n) := by
  rw [sum, List.range_succ, List.foldl_append]
  rfl

theorem sum_zero {n : ℕ} {x : ℕ → δ} (h : ∀ k < n, x k = F.zero) : F.sum n x = F.zero := by
  induction n with
  | zero => rfl
  | succ n ih => rw [F.sum_succ, ih fun k hk => h k (by omega), h n (by omega), F.add_zero]

theorem sum_nonneg {n : ℕ} {x : ℕ → δ} (h : ∀ k < n, F.zero ≤ x k) : F.zero ≤ F.sum n x := by
  induction n with
  | zero => exact le_rfl
  | succ n ih =>
    rw [F.sum_succ]
    exact (ih fun k hk => h k (by omega)).trans (F.le_add _ _ (h n (by omega)))

end FloatOps

/-- The quantized points: `pivots` by centroid and dimension, `codes` by point
and chunk. `N` is a 32-bit field of the codes file. -/
structure PQSymL2 (ν δ ε : Type*) [LinearOrder δ] [LinearOrder ε] where
  ops : FloatOps ν δ ε
  N : ℕ
  QD : ℕ
  pivots : ℕ → ℕ → ν
  chunkOff : ℕ → ℕ
  codes : ℕ → ℕ → ℕ
  N_lt : N < 2 ^ 32

namespace PQSymL2

variable {ν δ ε : Type*} [LinearOrder δ] [LinearOrder ε] (pq : PQSymL2 ν δ ε)

/-- `build_cc_luts`: the table of a chunk. -/
def cc (m x y : ℕ) : ε :=
  let off := pq.chunkOff m
  let len := (pq.chunkOff (m + 1) + (2 ^ 32 - off % 2 ^ 32)) % 2 ^ 32
  pq.ops.toFloat (pq.ops.sum len fun k =>
    pq.ops.sqDiff (pq.pivots x (off + k)) (pq.pivots y (off + k)))

def dist (u v : ℕ) : ε :=
  pq.ops.toFloat (pq.ops.sum pq.QD fun m =>
    pq.ops.ofFloat (pq.cc m (pq.codes u m) (pq.codes v m)))

theorem cc_self (m x : ℕ) : pq.cc m x x = pq.ops.toFloat pq.ops.zero := by
  simp only [cc]
  rw [pq.ops.sum_zero fun _ _ => pq.ops.sqDiff_self _]

theorem le_cc (m x y : ℕ) : pq.ops.toFloat pq.ops.zero ≤ pq.cc m x y :=
  pq.ops.toFloat_mono (pq.ops.sum_nonneg fun _ _ => pq.ops.sqDiff_nonneg _ _)

theorem dist_self (v : ℕ) : pq.dist v v = pq.ops.toFloat pq.ops.zero := by
  unfold dist
  rw [pq.ops.sum_zero fun m _ => by rw [cc_self, pq.ops.ofFloat_zero]]

/-- No point is nearer to another than that one is to itself. -/
theorem dist_self_le (u v : ℕ) : pq.dist v v ≤ pq.dist u v := by
  rw [dist_self]
  refine pq.ops.toFloat_mono (pq.ops.sum_nonneg fun m _ => ?_)
  have h := pq.ops.ofFloat_mono (pq.le_cc m (pq.codes u m) (pq.codes v m))
  rwa [pq.ops.ofFloat_zero] at h

end PQSymL2

def natOps : FloatOps ℕ ℕ ℕ where
  zero := 0
  add := (· + ·)
  sqDiff x y := (max x y - min x y) ^ 2
  toFloat := id
  ofFloat := id
  add_zero := rfl
  le_add _ _ _ := Nat.le_add_right _ _
  sqDiff_self x := by simp
  sqDiff_nonneg _ _ := Nat.zero_le _
  toFloat_mono := monotone_id
  ofFloat_mono := monotone_id
  ofFloat_zero := rfl

def twoOnLine : PQSymL2 ℕ ℕ ℕ where
  ops := natOps
  N := 2
  QD := 1
  pivots x _ := x
  chunkOff m := m
  codes u _ := u
  N_lt := Bytes.two_lt_word

end HiDANN.Pruning
