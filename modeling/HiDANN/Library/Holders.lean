import Mathlib.Data.Finset.Card
import Mathlib.Data.Fintype.Card
import Mathlib.Data.Finset.Image

/-! Things that have one holder at a time. Numbers are handed out from a counter, so that each is
new; things of a pool are taken from it and given back. -/

namespace HiDANN.Holders

variable {ι κ : Type*} [DecidableEq ι] {holds : ι → Option κ} {w : ι} {k : κ}

/-- Nothing has two holders. -/
def Exclusive (holds : ι → Option κ) : Prop :=
  ∀ v w k, holds v = some k → holds w = some k → v = w

theorem Exclusive.release (h : Exclusive holds) (w : ι) :
    Exclusive (Function.update holds w none) := by
  intro u v k hu hv
  rcases eq_or_ne u w with rfl | huw
  · rw [Function.update_self] at hu
    cases hu
  · rcases eq_or_ne v w with rfl | hvw
    · rw [Function.update_self] at hv
      cases hv
    · rw [Function.update_of_ne huw] at hu
      rw [Function.update_of_ne hvw] at hv
      exact h u v k hu hv

theorem Exclusive.hold (h : Exclusive holds) (w : ι) (hk : ∀ v, holds v ≠ some k) :
    Exclusive (Function.update holds w (some k)) := by
  intro u v l hu hv
  rcases eq_or_ne u w with rfl | huw
  · rcases eq_or_ne v u with rfl | hvu
    · rfl
    · rw [Function.update_self] at hu
      rw [Function.update_of_ne hvu, ← hu] at hv
      exact absurd hv (hk v)
  · rw [Function.update_of_ne huw] at hu
    rcases eq_or_ne v w with rfl | hvw
    · rw [Function.update_self] at hv
      rw [← hv] at hu
      exact absurd hu (hk u)
    · rw [Function.update_of_ne hvw] at hv
      exact h u v l hu hv

/-! ### Numbers -/

/-- Numbers below a counter. -/
structure Numbered (next : ℕ) (holds : ι → Option ℕ) : Prop where
  exclusive : Exclusive holds
  lt : ∀ v k, holds v = some k → k < next

theorem Numbered.release {next : ℕ} {holds : ι → Option ℕ} (h : Numbered next holds) (w : ι) :
    Numbered next (Function.update holds w none) := by
  refine ⟨h.exclusive.release w, fun v k hk => ?_⟩
  rcases eq_or_ne v w with rfl | hv
  · rw [Function.update_self] at hk
    cases hk
  · rw [Function.update_of_ne hv] at hk
    exact h.lt v k hk

theorem Numbered.next {next : ℕ} {holds : ι → Option ℕ} (h : Numbered next holds) (w : ι) :
    Numbered (next + 1) (Function.update holds w (some next)) := by
  refine ⟨h.exclusive.hold w fun v hv => (h.lt v next hv).false, fun v k hk => ?_⟩
  rcases eq_or_ne v w with rfl | hv
  · rw [Function.update_self] at hk
    exact Option.some.inj hk ▸ Nat.lt_succ_self next
  · rw [Function.update_of_ne hv] at hk
    exact (h.lt v k hk).trans (Nat.lt_succ_self next)

/-! ### Pools -/

/-- Everything is in the pool once, or has a holder. -/
structure Pooled (all : Finset κ) (pool : List κ) (holds : ι → Option κ) : Prop where
  exclusive : Exclusive holds
  nodup : pool.Nodup
  mem_iff : ∀ k, k ∈ all ↔ k ∈ pool ∨ ∃ v, holds v = some k
  not_held : ∀ k ∈ pool, ∀ v, holds v ≠ some k

variable {all : Finset κ} {pool : List κ}

theorem Pooled.take (h : Pooled all (k :: pool) holds) (hw : holds w = none) :
    Pooled all pool (Function.update holds w (some k)) := by
  obtain ⟨hfresh, hnd⟩ := List.nodup_cons.mp h.nodup
  refine ⟨h.exclusive.hold w (h.not_held k List.mem_cons_self), hnd, fun l => ?_, fun l hl v => ?_⟩
  · rw [h.mem_iff l, List.mem_cons]
    constructor
    · rintro ((rfl | hl) | ⟨v, hv⟩)
      · exact .inr ⟨w, Function.update_self ..⟩
      · exact .inl hl
      · refine .inr ⟨v, ?_⟩
        rw [Function.update_of_ne, hv]
        rintro rfl
        rw [hw] at hv
        cases hv
    · rintro (hl | ⟨v, hv⟩)
      · exact .inl (.inr hl)
      · rcases eq_or_ne v w with rfl | hvw
        · rw [Function.update_self] at hv
          exact .inl (.inl (Option.some.inj hv).symm)
        · rw [Function.update_of_ne hvw] at hv
          exact .inr ⟨v, hv⟩
  · rcases eq_or_ne v w with rfl | hvw
    · rw [Function.update_self]
      rintro ⟨⟩
      exact hfresh hl
    · rw [Function.update_of_ne hvw]
      exact h.not_held l (List.mem_cons_of_mem k hl) v

theorem Pooled.give (h : Pooled all pool holds) (hw : holds w = some k) :
    Pooled all (pool ++ [k]) (Function.update holds w none) := by
  have hnot : k ∉ pool := fun hk => h.not_held k hk w hw
  refine ⟨h.exclusive.release w, ?_, fun l => ?_, fun l hl v => ?_⟩
  · rw [List.nodup_append_comm, List.singleton_append]
    exact List.nodup_cons.mpr ⟨hnot, h.nodup⟩
  · rw [h.mem_iff l, List.mem_append, List.mem_singleton]
    constructor
    · rintro (hl | ⟨v, hv⟩)
      · exact .inl (.inl hl)
      · rcases eq_or_ne v w with rfl | hvw
        · exact .inl (.inr (Option.some.inj (hv.symm.trans hw)))
        · exact .inr ⟨v, by rw [Function.update_of_ne hvw, hv]⟩
    · rintro ((hl | rfl) | ⟨v, hv⟩)
      · exact .inl hl
      · exact .inr ⟨w, hw⟩
      · rcases eq_or_ne v w with rfl | hvw
        · rw [Function.update_self] at hv
          cases hv
        · rw [Function.update_of_ne hvw] at hv
          exact .inr ⟨v, hv⟩
  · rcases eq_or_ne v w with rfl | hvw
    · rw [Function.update_self]
      exact nofun
    · rw [Function.update_of_ne hvw]
      rcases List.mem_append.mp hl with hl | hl
      · exact h.not_held l hl v
      · rw [List.mem_singleton.mp hl]
        exact fun hv => hvw (h.exclusive v w k hv hw)

/-- With a thing for everybody, one who holds none finds one in the pool. -/
theorem Pooled.ne_nil [Fintype ι] [DecidableEq κ] (h : Pooled all pool holds)
    (hcard : Fintype.card ι ≤ all.card) (hw : holds w = none) : pool ≠ [] := by
  rintro rfl
  have hsub : all.image some ⊆ (Finset.univ.erase w).image holds := by
    intro o ho
    obtain ⟨k, hk, rfl⟩ := Finset.mem_image.mp ho
    obtain ⟨v, hv⟩ := ((h.mem_iff k).mp hk).resolve_left List.not_mem_nil
    refine Finset.mem_image.mpr ⟨v, Finset.mem_erase.mpr ⟨?_, Finset.mem_univ v⟩, hv⟩
    rintro rfl
    rw [hw] at hv
    cases hv
  have hle := (Finset.card_le_card hsub).trans Finset.card_image_le
  rw [Finset.card_image_of_injective _ (Option.some_injective κ),
    Finset.card_erase_of_mem (Finset.mem_univ w), Finset.card_univ] at hle
  have : 0 < Fintype.card ι := Fintype.card_pos_iff.mpr ⟨w⟩
  omega

end HiDANN.Holders
