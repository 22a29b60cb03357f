import Mathlib.Data.Fintype.Card
import Mathlib.Data.Finset.Card
import Mathlib.Algebra.BigOperators.Group.Finset.Piecewise

/-! # Counting threads at program points

A system of finitely many threads keeps one program point for each of them.
Moving one thread changes the number of threads in a class of points by what
the two points contribute. -/

namespace FavoriteAssignments.ThreadCount

variable {T P : Type*} [Fintype T]

/-- The number of threads whose program point lies in the class `f`. -/
def count (pc : T → P) (f : P → Bool) : ℕ :=
  (Finset.univ.filter fun t => f (pc t) = true).card

theorem count_congr {pc pc' : T → P} {f : P → Bool} (h : ∀ t, f (pc' t) = f (pc t)) :
    count pc' f = count pc f := by
  unfold count
  congr 1
  ext t
  simp [h t]

theorem count_eq_zero {pc : T → P} {f : P → Bool} :
    count pc f = 0 ↔ ∀ t, f (pc t) = false := by
  simp [count, Finset.filter_eq_empty_iff]

theorem count_pos {pc : T → P} {f : P → Bool} :
    0 < count pc f ↔ ∃ t, f (pc t) = true := by
  simp [count, Finset.card_pos, Finset.filter_nonempty_iff]

theorem count_pos_of {pc : T → P} {f : P → Bool} {t : T} (h : f (pc t) = true) :
    0 < count pc f :=
  count_pos.mpr ⟨t, h⟩

theorem toNat_le_count {pc : T → P} {f : P → Bool} (t : T) : (f (pc t)).toNat ≤ count pc f := by
  cases h : f (pc t) with
  | false => simp
  | true => exact count_pos_of h

theorem count_le_one {pc : T → P} {f : P → Bool} (h : count pc f ≤ 1) {t u : T}
    (ht : f (pc t) = true) (hu : f (pc u) = true) : t = u :=
  Finset.card_le_one.mp h t (by simp [ht]) u (by simp [hu])

/-- Two disjoint classes that make up a third. -/
theorem count_add {pc : T → P} {f g h : P → Bool}
    (hor : ∀ p, h p = (f p || g p)) (hand : ∀ p, f p = true → g p = false) :
    count pc h = count pc f + count pc g := by
  classical
  unfold count
  rw [← Finset.card_union_of_disjoint]
  · congr 1
    ext t
    simp [hor]
  · rw [Finset.disjoint_filter]
    intro t _ ht
    simp [hand _ ht]

/-- Moving one thread. -/
theorem count_update [DecidableEq T] (pc : T → P) (t : T) (q : P) (f : P → Bool) :
    count (Function.update pc t q) f + (f (pc t)).toNat = count pc f + (f q).toNat := by
  have hsplit : ∀ g : T → Bool,
      (Finset.univ.filter fun u => g u = true).card =
        ((Finset.univ.erase t).filter fun u => g u = true).card + (g t).toNat := by
    intro g
    rw [← Finset.insert_erase (Finset.mem_univ t), Finset.filter_insert]
    cases hg : g t with
    | false => simp
    | true =>
        rw [if_pos rfl, Finset.card_insert_of_notMem (by simp)]
        simp
  have hrest : ((Finset.univ.erase t).filter fun u => f (Function.update pc t q u) = true) =
      (Finset.univ.erase t).filter fun u => f (pc u) = true := by
    apply Finset.filter_congr
    intro u hu
    rw [Function.update_of_ne (Finset.ne_of_mem_erase hu)]
  have h1 := hsplit fun u => f (Function.update pc t q u)
  have h2 := hsplit fun u => f (pc u)
  simp only [Function.update_self] at h1
  unfold count
  rw [h1, h2, hrest]
  omega

/-- What the threads contribute to a sum, after one of them has moved. -/
theorem sum_update {M : Type*} [AddCommMonoid M] [DecidableEq T] (pc : T → P) (t : T) (q : P)
    (f : P → M) :
    ∑ u, f (Function.update pc t q u) + f (pc t) = ∑ u, f (pc u) + f q := by
  have hmap : ∀ u, f (Function.update pc t q u) = Function.update (fun u => f (pc u)) t (f q) u :=
    fun u => Function.apply_update (fun _ => f) pc t q u
  simp only [hmap]
  rw [Finset.sum_update_of_mem (Finset.mem_univ t),
    Finset.sum_eq_add_sum_sdiff_singleton_of_mem (Finset.mem_univ t) fun u => f (pc u),
    add_comm (f q), add_assoc, add_comm (f q), ← add_assoc, add_comm _ (f (pc t))]

end FavoriteAssignments.ThreadCount
