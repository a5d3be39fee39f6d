import FlowReport.Pagination
import Mathlib.Data.List.Basic

/-!
# Pages and primitives

What a page has of the primitives, by its number: page `n` shows what the first `(n - 1) / 2`
primitives come to, and every page but the first one is about the primitive at `n / 2`.
-/

namespace FlowReport

variable {α : Type}

theorem slice_front (items : List α) (k : Nat) : slice items 0 k = items.take k := by
  have stop : clampPosition items.length k = min k items.length := by
    rw [clampPosition, if_neg (by omega), Int.toNat_natCast]
  have start : clampPosition items.length 0 = 0 := by
    rw [clampPosition, if_neg (by omega), Int.toNat_zero, Nat.zero_min]
  rw [slice, stop, start, List.drop_zero, ← List.take_eq_take_min]

namespace Pagination

@[simp] theorem number_page (prims : List α) (n : Nat) : (page prims n).number = n := rfl

theorem place_of_pos {n : Nat} (h : 1 < n) :
    place n = (n / 2, if n % 2 = 0 then .before else .after) := by
  have half : (n - 1 + 1) / 2 = n / 2 := by rw [Nat.sub_add_cancel (Nat.le_of_lt h)]
  have parity : (n - 1) % 2 = 1 ↔ n % 2 = 0 := by omega
  rw [place, if_neg (Nat.ne_of_gt h)]
  simp only [half, parity]

/-- The primitives that are recovered on a page. -/
theorem recovered_page (prims : List α) {n : Nat} (first : 1 ≤ n) :
    (page prims n).recovered = prims.take ((n - 1) / 2) := by
  rcases Nat.eq_or_lt_of_le first with rfl | later
  · rfl
  · rw [page, place_of_pos later]
    by_cases even : n % 2 = 0
    · have step : ((n / 2 : Nat) : Int) - 1 = ((n - 1) / 2 : Nat) := by omega
      rw [if_pos even]
      show slice prims 0 (((n / 2 : Nat) : Int) - 1) = _
      rw [step]
      exact slice_front _ _
    · have step : n / 2 = (n - 1) / 2 := by omega
      rw [if_neg even, ← step]
      exact slice_front prims (n / 2)

/-- The primitive that a page is about. -/
theorem active_page (prims : List α) {n : Nat} (first : 1 ≤ n) :
    (page prims n).active = if n = 1 then none else prims[n / 2 - 1]? := by
  rcases Nat.eq_or_lt_of_le first with rfl | later
  · rfl
  · rw [if_neg (Nat.ne_of_gt later), page, place_of_pos later]
    exact if_neg (by omega)

theorem length_pages (prims : List α) : (pages prims).length = 2 * prims.length + 1 := by
  rw [pages, List.length_map, List.length_range, count, Nat.add_comm]

theorem getElem_pages (prims : List α) {i : Nat} (h : i < (pages prims).length) :
    (pages prims)[i] = page prims (i + 1) := by
  simp [pages]

theorem mem_pages {prims : List α} {p : Page α} :
    p ∈ pages prims ↔ ∃ n, 1 ≤ n ∧ n ≤ 2 * prims.length + 1 ∧ p = page prims n := by
  rw [pages, List.mem_map]
  constructor
  · rintro ⟨k, hk, rfl⟩
    rw [List.mem_range, count] at hk
    exact ⟨k + 1, by omega, by omega, rfl⟩
  · rintro ⟨n, low, high, rfl⟩
    refine ⟨n - 1, ?_, by rw [Nat.sub_add_cancel low]⟩
    rw [List.mem_range, count]
    omega

theorem mem_take_pages {prims : List α} {p : Page α} {last : Nat}
    (inside : last ≤ 2 * prims.length + 1) :
    p ∈ (pages prims).take last ↔ ∃ n, 1 ≤ n ∧ n ≤ last ∧ p = page prims n := by
  rw [List.mem_take_iff_getElem]
  simp only [getElem_pages, length_pages, Nat.min_eq_left inside]
  constructor
  · rintro ⟨i, hi, rfl⟩
    exact ⟨i + 1, by omega, by omega, rfl⟩
  · rintro ⟨n, low, high, rfl⟩
    exact ⟨n - 1, by omega, by rw [Nat.sub_add_cancel low]⟩

end Pagination

end FlowReport
