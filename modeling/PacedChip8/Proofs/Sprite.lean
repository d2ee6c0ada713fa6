/-
Where a sprite falls. A row byte falls on the pixels under its set bits, as far as these are on the screen
(`mem_rowCells`), and the rows fall below each other (`mem_cells`). The pixels of a sprite come in
ascending order, so that none comes twice, and all of them are on the screen.
-/
import PacedChip8.Sprite
import Mathlib.Tactic

namespace PacedChip8.Sprite

open Screen (width height)

variable {left top row col i : Nat} {b : UInt8} {rows : List UInt8}

/-! ## Rows -/

/-- The cells of a row are the columns on the screen that lie under a set bit, the highest bit on the left. -/
theorem mem_rowCells : i ∈ rowCells left row b ↔
    ∃ k < 8, left + k < width ∧ b.toNat.testBit (7 - k) = true ∧ width * row + (left + k) = i := by
  simp only [rowCells, List.mem_filterMap, List.mem_range, Option.ite_none_right_eq_some, Option.some.injEq, and_assoc]

/-- The cells of a row lie in it. -/
theorem mem_row (hi : i ∈ rowCells left row b) : width * row ≤ i ∧ i < width * (row + 1) := by
  obtain ⟨k, -, hk, -, rfl⟩ := mem_rowCells.1 hi
  constructor
  · omega
  · rw [Nat.mul_succ]; omega

theorem rowCells_ascending (left row : Nat) (b : UInt8) : (rowCells left row b).Pairwise (· < ·) := by
  refine List.pairwise_filterMap.2 (List.pairwise_lt_range.imp ?_)
  intro j k hjk i hi i' hi'
  simp only [Option.ite_none_right_eq_some, Option.some.injEq] at hi hi'
  omega

/-! ## Sprites -/

theorem mem_cells : i ∈ cells left top rows ↔
    ∃ j b, rows[j]? = some b ∧ top + j < height ∧ i ∈ rowCells left (top + j) b := by
  induction rows generalizing top with
  | nil => simp [cells]
  | cons first rest ih =>
    rw [cells, List.mem_append, ih]
    constructor
    · rintro (hi | ⟨j, b, hb, hj, hi⟩)
      · split at hi
        · rename_i htop
          exact ⟨0, first, rfl, htop, hi⟩
        · cases hi
      · rw [show top + 1 + j = top + (j + 1) by omega] at hj hi
        exact ⟨j + 1, b, hb, hj, hi⟩
    · rintro ⟨_ | j, b, hb, hj, hi⟩
      · cases hb
        rw [Nat.add_zero] at hj hi
        exact .inl (by rw [if_pos hj]; exact hi)
      · rw [show top + (j + 1) = top + 1 + j by omega] at hj hi
        exact .inr ⟨j, b, hb, hj, hi⟩

theorem cells_lt (hi : i ∈ cells left top rows) : i < 2048 := by
  obtain ⟨j, b, -, hj, hi⟩ := mem_cells.1 hi
  obtain ⟨-, hlt⟩ := mem_row hi
  unfold width height at *
  omega

/-- Cells come up row by row from left to right, so that none comes twice. -/
theorem cells_ascending (left top : Nat) (rows : List UInt8) : (cells left top rows).Pairwise (· < ·) := by
  induction rows generalizing top with
  | nil => exact .nil
  | cons b rows ih =>
    rw [cells, List.pairwise_append]
    refine ⟨?_, ih (top + 1), fun i hi i' hi' => ?_⟩
    · split
      · exact rowCells_ascending left top b
      · exact .nil
    · -- the rows below begin where this one ends
      split at hi
      · obtain ⟨j, b', -, -, hi'⟩ := mem_cells.1 hi'
        have hlt := (mem_row hi).2
        have hle := (mem_row hi').1
        exact lt_of_lt_of_le hlt (le_trans (Nat.mul_le_mul_left width (by omega)) hle)
      · cases hi

/-- A pixel of the screen is among the cells if a set bit of the sprite lies over it. -/
theorem pixel_mem_cells (hcol : col < width) (hrow : row < height) : width * row + col ∈ cells left top rows ↔
    top ≤ row ∧ left ≤ col ∧ col < left + 8 ∧
      ∃ b, rows[row - top]? = some b ∧ b.toNat.testBit (7 - (col - left)) = true := by
  rw [mem_cells]
  constructor
  · rintro ⟨j, b, hb, hj, hi⟩
    obtain ⟨k, hk, hkw, hbit, heq⟩ := mem_rowCells.1 hi
    unfold width at *
    obtain rfl : row = top + j := by omega
    obtain rfl : col = left + k := by omega
    refine ⟨by omega, by omega, by omega, b, ?_, ?_⟩
    · rwa [Nat.add_sub_cancel_left]
    · rwa [Nat.add_sub_cancel_left]
  · rintro ⟨htop, hleft, hlt, b, hb, hbit⟩
    refine ⟨row - top, b, hb, by omega, mem_rowCells.2 ⟨col - left, by omega, by omega, hbit, ?_⟩⟩
    rw [Nat.add_sub_cancel' htop, Nat.add_sub_cancel' hleft]

end PacedChip8.Sprite
