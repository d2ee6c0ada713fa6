/-
Flips, and where two pictures differ. Of the flips of a pixel only their parity counts
(`pixel_run_flips`). A flip changes two pictures in the same pixel, so it leaves their difference; a
clear makes it vanish. No command looks at what is lit, and so two screens that have been through the
same commands differ as they did before, or not at all.
-/
import PacedChip8.Screen.Basic
import Mathlib.Tactic

namespace PacedChip8.Screen

variable {s t : Screen} {commands : List Command}

/-! ## Flips -/

/-- A pixel changes with each flip of its index, and only with these. -/
theorem pixel_run_flips (s : Screen) (cells : List Nat) {x y : Nat} (hx : x < 64) (hy : y < 32) :
    (s.run (cells.map .flip)).pixel x y = (s.pixel x y ^^ decide (Odd (cells.count (64 * y + x)))) := by
  induction cells generalizing s with
  | nil => simp [run]
  | cons i cells ih =>
    show ((s.flip i).run (cells.map .flip)).pixel x y = _
    rw [ih, pixel_flip, List.count_cons]
    by_cases hi : i = 64 * y + x
    · simp only [hi, hx, hy, and_self, if_true, beq_self_eq_true, Nat.odd_add_one, decide_not, Bool.not_xor,
        Bool.xor_not]
    · simp [hi]

theorem pixel_eq_getElem (s : Screen) {k : Nat} (hk : k < 2048) : s.pixel (k % 64) (k / 64) = s.pixels[k] := by
  have hx : k % 64 < 64 ∧ k / 64 < 32 := by omega
  have hindex : 64 * (k / 64) + k % 64 = k := Nat.div_add_mod k 64
  simp only [pixel, dif_pos hx, hindex]

theorem pixels_eq_of_pixel (h : ∀ x y, x < 64 → y < 32 → s.pixel x y = t.pixel x y) : s.pixels = t.pixels := by
  ext k hk
  rw [← pixel_eq_getElem s hk, ← pixel_eq_getElem t hk]
  exact h (k % 64) (k / 64) (by omega) (by omega)

/-! ## Differences -/

/-- The pixels in which one screen is lit and the other is not. -/
def difference (s t : Screen) : Vector Bool 2048 := s.pixels.zipWith (· ^^ ·) t.pixels

theorem difference_flip (s t : Screen) (index : Nat) :
    difference (s.flip index) (t.flip index) = difference s t := by
  unfold flip
  split
  · ext k hk
    simp only [difference, Vector.getElem_zipWith, Vector.getElem_set]
    split
    · rename_i h
      subst h
      rw [Bool.not_xor_not]
    · rfl
  · rfl

/-- Commands other than a clear do to both screens the same, so what they differ in stays. -/
theorem difference_run (h : .clear ∉ commands) (s t : Screen) :
    difference (s.run commands) (t.run commands) = difference s t := by
  induction commands generalizing s t with
  | nil => rfl
  | cons command commands ih =>
    obtain ⟨hne, hrest⟩ := not_or.1 (mt List.mem_cons.2 h)
    have hlast : difference ((s.apply command).run commands) ((t.apply command).run commands) =
        difference (s.apply command) (t.apply command) := ih hrest _ _
    have hfirst : difference (s.apply command) (t.apply command) = difference s t := by
      cases command with
      | clear => exact absurd rfl hne
      | flip index => exact difference_flip s t index
      | mark dirty => rfl
    exact hlast.trans hfirst

/-- Screens without a difference have the same pixels, and the marks make none. -/
theorem difference_eq_dark_iff : difference s t = blank.pixels ↔ s.pixels = t.pixels := by
  constructor
  · intro h
    ext k hk
    have hk' : (difference s t)[k] = false := by rw [h]; simp [blank]
    simpa [difference] using hk'
  · intro h
    ext k hk
    simp [difference, blank, h]

end PacedChip8.Screen
