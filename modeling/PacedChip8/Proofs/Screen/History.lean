/-
What a screen remembers of its past. A clear makes all flips before it forgotten, and of those since only their
parity counts, each for the one pixel with its number (`pixel_run_blank`). The mark is what the last command
that sets it has made it (`dirty_run_blank`); clears set it, flips do not.
-/
import PacedChip8.Proofs.History
import PacedChip8.Proofs.Screen
import Mathlib.Data.List.DropRight

namespace PacedChip8.Screen

/-- What a command makes of the mark, if it sets it. -/
def Command.mark? : Command → Option Bool
  | clear => some true
  | flip _ => none
  | mark dirty => some dirty

/-- What the last command that sets the mark makes of it. -/
def lastMark? (commands : List Command) : Option Bool := History.last? Command.mark? commands

/-- The commands since the last clear, or all of them if there was none. -/
def sinceClear (commands : List Command) : List Command := commands.rtakeWhile (· != .clear)

variable {s : Screen} {c : Command} {commands : List Command} {index x y : Nat}

/-! ## Single commands -/

theorem flip_outside (hi : 2048 ≤ index) (s : Screen) : s.flip index = s := dif_neg (Nat.not_lt.2 hi)

theorem dirty_flip (s : Screen) (index : Nat) : (s.flip index).dirty = s.dirty := by
  unfold flip
  split <;> rfl

theorem dirty_apply (s : Screen) (c : Command) : (s.apply c).dirty = c.mark?.getD s.dirty := by
  cases c with
  | clear => rfl
  | flip index => exact dirty_flip s index
  | mark dirty => rfl

/-- A column outside the grid is dark, although its index may belong to a pixel of another row. -/
theorem pixel_outside (hx : 64 ≤ x) (s : Screen) (y : Nat) : s.pixel x y = false :=
  dif_neg fun h => Nat.not_lt.2 hx h.1

theorem lt_of_pixel (h : s.pixel x y = true) : x < 64 ∧ y < 32 := by
  unfold pixel at h
  split at h
  · assumption
  · cases h

/-! ## Histories -/

theorem run_concat (s : Screen) (commands : List Command) (c : Command) :
    s.run (commands ++ [c]) = (s.run commands).apply c :=
  List.foldl_concat ..

theorem sinceClear_concat (hc : c ≠ .clear) (commands : List Command) :
    sinceClear (commands ++ [c]) = sinceClear commands ++ [c] :=
  List.rtakeWhile_concat_pos _ _ _ (by simpa using hc)

/-- A pixel tells the parity of its flips since the last clear. -/
theorem pixel_run_blank (commands : List Command) (hx : x < 64) (hy : y < 32) :
    (blank.run commands).pixel x y = decide (Odd ((sinceClear commands).count (.flip (64 * y + x)))) := by
  induction commands using List.reverseRecOn with
  | nil => simp [run, sinceClear, blank, pixel]
  | append_singleton commands c ih =>
    rw [run_concat]
    cases c with
    | clear =>
      rw [sinceClear, List.rtakeWhile_concat_neg _ _ _ (by simp)]
      simp [apply, blank, pixel]
    | flip index =>
      rw [sinceClear_concat (by simp), List.count_append, List.count_singleton, apply, pixel_flip, ih]
      by_cases hi : index = 64 * y + x
      · simp only [hi, hx, hy, and_self, if_true, beq_self_eq_true, Nat.odd_add_one, decide_not]
      · simp [hi]
    | mark dirty =>
      rw [sinceClear_concat (by simp), List.count_append, List.count_singleton]
      exact ih

/-- The mark is what the last command that sets it has left, and flips do not. -/
theorem dirty_run_blank (commands : List Command) : (blank.run commands).dirty = (lastMark? commands).getD false := by
  induction commands using List.reverseRecOn with
  | nil => rfl
  | append_singleton commands c ih =>
    rw [run_concat, dirty_apply, ih]
    unfold lastMark?
    rw [History.last?_concat]
    cases c.mark? <;> rfl

/-- What a new screen shows after commands. -/
structure Recalls (commands : List Command) : Prop where
  lit : ∀ x y, (blank.run commands).pixel x y = true ↔
    x < 64 ∧ y < 32 ∧ Odd ((sinceClear commands).count (.flip (64 * y + x)))
  dirty : (blank.run commands).dirty = (lastMark? commands).getD false
  outside : ∀ index, 2048 ≤ index → blank.run (commands ++ [.flip index]) = blank.run commands
  unmarked : ∀ index, (blank.run (commands ++ [.flip index])).dirty = (blank.run commands).dirty
  /-- A column past the last one is not the start of the next row. -/
  column : ∀ x y, 64 ≤ x → (blank.run commands).pixel x y = false

/-- A pixel is lit exactly if it is on the screen and has been flipped an odd number of times since the last clear;
the mark is the last that was set, a clear setting it. Flips beyond the last pixel change nothing, and no flip
changes the mark. -/
theorem commands_recalled (commands : List Command) : Recalls commands where
  lit := by
    intro x y
    constructor
    · intro h
      obtain ⟨hx, hy⟩ := lt_of_pixel h
      rw [pixel_run_blank commands hx hy, decide_eq_true_eq] at h
      exact ⟨hx, hy, h⟩
    · rintro ⟨hx, hy, h⟩
      rw [pixel_run_blank commands hx hy, decide_eq_true_eq]
      exact h
  dirty := dirty_run_blank commands
  outside := by
    intro index hi
    rw [run_concat]
    exact flip_outside hi _
  unmarked := by
    intro index
    rw [run_concat]
    exact dirty_flip _ index
  column := fun _ y hx => pixel_outside hx _ y

/-- Two flips of one pixel cancel, one before a clear is forgotten, and the last column is not the next row's first. -/
theorem commands_recalled_cleared :
    let commands : List Command := [.flip 64, .clear, .flip 63, .mark false, .flip 5, .flip 5]
    let s := blank.run commands
    s.pixel 63 0 = true ∧ s.pixel 0 1 = false ∧ s.pixel 64 0 = false ∧ s.pixel 5 0 = false ∧ s.dirty = false ∧
      blank.run (commands ++ [.flip 5000]) = s := by
  intro commands s
  have h := commands_recalled commands
  have hdark : ¬Odd ((sinceClear commands).count (.flip 64)) ∧ ¬Odd ((sinceClear commands).count (.flip 5)) := by decide
  refine ⟨(h.lit 63 0).2 (by decide), ?_, h.column 64 0 le_rfl, ?_, h.dirty, h.outside 5000 (by decide)⟩
  · rw [← Bool.not_eq_true, h.lit 0 1]
    exact fun hodd => hdark.1 hodd.2.2
  · rw [← Bool.not_eq_true, h.lit 5 0]
    exact fun hodd => hdark.2 hodd.2.2

end PacedChip8.Screen
