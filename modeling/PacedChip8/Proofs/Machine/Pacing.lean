/-
How long a frame lasts. After its timer part a frame takes the least number of steps, at least one,
after which the last step was free or the budget is spent; every step before the last costs
something, so the number is at most the budget, and at most one instruction is spent beyond it. The
free steps are unknown words, which are passed over, and waits for a key that has not been let go,
which leave the machine as it was.
-/
import PacedChip8.Proofs.Machine.Trace
import Mathlib.Order.Bounds.Defs

namespace PacedChip8.Machine

/-! ## Free steps -/

theorem firstReleased?_keys {p : Keypad} : p.keys.firstReleased? = none ↔ ∀ key, p.isReleased key = false := by
  rw [Instruction.firstReleased?_eq_none_iff]
  constructor
  · intro h key
    by_cases hk : key.toNat < 16
    · exact h key hk
    · unfold Keypad.isReleased; rw [dif_neg hk]
  · exact fun h key _ => h key

/-- A step is free if it meets an unknown word, or waits while no key has been let go. -/
theorem step_cost_eq_zero_iff {m : Machine} {s : Stepped} (h : m.step = .ok s) :
    s.cost = 0 ↔ (∃ w, s.instruction = .unknown w) ∨
      ((∃ x, s.instruction = .awaitKey x) ∧ ∀ key, m.keypad.isReleased key = false) := by
  obtain ⟨cpu, held, ht, rfl⟩ := step_eq_ok.1 h
  rw [Instruction.cost_eq_zero_iff, ← firstReleased?_keys]
  apply or_congr_right
  apply and_congr_right
  rintro ⟨x, hx⟩
  rw [hx] at ht
  rcases Instruction.transition_awaitKey ht with ⟨hk, rfl, -⟩ | ⟨key, hk, rfl, -⟩ <;> simp [hk]

theorem step_unknown {m : Machine} {s : Stepped} (h : m.step = .ok s) (hw : ∃ w, s.instruction = .unknown w) :
    s.machine = { m with cpu := { m.cpu with pc := m.cpu.pc + 2 } } := by
  obtain ⟨w, hw⟩ := hw
  obtain ⟨cpu, held, ht, rfl⟩ := step_eq_ok.1 h
  simp only at hw ⊢
  rw [hw] at ht ⊢
  cases ht
  rfl

/-- A wait that finds no key leaves the machine as it was. -/
theorem step_stalled {m : Machine} {s : Stepped} (h : m.step = .ok s) (hx : ∃ x, s.instruction = .awaitKey x)
    (hk : ∀ key, m.keypad.isReleased key = false) : s.machine = m := by
  obtain ⟨x, hx⟩ := hx
  obtain ⟨cpu, held, ht, rfl⟩ := step_eq_ok.1 h
  simp only at hx ⊢
  rw [hx] at ht ⊢
  rcases Instruction.transition_awaitKey ht with ⟨-, -, rfl⟩ | ⟨key, hkey, -, -⟩
  · -- the fetch went two bytes on, and the retry goes them back
    have hpc : m.fetchedCpu.retry = m.cpu := by
      unfold fetchedCpu Cpu.retry
      simp
    rw [hpc]
    rfl
  · rw [firstReleased?_keys.2 hk] at hkey; cases hkey

/-! ## When a burst is over -/

/-- Whether a burst is over after these steps: the last was free, or the budget is spent. -/
def Over (budget : Nat) (t : Trace) : Prop :=
  (∃ e, t.getLast? = some e ∧ e.2.cost = 0) ∨ budget ≤ spent t

/-- Whether a burst is over after `k` steps from here. -/
def OverAfter (m : Machine) (budget k : Nat) : Prop :=
  ∃ n t, m.steps k = .ok (n, t) ∧ Over budget t

theorem over_singleton (budget : Nat) (e : Machine × Stepped) :
    Over budget [e] ↔ e.2.cost = 0 ∨ budget ≤ e.2.cost := by
  simp [Over]

theorem over_cons {budget : Nat} {e : Machine × Stepped} {t : Trace} (ht : t ≠ []) :
    Over budget (e :: t) ↔ Over (budget - e.2.cost) t := by
  unfold Over
  obtain ⟨l, hl⟩ : ∃ l, t.getLast? = some l := ⟨t.getLast ht, List.getLast?_eq_some_getLast ht⟩
  rw [List.getLast?_cons, hl, spent_cons]
  simp only [Option.getD_some]
  exact or_congr Iff.rfl ⟨fun h => by omega, fun h => by omega⟩

variable {unspent : Nat} {m n : Machine} {t : Trace}

theorem Burst.ne_nil (h : Burst unspent m t n) : t ≠ [] := by
  cases h <;> simp

theorem Burst.over (h : Burst unspent m t n) : Over unspent t := by
  induction h with
  | last _ hc => exact (over_singleton _ _).2 hc
  | more _ _ ht ih => exact (over_cons ht.ne_nil).2 ih

theorem Burst.not_over_take (h : Burst unspent m t n) : ∀ k, 1 ≤ k → k < t.length → ¬Over unspent (t.take k) := by
  induction h with
  | last _ _ => intro k h1 hk; simp at hk; omega
  | @more unspent m n s t _ hc ht ih =>
    -- the cut is before the first step, right behind it, or within the rest of the burst
    rintro (_ | _ | k) h1 hk
    · omega
    · rw [List.take_succ_cons, List.take_zero, over_singleton]; exact hc
    · have hne : t.take (k + 1) ≠ [] := by simp [ht.ne_nil]
      rw [List.take_succ_cons, over_cons hne]
      exact ih (k + 1) (by omega) (by simpa using hk)

theorem Burst.length_le (h : Burst unspent m t n) : t.length ≤ max 1 unspent := by
  induction h with
  | last _ _ => simp
  | more _ _ _ ih => rw [List.length_cons]; omega

/-- The steps before the last do not spend the budget. -/
theorem Burst.spent_dropLast (h : Burst unspent m t n) : spent t.dropLast < max 1 unspent := by
  induction h with
  | last _ _ => simp
  | more _ _ ht ih => rw [List.dropLast_cons_of_ne_nil ht.ne_nil, spent_cons]; simp only; omega

/-- The last step spends at most one instruction more. -/
theorem Burst.spent_lt (h : Burst unspent m t n) : spent t < max 1 unspent + 22734 := by
  induction h with
  | last hs _ => have := step_cost_le hs; simp only [spent_cons, spent_nil]; omega
  | more _ _ _ ih => rw [spent_cons]; simp only; omega

theorem spent_take_le (t : Trace) (k : Nat) : spent (t.take k) ≤ spent t := by
  have := spent_append (t.take k) (t.drop k)
  rw [List.take_append_drop] at this
  omega

theorem Steps.eq_take {k : Nat} {l : Machine} {u : Trace} (h : Steps m t n) (hk : k ≤ t.length)
    (hu : m.steps k = .ok (l, u)) : u = t.take k := by
  obtain ⟨l', hl⟩ := h.take k
  have := hl.eq_steps
  rw [List.length_take, Nat.min_eq_left hk, hu] at this
  cases this
  rfl

/-- The length of a burst is the least number of steps after which it is over. -/
theorem Burst.isLeast (h : Burst unspent m t n) : IsLeast {k | 1 ≤ k ∧ m.OverAfter unspent k} t.length := by
  refine ⟨⟨List.length_pos_of_ne_nil h.ne_nil, n, t, h.steps.eq_steps, h.over⟩, ?_⟩
  rintro k ⟨h1, l, u, hu, hover⟩
  -- fewer steps would be a beginning of this burst, and none of those is over
  by_contra hk
  obtain rfl := h.steps.eq_take (by omega) hu
  exact h.not_over_take k h1 (by omega) hover

theorem Burst.last_mem (h : Burst unspent m t n) : ∃ b s, t.getLast? = some (b, s) ∧ b.step = .ok s := by
  induction h with
  | last hs _ => exact ⟨_, _, rfl, hs⟩
  | more _ _ _ ih =>
    obtain ⟨b, s, hl, hs⟩ := ih
    exact ⟨b, s, by rw [List.getLast?_cons, hl]; rfl, hs⟩

/-! ## The pace of a frame -/

/-- A frame goes through, and is its timer part followed by the least number of steps, at least one,
after which the last step was free or the budget is spent. There are at most as many steps as the
budget is large; all but the last cost less than it, so what is spent stays within 64 bits; and the
last step is free exactly if it passes over an unknown word or stalls at a wait. -/
theorem tick_eq_least_steps {m : Machine} (hd : m.cpu.stack.depth ≤ CallStack.capacity) (hb : m.budget < 2 ^ 32) :
    ∃ k n t, IsLeast {k | 1 ≤ k ∧ m.beginFrame.OverAfter m.budget k} k ∧
      m.beginFrame.steps k = .ok (n, t) ∧ m.tick = .ok n ∧ m.observeTick record [] = .ok (n, t) ∧
      k ≤ max 1 m.budget ∧ spent t.dropLast < max 1 m.budget ∧
      (∀ j, spent (t.take j) < max 1 m.budget + 22734 ∧ spent (t.take j) < 2 ^ 64) ∧
      ∃ b s, t.getLast? = some (b, s) ∧
        (s.cost = 0 ↔ (∃ w, s.instruction = .unknown w) ∨
          ((∃ x, s.instruction = .awaitKey x) ∧ ∀ key, b.keypad.isReleased key = false)) ∧
        ((∃ w, s.instruction = .unknown w) → s.machine = { b with cpu := { b.cpu with pc := b.cpu.pc + 2 } }) ∧
        ((∃ x, s.instruction = .awaitKey x) → (∀ key, b.keypad.isReleased key = false) → s.machine = b) := by
  obtain ⟨t, n, h, hrun⟩ := observeTick_spec (m := m) hd
  obtain ⟨b, s, hl, hs⟩ := h.last_mem
  refine ⟨t.length, n, t, h.isLeast, h.steps.eq_steps, ?_, ?_, h.length_le, h.spent_dropLast, fun j => ?_,
    b, s, hl, step_cost_eq_zero_iff hs, step_unknown hs, step_stalled hs⟩
  · rw [tick, hrun]; rfl
  · rw [hrun, foldl_record]; rfl
  · have h1 := spent_take_le t j
    have h2 := h.spent_lt
    omega

/-- A program that jumps to itself, with a budget that its first jump does not spend. -/
theorem tick_eq_least_steps_loop :
    let m := (create { budget := 106 } 0 (.fresh false)).loaded (.complete [0x12, 0x00])
    m.cpu.stack.depth ≤ CallStack.capacity ∧ m.budget < 2 ^ 32 ∧
      ∃ k n t, IsLeast {k | 1 ≤ k ∧ m.beginFrame.OverAfter m.budget k} k ∧
        m.beginFrame.steps k = .ok (n, t) ∧ m.tick = .ok n ∧ k ≤ 106 ∧ spent t.dropLast < 106 := by
  intro m
  have hd : m.cpu.stack.depth ≤ CallStack.capacity := by decide
  have hb : m.budget < 2 ^ 32 := by decide
  obtain ⟨k, n, t, h1, h2, h3, -, h4, h5, -⟩ := tick_eq_least_steps hd hb
  exact ⟨hd, hb, k, n, t, h1, h2, h3, h4, h5⟩

end PacedChip8.Machine
