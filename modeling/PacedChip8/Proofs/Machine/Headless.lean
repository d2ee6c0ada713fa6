/-
Runs with nobody at the keys. From the first sample on the keys that were held at it are the keys that
are held, so none ever counts as released, and a wait never gets a key: it is free, and ends its
frame. The frame after it meets the same wait again, so from there on nothing goes on but the timers
and the speaker (`headless_idled`).
-/
import PacedChip8.Proofs.Machine.Waits

namespace PacedChip8.Machine

/-- One frame with nobody at the keys, with its steps. -/
def idleFrame (m : Machine) : Except Fault (Machine × Trace) :=
  (m.withKeypad Keypad.sample).observeTick record []

variable {m n l r : Machine} {s : Stepped} {t : Trace} {k : Nat}

/-! ## Frame after frame -/

theorem headless_of_idleFrame (h : m.idleFrame = .ok (r, t)) (k : Nat) : m.headless (k + 1) = r.headless k := by
  rw [headless, tick_of_observeTick h]

theorem exists_of_headless (h : m.headless (k + 1) = .ok l) :
    ∃ r t, m.idleFrame = .ok (r, t) ∧ r.headless k = .ok l := by
  rw [headless] at h
  rcases ht : (m.withKeypad Keypad.sample).tick with fault | r
  · rw [ht] at h; cases h
  · rw [ht] at h
    obtain ⟨t, hframe⟩ := observeTick_of_tick ht record []
    exact ⟨r, t, hframe, h⟩

theorem headless_add {a : Nat} (h : m.headless a = .ok l) (b : Nat) : m.headless (a + b) = l.headless b := by
  induction a generalizing m with
  | zero => cases h; rw [Nat.zero_add]
  | succ a ih =>
    obtain ⟨r, t, hr, h⟩ := exists_of_headless h
    rw [Nat.add_right_comm, headless_of_idleFrame hr, ih h]

theorem headless_succ (h : m.headless k = .ok l) (hr : l.idleFrame = .ok (r, t)) : m.headless (k + 1) = .ok r := by
  rw [headless_add h, headless_of_idleFrame hr, headless]

theorem exists_idleFrame (hd : m.cpu.stack.depth ≤ 16) :
    ∃ r t, m.idleFrame = .ok (r, t) ∧ r.cpu.stack.depth ≤ 16 := by
  obtain ⟨t, r, ht, hrun⟩ := observeTick_spec (m := m.withKeypad Keypad.sample) hd
  exact ⟨r, _, hrun record [], (ht.steps.keeps step_depth_le hd).1⟩

theorem exists_headless (hd : m.cpu.stack.depth ≤ 16) (k : Nat) :
    ∃ l, m.headless k = .ok l ∧ l.cpu.stack.depth ≤ 16 := by
  induction k with
  | zero => exact ⟨m, rfl, hd⟩
  | succ k ih =>
    obtain ⟨l, hl, hld⟩ := ih
    obtain ⟨r, t, hr, hrd⟩ := exists_idleFrame hld
    exact ⟨r, headless_succ hl hr, hrd⟩

theorem idleFrame_burst (h : m.idleFrame = .ok (r, t)) :
    Burst m.budget (m.withKeypad Keypad.sample).beginFrame t r := by
  obtain ⟨u, hu, rfl⟩ := observeTick_eq_ok h
  rw [foldl_record]
  exact hu

/-! ## The keys -/

/-- No step moves a key, so a frame leaves the keypad as its sample has made it. -/
theorem idleFrame_keypad (h : m.idleFrame = .ok (r, t)) :
    r.keypad = m.keypad.sample ∧ ∀ e ∈ t, e.1.keypad = m.keypad.sample :=
  (idleFrame_burst h).steps.keeps (P := fun n => n.keypad = m.keypad.sample)
    (fun hs hm => (step_keypad hs).trans hm) rfl

theorem headless_held (h : m.headless k = .ok l) : l.keypad.held = m.keypad.held := by
  induction k generalizing m with
  | zero => cases h; rfl
  | succ k ih =>
    obtain ⟨r, t, hr, h⟩ := exists_of_headless h
    rw [ih h, (idleFrame_keypad hr).1]
    rfl

/-- In such a frame the sample and the held keys are the same, so no key counts as released. -/
theorem idleFrame_isReleased (h : m.idleFrame = .ok (r, t)) {e : Machine × Stepped} (he : e ∈ t) (key : UInt8) :
    e.1.keypad.isReleased key = false := by
  rw [(idleFrame_keypad h).2 e he]
  exact m.keypad.isReleased_sample key

/-! ## Waits -/

theorem idleFrame_wait (h : m.idleFrame = .ok (r, t)) {before after : Trace} {e : Machine × Stepped}
    (ht : t = before ++ e :: after) (hx : ∃ x, e.2.instruction = .awaitKey x) :
    e.2.cost = 0 ∧ e.2.machine = e.1 ∧ after = [] := by
  have hburst := idleFrame_burst h
  have he : e ∈ t := ht ▸ List.mem_append_right _ (List.mem_cons_self ..)
  have hs := hburst.steps.step_of_mem e he
  have hk := idleFrame_isReleased h he
  have hcost := (step_cost_eq_zero_iff hs).2 (.inr ⟨hx, hk⟩)
  exact ⟨hcost, step_stalled hs hx hk, hburst.free_last ht hcost⟩

/-- The machine that a frame with a wait leaves stands at this wait, with a keypad just sampled. -/
theorem idleFrame_stands (h : m.idleFrame = .ok (r, t)) {e : Machine × Stepped} (he : e ∈ t) {x : Nat}
    (hx : e.2.instruction = .awaitKey x) : r.instruction = .awaitKey x ∧ r.keypad.sample = r.keypad := by
  have hsteps := (idleFrame_burst h).steps
  have hs := hsteps.step_of_mem e he
  obtain ⟨before, after, ht⟩ := List.append_of_mem he
  obtain ⟨-, hm, rfl⟩ := idleFrame_wait h ht ⟨x, hx⟩
  -- the wait is the last step and has left its machine alone
  have hend : r = e.1 := (ht ▸ hsteps).end_eq.trans hm
  constructor
  · rw [hend, ← hx, step_instruction hs]
  · rw [(idleFrame_keypad h).1]
    rfl

theorem headless_idled {x : Nat} (hi : m.instruction = .awaitKey x) (hk : m.keypad.sample = m.keypad) (k : Nat) :
    m.headless k = .ok (m.idled k) := by
  induction k generalizing m with
  | zero => rw [idled_eq_iterate]; rfl
  | succ k ih =>
    obtain ⟨s, -, -, -, htick⟩ := tick_stall hi fun key => hk ▸ m.keypad.isReleased_sample key
    have hm : m.withKeypad Keypad.sample = m := by rw [withKeypad, hk]
    have hframe : m.idleFrame = .ok (m.beginFrame, [(m.beginFrame, s)]) := by rw [idleFrame, hm, htick]; rfl
    rw [headless_of_idleFrame hframe, ← idled_beginFrame]
    exact ih (m := m.beginFrame) hi hk

/-- With nobody at the keys no wait is ever over. The keys that are held stay so, none counts as
released in any frame, and a wait is free, leaves the machine as it was, and is the last step of its
frame. So from the first frame with a wait on nothing goes on but the timers and the speaker. -/
theorem headless_never_wakes (m : Machine) (k : Nat) :
    (m.cpu.stack.depth ≤ CallStack.capacity → ∃ l r t, m.headless k = .ok l ∧ l.idleFrame = .ok (r, t)) ∧
      ∀ l r t, m.headless k = .ok l → l.idleFrame = .ok (r, t) →
        m.headless (k + 1) = .ok r ∧ l.keypad.held = m.keypad.held ∧ r.keypad.held = m.keypad.held ∧
        (∀ e ∈ t, e.1.keypad.held = m.keypad.held ∧ ∀ key, e.1.keypad.isReleased key = false) ∧
        (∀ before e after, t = before ++ e :: after → (∃ x, e.2.instruction = .awaitKey x) →
          e.2.cost = 0 ∧ e.2.machine = e.1 ∧ after = []) ∧
        ((∃ e ∈ t, ∃ x, e.2.instruction = .awaitKey x) →
          ∀ n, k + 1 ≤ n → m.headless n = .ok (r.idled (n - (k + 1)))) := by
  refine ⟨fun hd => ?_, fun l r t hl hr => ?_⟩
  · obtain ⟨l, hl, hld⟩ := exists_headless hd k
    obtain ⟨r, t, hr, -⟩ := exists_idleFrame hld
    exact ⟨l, r, t, hl, hr⟩
  · have hsucc := headless_succ hl hr
    have hheld := headless_held hl
    obtain ⟨hpad, hpads⟩ := idleFrame_keypad hr
    refine ⟨hsucc, hheld, (congrArg Keypad.held hpad).trans hheld, fun e he => ⟨?_, idleFrame_isReleased hr he⟩,
      fun _ _ _ => idleFrame_wait hr, ?_⟩
    · exact (congrArg Keypad.held (hpads e he)).trans hheld
    · rintro ⟨e, he, x, hx⟩ n hn
      obtain ⟨hi, hsample⟩ := idleFrame_stands hr he hx
      obtain ⟨j, rfl⟩ := Nat.exists_eq_add_of_le hn
      rw [headless_add hsucc, headless_idled hi hsample, Nat.add_sub_cancel_left]

/-- A wait as the first instruction, with a key that counts as released until the first sample. -/
theorem headless_never_wakes_released_key :
    let m : Machine := { create {} 0 (.fresh false) with
      cpu := { Cpu.initial with memory := (Memory.blank.set 0x200 0xF3).set 0x201 0x0A }
      keypad := (((Keypad.idle.press 7).press 5).sample).release 7 }
    m.keypad.isReleased 7 = true ∧ m.cpu.stack.depth ≤ CallStack.capacity ∧
      ∃ r t, m.idleFrame = .ok (r, t) ∧ (∃ e ∈ t, ∃ x, e.2.instruction = .awaitKey x) ∧
        ∀ n, 1 ≤ n → m.headless n = .ok (r.idled (n - 1)) := by
  intro m
  have hd : m.cpu.stack.depth ≤ CallStack.capacity := by decide
  have hi : m.instruction = .awaitKey 3 := by
    have hw : m.fetchedWord = 0xF30A := Memory.word_set_set .blank 0x200 0xF3 0x0A
    rw [Machine.instruction, hw]
    decide
  obtain ⟨hgo, hstays⟩ := headless_never_wakes m 0
  obtain ⟨l, r, t, hl, hr⟩ := hgo hd
  cases hl
  obtain ⟨-, -, -, -, -, hidled⟩ := hstays m r t rfl hr
  have hwait : ∃ e ∈ t, ∃ x, e.2.instruction = .awaitKey x := by
    cases idleFrame_burst hr with
    | last hs _ | more hs _ _ =>
      obtain ⟨_, _, _, hs⟩ := step_eq_ok.1 hs
      exact ⟨_, List.mem_cons_self .., 3, by rw [hs]; exact hi⟩
  exact ⟨by decide, hd, r, t, hr, hwait, hidled hwait⟩

end PacedChip8.Machine
