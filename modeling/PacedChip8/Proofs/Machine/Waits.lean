/-
Waiting for a key. A frame, as it is made for somebody at the keys, samples the keypad, moves keys
and ticks. A machine that stands at a wait stays there through every frame in which no key is let go:
each of them takes one free step, and nothing goes on but the timers and the speaker (`run_quiet`).
The first frame in which a key is let go starts with the step that takes the lowest such key.
-/
import PacedChip8.Proofs.Keypad
import PacedChip8.Proofs.Machine.Pacing
import PacedChip8.Proofs.Machine.Runs
import PacedChip8.Proofs.Memory

namespace PacedChip8

def KeyMove.event (move : KeyMove) : Machine.Event :=
  if move.down then .press move.key else .release move.key

namespace Machine

/-- The events of one frame. -/
def frame (moves : List KeyMove) : List Event := .sample :: (moves.map KeyMove.event ++ [.tick])

/-- The machine that takes the first step of the frame. -/
def frameStart (m : Machine) (moves : List KeyMove) : Machine := (m.withKeypad (·.moved moves)).beginFrame

variable {m n : Machine} {x : Nat}

theorem observeRun_moves {α : Type} (o : Observer α) (m : Machine) (seen : α) (moves : List KeyMove)
    (rest : List Event) :
    m.observeRun o seen (moves.map KeyMove.event ++ rest) =
      (m.withKeypad fun p => moves.foldl (fun p move => p.setHeld move.key move.down) p).observeRun o seen rest := by
  induction moves generalizing m with
  | nil => rfl
  | cons move moves ih =>
    rw [List.map_cons, List.cons_append, observeRun]
    have hmove : m.handle o seen move.event = .ok (m.withKeypad (·.setHeld move.key move.down), seen) := by
      unfold KeyMove.event
      split
      · rename_i h; rw [h]; rfl
      · rename_i h; rw [Bool.not_eq_true] at h; rw [h]; rfl
    rw [hmove]
    exact ih _

theorem observeRun_singleton {α : Type} (o : Observer α) (m : Machine) (seen : α) (e : Event) :
    m.observeRun o seen [e] = m.handle o seen e := by
  rw [observeRun]
  rcases m.handle o seen e with fault | ⟨n, a⟩ <;> rfl

theorem observeRun_frame {α : Type} (o : Observer α) (m : Machine) (seen : α) (moves : List KeyMove) :
    m.observeRun o seen (frame moves) = (m.withKeypad (·.moved moves)).observeTick o seen := by
  have hsample : m.observeRun o seen (frame moves) =
      (m.withKeypad Keypad.sample).observeRun o seen (moves.map KeyMove.event ++ [.tick]) := rfl
  rw [hsample, observeRun_moves, observeRun_singleton]
  rfl

/-! ## Timers that go on by themselves -/

/-- The machine after so many frames in which nothing has happened but that the timers have gone on,
and the speaker with them. -/
def idled (m : Machine) (k : Nat) : Machine :=
  { m with
    cpu := { m.cpu with
      delay := UInt8.ofNat (m.cpu.delay.toNat - k)
      sound := UInt8.ofNat (m.cpu.sound.toNat - k) }
    speaker := (beginFrame^[k] m).speaker }

theorem countDown_eq (b : UInt8) (k : Nat) :
    (if UInt8.ofNat (b.toNat - k) = 0 then 0 else UInt8.ofNat (b.toNat - k) - 1) = UInt8.ofNat (b.toNat - (k + 1)) := by
  have hb := b.toNat_lt
  have hlt : b.toNat - k < 256 := by omega
  have hlt' : b.toNat - (k + 1) < 256 := by omega
  apply UInt8.toNat_inj.1
  rw [Timer.toNat_countDown, UInt8.toNat_ofNat_of_lt' hlt, UInt8.toNat_ofNat_of_lt' hlt']
  omega

theorem idled_eq_iterate (m : Machine) (k : Nat) : m.idled k = beginFrame^[k] m := by
  induction k with
  | zero => simp [idled]
  | succ k ih =>
    have hlast : beginFrame^[k + 1] m = (m.idled k).beginFrame := by rw [Function.iterate_succ_apply', ih]
    rw [hlast]
    unfold idled
    rw [hlast]
    unfold idled beginFrame
    simp only [countDown_eq]

theorem idled_beginFrame (m : Machine) (k : Nat) : m.beginFrame.idled k = m.idled (k + 1) := by
  rw [idled_eq_iterate, idled_eq_iterate, Function.iterate_succ_apply]

theorem idled_withKeypad (m : Machine) (k : Nat) (f : Keypad → Keypad) :
    (m.withKeypad f).idled k = (m.idled k).withKeypad f := by
  have hcomm : Function.Commute beginFrame (withKeypad · f) := fun _ => rfl
  rw [idled_eq_iterate, idled_eq_iterate]
  exact hcomm.iterate_left k m

/-! ## One step of a wait -/

/-- Without a released key a wait costs nothing and leaves the machine as it was, the program counter included. -/
theorem step_stall (hi : m.instruction = .awaitKey x) (hk : ∀ key, m.keypad.isReleased key = false) :
    ∃ s, m.step = .ok s ∧ s.instruction = .awaitKey x ∧ s.cost = 0 ∧ s.machine = m := by
  have ht : m.instruction.transition m.fetchedCpu m.keypad.keys m.random = .ok (m.fetchedCpu.retry, false) := by
    rw [hi, Instruction.transition, firstReleased?_keys.2 hk]
  have hs := step_eq_ok.2 ⟨_, _, ht, rfl⟩
  refine ⟨_, hs, hi, ?_, step_stalled hs ⟨x, hi⟩ hk⟩
  simp only [hi, Instruction.cost]
  rfl

/-- With a released key a wait costs one, stores the key and goes on with the next word. -/
theorem step_wake {key : UInt8} (hi : m.instruction = .awaitKey x) (hk : m.keypad.keys.firstReleased? = some key) :
    ∃ s, ∃ _ : x < 16, m.step = .ok s ∧ s.instruction = .awaitKey x ∧ s.cost = 1 ∧
      s.machine = { m with cpu := { m.cpu with v := m.cpu.v.set x key, pc := m.cpu.pc + 2 } } := by
  -- a decoded wait names a register that exists
  have hx : x < 16 := by
    have hreg := Instruction.registers_decode_lt m.fetchedWord
    rw [show Instruction.decode m.fetchedWord = .awaitKey x from hi] at hreg
    exact hreg x (List.mem_singleton_self x)
  have ht : m.instruction.transition m.fetchedCpu m.keypad.keys m.random =
      .ok ({ m.fetchedCpu with v := m.cpu.v.set x key }, true) := by
    rw [hi, Instruction.transition, hk]
    exact bind_eq_ok.2 ⟨_, Cpu.setReg_eq_ok.2 ⟨hx, rfl⟩, rfl⟩
  refine ⟨_, hx, step_eq_ok.2 ⟨_, _, ht, rfl⟩, hi, ?_, ?_⟩
  · simp only [hi, Instruction.cost]
    rfl
  · simp only [hi]
    rfl

/-! ## Frames of a wait -/

theorem tick_stall (hi : m.instruction = .awaitKey x) (hk : ∀ key, m.keypad.isReleased key = false) :
    ∃ s, s.instruction = .awaitKey x ∧ s.cost = 0 ∧ s.machine = m.beginFrame ∧
      ∀ {α : Type} (o : Observer α) (seen : α), m.observeTick o seen = .ok (m.beginFrame, o seen m.beginFrame s) := by
  obtain ⟨s, hs, hsi, hcost, hm⟩ := step_stall (m := m.beginFrame) hi hk
  refine ⟨s, hsi, hcost, hm, fun o seen => ?_⟩
  rw [observeTick, burst, hs]
  simp only [hcost, true_or, if_true, hm]

/-- No key is let go in any of the frames. -/
def Quiet (p : Keypad) : List (List KeyMove) → Prop
  | [] => True
  | moves :: frames => (∀ key, ¬p.LetsGo moves key) ∧ Quiet (p.moved moves) frames

/-- Frames in which no key is let go have one free step each, and the machine has only idled. -/
theorem run_quiet (hi : m.instruction = .awaitKey x) {frames : List (List KeyMove)} (quiet : Quiet m.keypad frames)
    (seen : Trace) :
    ∃ t, m.observeRun record seen (frames.flatMap frame) =
        .ok ({ m.idled frames.length with keypad := frames.foldl Keypad.moved m.keypad }, seen ++ t) ∧
      t.length = frames.length ∧ ∀ e ∈ t, e.2.instruction = .awaitKey x ∧ e.2.cost = 0 ∧ e.2.machine = e.1 := by
  induction frames generalizing m seen with
  | nil => exact ⟨[], by rw [List.append_nil, List.length_nil, idled_eq_iterate]; rfl, rfl, by simp⟩
  | cons moves frames ih =>
    obtain ⟨hquiet, hrest⟩ := quiet
    have hk : ∀ key, (m.keypad.moved moves).isReleased key = false := fun key => by
      rw [← Bool.not_eq_true, Keypad.isReleased_moved]
      exact hquiet key
    obtain ⟨s, hsi, hcost, hm, htick⟩ := tick_stall (m := m.withKeypad (·.moved moves)) hi hk
    obtain ⟨t, hrun, hlen, ht⟩ := ih (m := m.frameStart moves) hi hrest (seen ++ [(m.frameStart moves, s)])
    refine ⟨(m.frameStart moves, s) :: t, ?_, ?_, ?_⟩
    · rw [List.flatMap_cons, observeRun_append, observeRun_frame, htick]
      simp only [record]
      rw [← frameStart, hrun, frameStart, idled_beginFrame, idled_withKeypad, List.append_assoc]
      rfl
    · rw [List.length_cons, hlen, List.length_cons]
    · intro e he
      rcases List.mem_cons.1 he with rfl | he
      · exact ⟨hsi, hcost, hm⟩
      · exact ht e he

/-- A frame at a wait for register `x` starts with the step that takes this key, the lowest of those
that are let go in the frame, and goes on behind the wait with what is left of the budget. -/
structure Woken (m : Machine) (x : Nat) (moves : List KeyMove) (key : UInt8) (s : Stepped) : Prop where
  letsGo : m.keypad.LetsGo moves key
  least : ∀ j < key, ¬m.keypad.LetsGo moves j
  step : (m.frameStart moves).step = .ok s
  instruction : s.instruction = .awaitKey x
  cost : s.cost = 1
  machine : ∃ _ : x < 16, s.machine = { m.frameStart moves with
    cpu := { m.beginFrame.cpu with v := m.cpu.v.set x key, pc := m.cpu.pc + 2 } }
  frame : ∀ {α : Type} (o : Observer α) (seen : α), m.observeRun o seen (frame moves) =
    if m.budget ≤ 1 then .ok (s.machine, o seen (m.frameStart moves) s)
    else burst o (m.budget - 1) s.machine (o seen (m.frameStart moves) s)

/-- The first frame in which a key is let go ends the wait. -/
theorem frame_wake (hi : m.instruction = .awaitKey x) {moves : List KeyMove}
    (hkey : ∃ key, m.keypad.LetsGo moves key) : ∃ key s, Woken m x moves key s := by
  obtain ⟨k, hk⟩ := hkey
  rcases hf : (m.keypad.moved moves).keys.firstReleased? with _ | key
  · have := firstReleased?_keys.1 hf k
    rw [Keypad.isReleased_moved.2 hk] at this
    cases this
  · obtain ⟨-, hgo, hleast⟩ := (Keys.firstReleased?_eq_some_iff _ _).1 hf
    obtain ⟨s, hx, hs, hsi, hcost, hm⟩ := step_wake (m := m.frameStart moves) hi hf
    refine ⟨key, s, Keypad.isReleased_moved.1 hgo, fun j hj hgoj => ?_, hs, hsi, hcost, ⟨hx, hm⟩, fun o seen => ?_⟩
    · have := hleast j hj
      rw [show (m.keypad.moved moves).keys.released j = true from Keypad.isReleased_moved.2 hgoj] at this
      cases this
    · have htick : m.observeRun o seen (frame moves) = burst o m.budget (m.frameStart moves) seen :=
        observeRun_frame o m seen moves
      rw [htick, burst, hs]
      simp only [hcost, one_ne_zero, false_or]

/-- A machine at a wait stays there through frames in which no key is let go: each takes one free
step, and nothing goes on but the timers and the speaker. The first frame after them in which a key
is let go, that is, held at the sample and up when the frame ticks, ends the wait with its first step
and the lowest such key. A key that was up at the sample, or is held when the frame ticks, does not
count, whatever it has done in between. -/
theorem awaits_release (hi : m.instruction = .awaitKey x) {frames : List (List KeyMove)}
    (quiet : Quiet m.keypad frames) :
    ∃ n t, m.observeRun record [] (frames.flatMap frame) = .ok (n, t) ∧
      n = { m.idled frames.length with keypad := frames.foldl Keypad.moved m.keypad } ∧
      t.length = frames.length ∧ (∀ e ∈ t, e.2.instruction = .awaitKey x ∧ e.2.cost = 0 ∧ e.2.machine = e.1) ∧
      (∀ moves key, n.keypad.isPressed key = false ∨ (n.keypad.moved moves).isPressed key = true →
        (n.keypad.moved moves).isReleased key = false) ∧
      ∀ moves, (∃ key, n.keypad.LetsGo moves key) → ∃ key s, Woken n x moves key s := by
  obtain ⟨t, hrun, hlen, ht⟩ := run_quiet hi quiet []
  refine ⟨_, t, hrun, rfl, hlen, ht, fun moves key => Keypad.isReleased_moved_eq_false, fun moves hkey => ?_⟩
  refine frame_wake ?_ hkey
  exact hi

/-- Two keys are let go at once, after frames in which one of them was up for a while, and in which
others went down and up again. -/
theorem awaits_release_two_keys :
    let m : Machine := { create {} 0 (.fresh false) with
      cpu := { Cpu.initial with memory := (Memory.blank.set 0x200 0xF3).set 0x201 0x0A }
      keypad := (Keypad.idle.press 7).press 5 }
    let frames : List (List KeyMove) := [[⟨5, false⟩, ⟨5, true⟩], [⟨3, true⟩, ⟨3, false⟩, ⟨200, true⟩]]
    m.instruction = .awaitKey 3 ∧ Quiet m.keypad frames ∧
      ∃ n t, m.observeRun record [] (frames.flatMap frame) = .ok (n, t) ∧ n.cpu.pc = 0x200 ∧ t.length = 2 ∧
        ∃ key s, key ≤ 5 ∧ Woken n 3 [⟨7, false⟩, ⟨5, false⟩] key s := by
  intro m frames
  have hi : m.instruction = .awaitKey 3 := by
    have hw : m.fetchedWord = 0xF30A := Memory.word_set_set .blank 0x200 0xF3 0x0A
    rw [Machine.instruction, hw]
    decide
  have quiet : Quiet m.keypad frames :=
    ⟨Keypad.not_letsGo (by decide), Keypad.not_letsGo (by decide), trivial⟩
  obtain ⟨n, t, hrun, hn, hlen, -, -, hwake⟩ := awaits_release hi quiet
  have hpad : n.keypad = frames.foldl Keypad.moved m.keypad := by rw [hn]
  have h5 : n.keypad.LetsGo [⟨7, false⟩, ⟨5, false⟩] 5 := by rw [hpad]; decide
  obtain ⟨key, s, hs⟩ := hwake _ ⟨5, h5⟩
  exact ⟨hi, quiet, n, t, hrun, by rw [hn]; rfl, hlen, key, s, UInt8.not_lt.1 fun h => hs.least 5 h h5, hs⟩

end Machine
end PacedChip8
