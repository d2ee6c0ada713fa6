/-
Timers are clocks of frames. Nothing touches a timer but the instruction that sets it and the timer part
of a frame, which counts it down. So at every moment of a run a timer shows what it was last set to, less
the frames that have begun since, and never less than zero; if nothing has set it, what it was at first,
less all frames. The invariant is that value (`Moment.timer_eq`); what carries it through a frame is that no
setting lies in a later frame than the moment does (`Moment.frame_le`).
-/
import PacedChip8.Proofs.History
import PacedChip8.Proofs.Machine.Chronicle
import PacedChip8.Proofs.Memory

namespace PacedChip8

theorem Timer.setting?_decode (timer : Timer) (w : UInt16) (c : Cpu) :
    (∃ x, ∃ _ : x < 16, Instruction.decode w = timer.setter x ∧ timer.setting? (.decode w) c = some c.v[x]) ∨
      (∀ x, Instruction.decode w ≠ timer.setter x) ∧ timer.setting? (.decode w) c = none := by
  by_cases hi : ∃ x, Instruction.decode w = timer.setter x
  · obtain ⟨x, hi⟩ := hi
    have hreg : x ∈ (Instruction.decode w).registers := by
      rw [hi]
      cases timer <;> exact List.mem_singleton_self x
    have hx := Instruction.registers_decode_lt w x hreg
    exact .inl ⟨x, hx, hi, by rw [hi, timer.setting?_setter hx]⟩
  · rw [not_exists] at hi
    exact .inr ⟨hi, setting?_eq_none hi⟩

namespace Machine

/-! ## One step -/

variable {first m n : Machine} {s : Stepped} {k : Nat} {past : List Dated} {timer : Timer}

theorem step_timer (timer : Timer) (h : m.step = .ok s) :
    timer.value s.machine.cpu = (timer.setting? s.instruction m.cpu).getD (timer.value m.cpu) := by
  obtain ⟨_, ht⟩ := step_transition h
  have hafter : timer.value s.machine.cpu = timer.after s.instruction m.fetchedCpu :=
    Instruction.transition_timer timer ht
  exact hafter

theorem step_readDelay {x : Nat} (h : m.step = .ok s) (hi : s.instruction = .readDelay x) :
    ∃ _ : x < 16, s.machine.cpu.v[x] = m.cpu.delay := by
  obtain ⟨_, ht⟩ := step_transition h
  rw [hi, Instruction.transition] at ht
  obtain ⟨d, hd, ht⟩ := bind_eq_ok.1 ht
  cases ht
  exact Cpu.setReg_get hd

/-! ## Whole runs -/

/-- What a step has set the timer to, and in which frame. -/
def Dated.setting? (timer : Timer) (e : Dated) : Option (Nat × UInt8) :=
  (timer.setting? e.step.instruction e.before.cpu).map (e.frame, ·)

/-- The frame of the last setting of the timer, and the byte that it was set to. -/
def latest? (timer : Timer) (past : List Dated) : Option (Nat × UInt8) := past.reverse.findSome? (Dated.setting? timer)

/-- What a timer that was first at `start` shows in frame `k`: the last setting less the frames since,
and without one `start` less all frames. -/
def shown (timer : Timer) (start : UInt8) (past : List Dated) (k : Nat) : Nat :=
  match latest? timer past with
  | none => start.toNat - k
  | some (j, w) => w.toNat - (k - j)

theorem latest?_concat (e : Dated) : latest? timer (past ++ [e]) = (e.setting? timer).or (latest? timer past) :=
  History.last?_concat past e

theorem latest?_mem {j : Nat} {w : UInt8} (h : latest? timer past = some (j, w)) : ∃ e ∈ past, e.frame = j := by
  obtain ⟨e, he, hset⟩ := List.exists_of_findSome?_eq_some h
  obtain ⟨b, -, hb⟩ := Option.map_eq_some_iff.1 hset
  cases hb
  exact ⟨e, List.mem_reverse.1 he, rfl⟩

/-- Another frame takes one away, down to zero. -/
theorem shown_succ (start : UInt8) (hk : ∀ e ∈ past, e.frame ≤ k) :
    shown timer start past (k + 1) = shown timer start past k - 1 := by
  unfold shown
  rcases hl : latest? timer past with _ | ⟨j, w⟩
  · simp only; omega
  · obtain ⟨e, he, rfl⟩ := latest?_mem hl
    have hj := hk e he
    simp only; omega

theorem beginFrame_timer (m : Machine) : (timer.value m.beginFrame.cpu).toNat = (timer.value m.cpu).toNat - 1 := by
  cases timer with
  | delay => exact Timer.toNat_countDown _
  | sound => exact Timer.toNat_countDown _

theorem outside?_timer {e : Event} {f : Machine → Machine} (hf : e.outside? = some f) (m : Machine) :
    timer.value (f m).cpu = timer.value m.cpu := by
  obtain ⟨g, k, d, hf⟩ := outside?_spec hf
  rw [hf]
  cases timer <;> rfl

/-- At every moment a timer shows its last setting less the frames since. -/
theorem Moment.timer_eq (timer : Timer) (h : Moment first k past m) :
    (timer.value m.cpu).toNat = shown timer (timer.value first.cpu) past k := by
  induction h with
  | start => simp [shown, latest?]
  | outside hf _ ih => rw [outside?_timer hf, ih]
  | beginFrame h ih => rw [beginFrame_timer, ih, shown_succ _ h.frame_le]
  | @step k past m s hs _ ih =>
    rw [step_timer timer hs]
    unfold shown
    rw [latest?_concat, Dated.setting?]
    rcases hset : timer.setting? s.instruction m.cpu with _ | w
    · exact ih
    · -- set in this frame, so that nothing has been counted down yet
      simp

/-- A timer that nothing sets goes down by one a frame. -/
theorem Chronicle.unset {h : List Episode} (timer : Timer) (hh : Chronicle m h n)
    (hset : ∀ p ∈ h, ∀ e ∈ p.steps, ∀ x, e.2.instruction ≠ timer.setter x) :
    (timer.value n.cpu).toNat = (timer.value m.cpu).toNat - frames h := by
  have hnone : latest? timer (numbered 0 h) = none := by
    refine List.findSome?_eq_none_iff.2 fun e he => ?_
    obtain ⟨p, hp, hstep⟩ := mem_numbered (List.mem_reverse.1 he)
    rw [Dated.setting?, Timer.setting?_eq_none (hset p hp _ hstep)]
    rfl
  rw [hh.moment.timer_eq timer, shown, hnone]

/-- Timers are clocks of frames. A step changes a timer only by an instruction that sets it, to the register
that this names. At the end of a run, and before and after each of its steps, in whichever frame, a timer
shows its last setting less the frames that have begun since, or, if nothing has set it, its first value
less all frames, and zero at the least; and whoever reads the delay timer gets what it shows. -/
theorem timers_count_frames (m : Machine) :
    (m.cpu.stack.depth ≤ CallStack.capacity → ∀ events, ∃ h n, Chronicle m h n ∧ h.map (·.event) = events ∧
        m.observeRun record [] events = .ok (n, h.flatMap (·.steps))) ∧
      (∀ timer s, m.step = .ok s →
        (∃ x, ∃ _ : x < 16, s.instruction = Timer.setter timer x ∧ timer.value s.machine.cpu = m.cpu.v[x]) ∨
          (∀ x, s.instruction ≠ timer.setter x) ∧ timer.value s.machine.cpu = timer.value m.cpu) ∧
      ∀ h n, Chronicle m h n →
        (∀ timer, (Timer.value timer n.cpu).toNat = shown timer (timer.value m.cpu) (numbered 0 h) (frames h)) ∧
        ∀ past e future, numbered 0 h = past ++ e :: future →
          (∀ timer, (Timer.value timer e.before.cpu).toNat = shown timer (timer.value m.cpu) past e.frame ∧
            (timer.value e.step.machine.cpu).toNat = shown timer (timer.value m.cpu) (past ++ [e]) e.frame) ∧
          ∀ x, e.step.instruction = .readDelay x →
            ∃ _ : x < 16, e.step.machine.cpu.v[x].toNat = shown .delay m.cpu.delay past e.frame := by
  refine ⟨exists_chronicle, ?_, ?_⟩
  · intro timer s hs
    rw [step_timer timer hs, step_instruction hs, instruction]
    rcases timer.setting?_decode m.fetchedWord m.cpu with ⟨x, hx, hi, hset⟩ | ⟨hi, hset⟩
    · exact .inl ⟨x, hx, hi, by rw [hset, Option.getD_some]⟩
    · exact .inr ⟨hi, by rw [hset, Option.getD_none]⟩
  · intro h n hh
    refine ⟨fun timer => hh.moment.timer_eq timer, ?_⟩
    intro past e future he
    obtain ⟨hbefore, hstep⟩ := hh.moment_before he
    constructor
    · intro timer
      exact ⟨hbefore.timer_eq timer, (hbefore.step hstep).timer_eq timer⟩
    · intro x hi
      obtain ⟨hx, hv⟩ := step_readDelay hstep hi
      refine ⟨hx, ?_⟩
      rw [hv]
      exact hbefore.timer_eq .delay

/-- A delay of three that is read in the first frame. -/
theorem timers_count_frames_read :
    let m : Machine := { create { budget := 0 } 0 (.fresh false) with
      cpu := { Cpu.initial with memory := (Memory.blank.set 0x200 0xF1).set 0x201 0x07, delay := 3 } }
    m.cpu.stack.depth ≤ CallStack.capacity ∧ ∃ s p, m.beginFrame.step = .ok s ∧ Chronicle m [p] s.machine ∧
      numbered 0 [p] = [] ++ ⟨1, m.beginFrame, s⟩ :: [] ∧ s.instruction = .readDelay 1 ∧
      ∃ _ : 1 < 16, s.machine.cpu.v[1].toNat = 2 := by
  intro m
  have hd : m.cpu.stack.depth ≤ CallStack.capacity := by decide
  have hi : m.beginFrame.instruction = .readDelay 1 := by
    have hw : m.beginFrame.fetchedWord = 0xF107 := Memory.word_set_set .blank 0x200 0xF1 0x07
    rw [Machine.instruction, hw]
    decide
  obtain ⟨s, hs⟩ := step_ok (m := m.beginFrame) hd
  have hsi : s.instruction = .readDelay 1 := (step_instruction hs).trans hi
  let p : Episode := ⟨.tick, m, [(m.beginFrame, s)], s.machine, .single (by decide) hs⟩
  have hh : Chronicle m [p] s.machine := .cons p (.nil _)
  obtain ⟨-, -, hlaw⟩ := timers_count_frames m
  obtain ⟨-, hlaw⟩ := hlaw [p] s.machine hh
  obtain ⟨-, hread⟩ := hlaw [] ⟨1, m.beginFrame, s⟩ [] rfl
  exact ⟨hd, s, p, hs, hh, rfl, hsi, hread 1 hsi⟩

end Machine
end PacedChip8
