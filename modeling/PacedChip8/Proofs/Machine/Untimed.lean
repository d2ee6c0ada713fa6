/-
Costs and frames only pace a program. What a step does, the timers aside, does not depend on the
timers unless the step reads the delay timer (`step_untimed`), and the timer part of a frame touches
nothing but the timers and the speaker. So a run goes through the same machines up to these two,
however it is cut into frames, for as long as no step reads the delay timer.
-/
import PacedChip8.Proofs.Machine.Runs
import PacedChip8.Proofs.Memory

namespace PacedChip8

/-! ## Processors with other timers -/

namespace Cpu

def retimed (c : Cpu) (delay sound : UInt8) : Cpu := { c with delay := delay, sound := sound }

/-- The processor with both timers at zero. -/
def untimed (c : Cpu) : Cpu := c.retimed 0 0

variable {c d : Cpu} {keys : Keys} {random : Random.Source} (delay sound : UInt8)

theorem eq_retimed (h : c.untimed = d.untimed) : d = c.retimed d.delay d.sound := by
  rcases c with ⟨_, _, _, _, _, _, _⟩
  rcases d with ⟨_, _, _, _, _, _, _⟩
  cases h
  rfl

theorem reg_retimed (x : Nat) : (c.retimed delay sound).reg x = c.reg x := rfl

theorem stack_retimed : (c.retimed delay sound).stack = c.stack := rfl

theorem pc_retimed : (c.retimed delay sound).pc = c.pc := rfl

theorem setReg_retimed (x : Nat) (b : UInt8) :
    InStep (fun p q => q = p.retimed delay sound) (c.setReg x b) ((c.retimed delay sound).setReg x b) := by
  unfold setReg
  split
  · exact .ok rfl
  · exact .error _

theorem setResult_retimed (x : Nat) (b : UInt8) (flag? : Option Bool) :
    InStep (fun p q => q = p.retimed delay sound) (c.setResult x b flag?)
      ((c.retimed delay sound).setResult x b flag?) := by
  unfold setResult
  refine (setReg_retimed delay sound x b).bind fun p q h => ?_
  subst h
  cases flag? <;> exact .ok rfl

theorem holds_retimed (t : Test) : t.holds (c.retimed delay sound) keys = t.holds c keys := by
  cases t <;> rfl

/-- Processors after an instruction that agree but for their timers, and outcomes that are the same. -/
def SameOutcome (p q : Cpu × Bool) : Prop := p.1.untimed = q.1.untimed ∧ p.2 = q.2

/-- Only an instruction that reads the delay timer is told apart by the timers. -/
theorem transition_retimed {i : Instruction} (hi : ∀ x, i ≠ .readDelay x) :
    InStep SameOutcome (i.transition c keys random) (i.transition (c.retimed delay sound) keys random) := by
  have same : ∀ {p q : Cpu} {held : Bool}, q = p.retimed delay sound → SameOutcome (p, held) (q, held) := by
    rintro p _ held rfl
    exact ⟨rfl, rfl⟩
  cases i <;> simp only [Instruction.transition, reg_retimed, stack_retimed, pc_retimed]
  case readDelay x => exact absurd rfl (hi x)
  case ret =>
    rcases c.stack.pop with ⟨e | _ | a, rest⟩
    · exact .error e
    · exact .ok (same rfl)
    · exact .ok (same rfl)
  case call a =>
    rcases c.stack.push? c.pc with _ | stack
    · exact .ok (same rfl)
    · exact .ok (same rfl)
  case skip t =>
    rw [holds_retimed]
    refine .bind_same fun held => .ok (same ?_)
    cases held <;> rfl
  case load x b | random x mask =>
    exact (setReg_retimed delay sound x _).bind fun _ _ h => .ok (same h)
  case add x b => exact .bind_same fun a => (setReg_retimed delay sound x _).bind fun _ _ h => .ok (same h)
  case combine op x y =>
    exact .bind_same fun a => .bind_same fun b => (setResult_retimed delay sound x _ _).bind fun _ _ h => .ok (same h)
  case shift d x => exact .bind_same fun a => (setResult_retimed delay sound x _ _).bind fun _ _ h => .ok (same h)
  case awaitKey x =>
    split
    · exact .ok (same rfl)
    · exact (setReg_retimed delay sound x _).bind fun _ _ h => .ok (same h)
  -- a timer that is written holds the same byte on both sides, and the other one is left as it was
  case setDelay | setSound => exact .bind_same fun a => .ok ⟨rfl, rfl⟩
  case draw => exact .bind_same fun _ => .bind_same fun _ => .ok (same rfl)
  case clear | unknown | jump | jumpIndex | setIndex => exact .ok (same rfl)
  all_goals exact .bind_same fun a => .ok (same rfl)

end Cpu

namespace Machine

/-! ## Machines up to their timers -/

/-- The machine with both timers at zero, and with nothing of what they do to the speaker. The budget
is left out as well, so that machines with different budgets can be compared. -/
def untimed (m : Machine) : Machine := { m with cpu := m.cpu.untimed, speaker := .fresh false, budget := 0 }

def Stepped.untimed (s : Stepped) : Stepped := { s with machine := s.machine.untimed }

def Trace.untimed (t : Trace) : Trace := t.map fun e => (e.1.untimed, e.2.untimed)

def ReadsDelay (t : Trace) : Prop := ∃ e ∈ t, ∃ x, e.2.instruction = .readDelay x

variable {m n l k : Machine} {s r : Stepped} {t u : Trace}

/-- Machines that agree up to the timers are one machine with other timers, another speaker and another budget. -/
theorem eq_retimed (h : m.untimed = n.untimed) : ∃ delay sound speaker budget,
    n = { m with cpu := m.cpu.retimed delay sound, speaker := speaker, budget := budget } := by
  rcases m with ⟨_, _, _, _, _, _⟩
  rcases n with ⟨cpu, _, _, speaker, _, budget⟩
  simp only [untimed, Machine.mk.injEq] at h
  obtain ⟨hcpu, rfl, rfl, -, rfl, -⟩ := h
  exact ⟨cpu.delay, cpu.sound, speaker, budget, by rw [← Cpu.eq_retimed hcpu]⟩

/-- Machines that agree up to their timers take the same step up to the timers, unless it reads one. -/
theorem step_untimed (h : m.untimed = n.untimed) (hi : ∀ x, m.instruction ≠ .readDelay x) (hs : m.step = .ok s) :
    ∃ r, n.step = .ok r ∧ s.untimed = r.untimed := by
  obtain ⟨delay, sound, speaker, budget, rfl⟩ := eq_retimed h
  obtain ⟨cpu, held, ht, rfl⟩ := step_eq_ok.1 hs
  obtain ⟨⟨cpu', held'⟩, ht', hcpu, hheld⟩ := (Cpu.transition_retimed delay sound hi).of_ok ht
  simp only at hcpu hheld
  subst hheld
  refine ⟨_, step_eq_ok.2 ⟨cpu', held, ht', rfl⟩, ?_⟩
  -- fetch, drawing, random source and log look at no timer
  simp only [Stepped.untimed, untimed, hcpu]
  rfl

/-! ## Traces up to their timers -/

/-- A trace from one machine to another, between the steps of which the timers may go on. -/
inductive Paced : Machine → Trace → Machine → Prop
  | nil {m n : Machine} : m.untimed = n.untimed → Paced m [] n
  | cons {m k n : Machine} {s : Stepped} {t : Trace} :
      m.untimed = k.untimed → k.step = .ok s → Paced s.machine t n → Paced m ((k, s) :: t) n

theorem Paced.start (h : Paced m t n) (hk : k.untimed = m.untimed) : Paced k t n := by
  cases h with
  | nil hm => exact .nil (hk.trans hm)
  | cons hm hs ht => exact .cons (hk.trans hm) hs ht

theorem Paced.stop (h : Paced m t n) (hk : n.untimed = k.untimed) : Paced m t k := by
  induction h with
  | nil hm => exact .nil (hm.trans hk)
  | cons hm hs _ ih => exact .cons hm hs (ih hk)

theorem Paced.snoc (h : Paced m t n) (hs : n.step = .ok s) : Paced m (t ++ [(n, s)]) s.machine := by
  induction h with
  | nil hm => exact .cons hm hs (.nil rfl)
  | cons hm hs' _ ih => exact .cons hm hs' (ih hs)

theorem Steps.paced (h : Steps m t n) : Paced m t n := by
  induction h with
  | nil m => exact .nil rfl
  | cons hs _ ih => exact .cons rfl hs ih

/-- Of two traces from machines that agree up to their timers, the shorter one is where the longer
one begins, if the shorter one does not read the delay timer. -/
theorem Paced.follow (ht : Paced m t n) (hr : ¬ReadsDelay t) (hu : Paced l u k) (h : m.untimed = l.untimed)
    (hle : t.length ≤ u.length) : t.untimed = Trace.untimed (u.take t.length) ∧ Paced n (u.drop t.length) k := by
  induction ht generalizing l u with
  | nil hm => exact ⟨rfl, hu.start (hm.symm.trans h)⟩
  | @cons m b n s t hm hs ht ih =>
    cases hu with
    | nil _ => simp at hle
    | @cons _ b' _ r u hl hr' hu =>
      have hb : b.untimed = b'.untimed := hm.symm.trans (h.trans hl)
      have hi : ∀ x, b.instruction ≠ .readDelay x := by
        intro x hx
        obtain ⟨_, _, _, rfl⟩ := step_eq_ok.1 hs
        exact hr ⟨_, List.mem_cons_self .., x, hx⟩
      -- the first steps agree, so the rests start from machines that agree
      obtain ⟨r', hr'', hsr⟩ := step_untimed hb hi hs
      rw [hr'] at hr''
      cases hr''
      obtain ⟨htu, hrest⟩ := ih (fun ⟨e, he, hx⟩ => hr ⟨e, List.mem_cons_of_mem _ he, hx⟩) hu
        (congrArg Stepped.machine hsr) (by simpa using hle)
      refine ⟨?_, hrest⟩
      show (b.untimed, s.untimed) :: Trace.untimed t = (b'.untimed, r.untimed) :: Trace.untimed (u.take t.length)
      rw [hb, hsr, htu]

/-! ## Frames in a row -/

/-- So many frames with this budget, the keys being left alone. -/
def ticks (m : Machine) (budget k : Nat) : Except Fault (Machine × Trace) :=
  observeRun record { m with budget := budget } [] (List.replicate k .tick)

theorem outside?_of_mem_ticks {e : Event} {k : Nat} (he : e ∈ List.replicate k .tick) (f : Machine → Machine) :
    e.outside? ≠ some f := by
  rw [List.eq_of_mem_replicate he]
  exact nofun

theorem paced_invariant (m : Machine) : Invariant record fun n t => Paced m t n ∧ n.cpu.stack.depth ≤ 16 where
  beginFrame h := ⟨h.1.stop rfl, h.2⟩
  step := by
    rintro n t ⟨h, hd⟩
    obtain ⟨s, hs⟩ := step_ok hd
    exact ⟨s, hs, h.snoc hs, step_depth_le hs hd⟩

/-- Frames in a row never fault, and what they do is steps between which the timers may go on. -/
theorem ticks_paced (hd : m.cpu.stack.depth ≤ 16) (budget k : Nat) :
    ∃ n t, m.ticks budget k = .ok (n, t) ∧ Paced m t n := by
  obtain ⟨n, t, hrun, ht, -⟩ := (paced_invariant m).run (List.replicate k .tick)
    (fun _ he f hf => absurd hf (outside?_of_mem_ticks he f))
    (m := { m with budget := budget }) (a := []) ⟨.nil rfl, hd⟩
  exact ⟨n, t, hrun, ht⟩

/-- Frames in a row, with whatever budget, do what as many bare steps do as the frames have taken,
the timers and the speaker aside, if none of these steps reads the delay timer. Hence with two
budgets a machine goes through the same steps, only further with one of them than with the other. -/
theorem ticks_only_pace (hd : m.cpu.stack.depth ≤ CallStack.capacity) (b₁ b₂ k₁ k₂ : Nat) :
    ∃ n₁ t₁ n₂ t₂, m.ticks b₁ k₁ = .ok (n₁, t₁) ∧ m.ticks b₂ k₂ = .ok (n₂, t₂) ∧
      (¬ReadsDelay t₁ → ∃ l u, m.steps t₁.length = .ok (l, u) ∧ l.untimed = n₁.untimed ∧ u.untimed = t₁.untimed) ∧
      (¬ReadsDelay t₁ → ¬ReadsDelay t₂ → t₁.untimed <+: t₂.untimed ∨ t₂.untimed <+: t₁.untimed) := by
  obtain ⟨n₁, t₁, h₁, p₁⟩ := ticks_paced hd b₁ k₁
  obtain ⟨n₂, t₂, h₂, p₂⟩ := ticks_paced hd b₂ k₂
  refine ⟨n₁, t₁, n₂, t₂, h₁, h₂, fun hr => ?_, fun hr₁ hr₂ => ?_⟩
  · obtain ⟨u, l, hu, hlen⟩ := exists_steps hd t₁.length
    obtain ⟨htu, hrest⟩ := p₁.follow hr hu.paced rfl hlen.ge
    rw [← hlen, List.take_length] at htu
    rw [← hlen, List.drop_length] at hrest
    refine ⟨l, u, hlen ▸ hu.eq_steps, ?_, htu.symm⟩
    cases hrest with
    | nil h => exact h.symm
  · rcases Nat.le_total t₁.length t₂.length with hle | hle
    · exact .inl ((p₁.follow hr₁ p₂ rfl hle).1 ▸ (List.take_prefix ..).map _)
    · exact .inr ((p₂.follow hr₂ p₁ rfl hle).1 ▸ (List.take_prefix ..).map _)

/-- A program that jumps to itself, twice in a frame with one budget and ten times with another. -/
theorem ticks_only_pace_loop :
    let m : Machine := { create {} 0 (.fresh false) with
      cpu := { Cpu.initial with memory := (Memory.blank.set 0x200 0x12).set 0x201 0x00 } }
    m.cpu.stack.depth ≤ CallStack.capacity ∧
      ∃ n₁ t₁ n₂ t₂, m.ticks 106 3 = .ok (n₁, t₁) ∧ m.ticks 1000 2 = .ok (n₂, t₂) ∧ ¬ReadsDelay t₁ ∧ ¬ReadsDelay t₂ ∧
        (t₁.untimed <+: t₂.untimed ∨ t₂.untimed <+: t₁.untimed) := by
  intro m
  have hd : m.cpu.stack.depth ≤ CallStack.capacity := by decide
  have hw : m.cpu.memory.word 0x200 = 0x1200 := Memory.word_set_set .blank 0x200 0x12 0x00
  -- the program counter stays at the jump
  have kept : Kept record fun n t => n.cpu.pc = 0x200 ∧ n.cpu.memory = m.cpu.memory ∧ ¬ReadsDelay t := by
    refine ⟨id, ?_⟩
    rintro n t s hs ⟨hpc, hmem, hr⟩
    have hi : n.instruction = .jump 0x200 := by
      rw [Machine.instruction, fetchedWord, hpc, hmem, hw]
      decide
    obtain ⟨cpu, held, ht, rfl⟩ := step_eq_ok.1 hs
    rw [hi] at ht
    cases ht
    refine ⟨rfl, hmem, fun h => ?_⟩
    rcases exists_mem_record.1 h with h | ⟨x, hx⟩
    · exact hr h
    · rw [hi] at hx
      cases hx
  have reads : ∀ {b k n t}, m.ticks b k = .ok (n, t) → ¬ReadsDelay t := by
    intro b k n t h
    have hnil : ¬ReadsDelay [] := by rintro ⟨e, he, -⟩; cases he
    exact (kept.run (List.replicate k .tick) (fun _ he f hf => absurd hf (outside?_of_mem_ticks he f)) h
      ⟨rfl, rfl, hnil⟩).2.2
  obtain ⟨n₁, t₁, n₂, t₂, h₁, h₂, -, hprefix⟩ := ticks_only_pace hd 106 1000 3 2
  exact ⟨hd, n₁, t₁, n₂, t₂, h₁, h₂, reads h₁, reads h₂, hprefix (reads h₁) (reads h₂)⟩

end Machine
end PacedChip8
