/-
Traces: the steps that a machine has taken, each with the machine that it was taken from. A step
never faults while the depth is at most sixteen, and then a frame is the timer part followed by the
steps of a burst (`burst_spec`). A frame that goes through is always of this form (`burst_eq_ok`).
-/
import PacedChip8.Machine.Run
import PacedChip8.Proofs.Instruction.Transition

namespace PacedChip8.Machine

/-- The steps that were taken, each after the machine that it was taken from. -/
abbrev Trace := List (Machine × Stepped)

/-- Notes every step. -/
def record : Observer Trace := fun seen m s => seen ++ [(m, s)]

theorem exists_mem_record {m : Machine} {s : Stepped} {t : Trace} {P : Machine × Stepped → Prop} :
    (∃ e ∈ record t m s, P e) ↔ (∃ e ∈ t, P e) ∨ P (m, s) := by
  simp only [record, List.mem_append, List.mem_singleton, or_and_right, exists_or, exists_eq_left]

/-- What the steps of a trace have cost. -/
def spent (t : Trace) : Nat := (t.map fun e => e.2.cost).sum

@[simp] theorem spent_nil : spent [] = 0 := rfl

@[simp] theorem spent_cons (e : Machine × Stepped) (t : Trace) : spent (e :: t) = e.2.cost + spent t := by
  simp [spent]

theorem spent_append (t u : Trace) : spent (t ++ u) = spent t + spent u := by
  simp [spent]

/-! ## One step -/

/-- A step is the transition of the next instruction, its drawing and its cost. -/
theorem step_eq_ok {m : Machine} {s : Stepped} : m.step = .ok s ↔
    ∃ cpu held, m.instruction.transition m.fetchedCpu m.keypad.keys m.random = .ok (cpu, held) ∧
      s = {
        machine := { m with
          cpu := cpu
          screen := m.screen.run (m.instruction.drawing m.fetchedCpu)
          random := if m.instruction.drawsRandom then m.random.advance else m.random }
        instruction := m.instruction
        cost := m.instruction.cost held
        log := m.fetchEntry :: stackEntry m.instruction m.fetchedCpu } := by
  rcases ht : m.instruction.transition m.fetchedCpu m.keypad.keys m.random with e | ⟨cpu, held⟩
  · simp [step, Instruction.execute, ht, Except.map]
  · simp only [step, Instruction.execute, ht, Except.map, Except.ok.injEq, Prod.mk.injEq]
    constructor
    · rintro rfl; exact ⟨cpu, held, ⟨rfl, rfl⟩, rfl⟩
    · rintro ⟨_, _, ⟨rfl, rfl⟩, rfl⟩; rfl

/-- Any word that can be fetched can be carried out, unless the stack is deeper than its slots. -/
theorem step_ok {m : Machine} (hd : m.cpu.stack.depth ≤ 16) : ∃ s, m.step = .ok s := by
  obtain ⟨cpu, held, h⟩ := Instruction.transition_decode m.fetchedWord (c := m.fetchedCpu) hd m.keypad.keys m.random
  exact ⟨_, step_eq_ok.2 ⟨cpu, held, h, rfl⟩⟩

theorem step_instruction {m : Machine} {s : Stepped} (h : m.step = .ok s) : s.instruction = m.instruction := by
  obtain ⟨_, _, _, rfl⟩ := step_eq_ok.1 h
  rfl

theorem step_transition {m : Machine} {s : Stepped} (h : m.step = .ok s) :
    ∃ held, s.instruction.transition m.fetchedCpu m.keypad.keys m.random = .ok (s.machine.cpu, held) := by
  obtain ⟨_, held, ht, rfl⟩ := step_eq_ok.1 h
  exact ⟨held, ht⟩

/-- A step of an instruction that neither draws nor takes a random byte. -/
theorem step_plain {m : Machine} {i : Instruction} {cpu : Cpu} {held : Bool} (hi : m.instruction = i)
    (h : i.transition m.fetchedCpu m.keypad.keys m.random = .ok (cpu, held)) (hd : i.drawing m.fetchedCpu = [])
    (hr : i.drawsRandom = false) :
    m.step = .ok ⟨{ m with cpu := cpu }, i, i.cost held, m.fetchEntry :: stackEntry i m.fetchedCpu⟩ := by
  subst hi
  rw [step_eq_ok]
  refine ⟨cpu, held, h, ?_⟩
  rw [hd, hr]
  rfl

theorem step_budget {m : Machine} {s : Stepped} (h : m.step = .ok s) : s.machine.budget = m.budget := by
  obtain ⟨_, _, _, rfl⟩ := step_eq_ok.1 h
  rfl

theorem step_keypad {m : Machine} {s : Stepped} (h : m.step = .ok s) : s.machine.keypad = m.keypad := by
  obtain ⟨_, _, _, rfl⟩ := step_eq_ok.1 h
  rfl

theorem step_stack {m : Machine} {s : Stepped} (h : m.step = .ok s) :
    s.machine.cpu.stack = m.instruction.stackAfter m.fetchedCpu := by
  rw [← step_instruction h]
  obtain ⟨_, ht⟩ := step_transition h
  exact Instruction.transition_stack ht

/-- The bound on the depth is kept by steps, so there is always another step. -/
theorem step_depth_le {m : Machine} {s : Stepped} (h : m.step = .ok s) (hd : m.cpu.stack.depth ≤ 16) :
    s.machine.cpu.stack.depth ≤ 16 := by
  rw [step_stack h]
  exact Instruction.stackAfter_depth_le _ hd

theorem step_cost_le {m : Machine} {s : Stepped} (h : m.step = .ok s) : s.cost ≤ 22734 := by
  obtain ⟨_, held, _, rfl⟩ := step_eq_ok.1 h
  exact Instruction.cost_le (Instruction.registers_decode_lt m.fetchedWord) held

/-! ## Steps in a row -/

/-- The trace leads from one machine to another, step by step. -/
inductive Steps : Machine → Trace → Machine → Prop
  | nil (m : Machine) : Steps m [] m
  | cons {m n : Machine} {s : Stepped} {t : Trace} :
      m.step = .ok s → Steps s.machine t n → Steps m ((m, s) :: t) n

/-- The first `k` steps. -/
def steps (m : Machine) (k : Nat) : Except Fault (Machine × Trace) :=
  m.observeRun record [] (List.replicate k .step)

theorem Steps.take {m n : Machine} {t : Trace} (h : Steps m t n) : ∀ k, ∃ l, Steps m (t.take k) l := by
  induction h with
  | nil m => exact fun k => ⟨m, by simpa using Steps.nil m⟩
  | @cons m n s t hs _ ih =>
    intro k
    cases k with
    | zero => exact ⟨m, .nil m⟩
    | succ k =>
      obtain ⟨l, hl⟩ := ih k
      exact ⟨l, .cons hs hl⟩

theorem Steps.step_of_mem {m n : Machine} {t : Trace} (h : Steps m t n) : ∀ e ∈ t, e.1.step = .ok e.2 := by
  induction h with
  | nil => simp
  | cons hs _ ih =>
    intro e he
    rcases List.mem_cons.1 he with rfl | he
    · exact hs
    · exact ih e he

/-- The machine that a trace leads to is the one that its last step has given. -/
theorem Steps.end_eq {m n : Machine} {before : Trace} {e : Machine × Stepped} (h : Steps m (before ++ [e]) n) :
    n = e.2.machine := by
  induction before generalizing m with
  | nil =>
    cases h with
    | cons _ ht => cases ht; rfl
  | cons _ before ih =>
    cases h with
    | cons _ ht => exact ih ht

/-- What every step keeps holds at the end and before every step of the trace. -/
theorem Steps.keeps {P : Machine → Prop} (hP : ∀ {m s}, m.step = .ok s → P m → P s.machine) {m n : Machine}
    {t : Trace} (h : Steps m t n) (hm : P m) : P n ∧ ∀ e ∈ t, P e.1 := by
  induction h with
  | nil => exact ⟨hm, by simp⟩
  | cons hs _ ih =>
    obtain ⟨hn, ht⟩ := ih (hP hs hm)
    refine ⟨hn, fun e he => ?_⟩
    rcases List.mem_cons.1 he with rfl | he
    · exact hm
    · exact ht e he

theorem exists_steps {m : Machine} (hd : m.cpu.stack.depth ≤ 16) (k : Nat) : ∃ t n, Steps m t n ∧ t.length = k := by
  induction k generalizing m with
  | zero => exact ⟨[], m, .nil m, rfl⟩
  | succ k ih =>
    obtain ⟨s, hs⟩ := step_ok hd
    obtain ⟨t, n, ht, hlen⟩ := ih (step_depth_le hs hd)
    exact ⟨(m, s) :: t, n, .cons hs ht, by rw [List.length_cons, hlen]⟩

theorem observeRun_replicate_step {m n : Machine} {t : Trace} (h : Steps m t n) (seen : Trace) :
    m.observeRun record seen (List.replicate t.length .step) = .ok (n, seen ++ t) := by
  induction h generalizing seen with
  | nil m => simp [observeRun]
  | @cons m n s t hs _ ih =>
    simp only [List.length_cons, List.replicate_succ, observeRun, handle, hs, Except.map]
    rw [ih, record, List.append_assoc]
    rfl

theorem Steps.eq_steps {m n : Machine} {t : Trace} (h : Steps m t n) : m.steps t.length = .ok (n, t) :=
  observeRun_replicate_step h []

/-! ## Bursts -/

/-- The steps of a burst: the last is the first that costs nothing or spends what is left. -/
inductive Burst : Nat → Machine → Trace → Machine → Prop
  | last {unspent : Nat} {m : Machine} {s : Stepped} :
      m.step = .ok s → s.cost = 0 ∨ unspent ≤ s.cost → Burst unspent m [(m, s)] s.machine
  | more {unspent : Nat} {m n : Machine} {s : Stepped} {t : Trace} :
      m.step = .ok s → ¬(s.cost = 0 ∨ unspent ≤ s.cost) → Burst (unspent - s.cost) s.machine t n →
      Burst unspent m ((m, s) :: t) n

/-- Whatever is observed of a burst is observed of its steps one after another. -/
theorem Burst.run {α : Type} {unspent : Nat} {m n : Machine} {t : Trace} (h : Burst unspent m t n)
    (observe : Observer α) (seen : α) :
    burst observe unspent m seen = .ok (n, t.foldl (fun seen e => observe seen e.1 e.2) seen) := by
  induction h generalizing seen with
  | last hs hc => rw [burst, hs]; simp [hc]
  | more hs hc _ ih =>
    rw [burst, hs]
    simp only [hc, if_false]
    exact ih _

/-- A burst that goes through has a trace, and whatever is observed is observed along it. -/
theorem burst_eq_ok {α : Type} {observe : Observer α} {unspent : Nat} {m n : Machine} {seen after : α}
    (h : burst observe unspent m seen = .ok (n, after)) :
    ∃ t, Burst unspent m t n ∧ after = t.foldl (fun seen e => observe seen e.1 e.2) seen := by
  -- what is left of the budget shrinks with every step that is not the last
  induction unspent using Nat.strong_induction_on generalizing m seen with
  | _ unspent ih =>
    rw [burst] at h
    rcases hs : m.step with e | s
    · rw [hs] at h; cases h
    · rw [hs] at h
      by_cases hc : s.cost = 0 ∨ unspent ≤ s.cost
      · simp only [hc, if_true, Except.ok.injEq, Prod.mk.injEq] at h
        obtain ⟨rfl, rfl⟩ := h
        exact ⟨[(m, s)], .last hs hc, rfl⟩
      · simp only [hc, if_false] at h
        obtain ⟨t, ht, rfl⟩ := ih (unspent - s.cost) (by omega) h
        exact ⟨(m, s) :: t, .more hs hc ht, rfl⟩

/-- A burst comes to an end without a fault. -/
theorem burst_spec (unspent : Nat) {m : Machine} (hd : m.cpu.stack.depth ≤ 16) :
    ∃ t n, Burst unspent m t n ∧ ∀ {α : Type} (observe : Observer α) (seen : α),
      burst observe unspent m seen = .ok (n, t.foldl (fun seen e => observe seen e.1 e.2) seen) := by
  have ends : ∃ t n, Burst unspent m t n := by
    induction unspent using Nat.strong_induction_on generalizing m with
    | _ unspent ih =>
      obtain ⟨s, hs⟩ := step_ok hd
      by_cases hc : s.cost = 0 ∨ unspent ≤ s.cost
      · exact ⟨[(m, s)], s.machine, .last hs hc⟩
      · obtain ⟨t, n, ht⟩ := ih (unspent - s.cost) (by omega) (step_depth_le hs hd)
        exact ⟨(m, s) :: t, n, .more hs hc ht⟩
  obtain ⟨t, n, ht⟩ := ends
  exact ⟨t, n, ht, ht.run⟩

theorem Burst.steps {unspent : Nat} {m n : Machine} {t : Trace} (h : Burst unspent m t n) : Steps m t n := by
  induction h with
  | last hs _ => exact .cons hs (.nil _)
  | more hs _ _ ih => exact .cons hs ih

theorem Burst.free_last {unspent : Nat} {m n : Machine} {t before after : Trace} {e : Machine × Stepped}
    (h : Burst unspent m t n) (ht : t = before ++ e :: after) (he : e.2.cost = 0) : after = [] := by
  induction h generalizing before with
  | last _ _ =>
    rcases List.append_eq_singleton_iff.1 ht.symm with ⟨-, h⟩ | ⟨-, h⟩
    · exact (List.cons.inj h).2
    · cases h
  | more _ hc _ ih =>
    cases before with
    | nil =>
      obtain ⟨rfl, -⟩ := List.cons.inj ht
      exact absurd (.inl he) hc
    | cons _ before => exact ih (List.cons.inj ht).2

/-- A frame is the timer part and a burst with the whole budget. -/
theorem observeTick_spec {m : Machine} (hd : m.cpu.stack.depth ≤ 16) :
    ∃ t n, Burst m.budget m.beginFrame t n ∧ ∀ {α : Type} (observe : Observer α) (seen : α),
      m.observeTick observe seen = .ok (n, t.foldl (fun seen e => observe seen e.1 e.2) seen) :=
  burst_spec m.budget (m := m.beginFrame) hd

theorem observeTick_eq_ok {α : Type} {observe : Observer α} {m n : Machine} {seen after : α}
    (h : m.observeTick observe seen = .ok (n, after)) :
    ∃ t, Burst m.budget m.beginFrame t n ∧ after = t.foldl (fun seen e => observe seen e.1 e.2) seen :=
  burst_eq_ok h

theorem foldl_record (t seen : Trace) : t.foldl (fun seen e => record seen e.1 e.2) seen = seen ++ t := by
  induction t generalizing seen with
  | nil => simp
  | cons e t ih => rw [List.foldl_cons, ih, record, List.append_assoc]; rfl

end PacedChip8.Machine
