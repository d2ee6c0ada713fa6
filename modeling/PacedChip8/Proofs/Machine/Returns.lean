/-
Return addresses. After a call at depth `d` the return address lies in slot `d` and the addresses of
the outer calls below it, and they stay there as long as the depth is above `d`, through whatever
calls, returns and jumps the program makes of it; the step that brings the depth back to `d` is a
return, and it goes back behind the call. The invariant is `CallStack.Inside`, which every step keeps
or leaves by that return (`step_inside`).
-/
import PacedChip8.Proofs.Machine.Runs

namespace PacedChip8.Machine

open CallStack (Inside)

/-- The step is the return from a call that was made on the stack `base`, back to `back`. -/
structure Returned (base : CallStack) (back : UInt16) (s : Stepped) : Prop where
  instruction : s.instruction = .ret
  depth : s.machine.cpu.stack.depth = base.depth
  pc : s.machine.cpu.pc = back
  below : ∀ k (_ : k < 16), k < base.depth → s.machine.cpu.stack.slots[k] = base.slots[k]

variable {base : CallStack} {back : UInt16}

/-! ## One step -/

/-- Inside a call only a return can leave it. -/
theorem stackAfter_inside {c : Cpu} (h : Inside base back c.stack) {i : Instruction} (hi : i ≠ .ret) :
    Inside base back (i.stackAfter c) := by
  unfold Instruction.stackAfter
  split
  · exact absurd rfl hi
  · rcases hp : c.stack.push? c.pc with _ | stack
    · exact h
    · exact h.push hp
  · exact h

theorem step_inside {m : Machine} {s : Stepped} (h : m.step = .ok s) (hin : Inside base back m.cpu.stack) :
    Inside base back s.machine.cpu.stack ∨ Returned base back s := by
  by_cases hi : m.instruction = .ret
  · obtain ⟨cpu, held, ht, rfl⟩ := step_eq_ok.1 h
    rw [hi] at ht
    rcases Instruction.transition_ret ht with ⟨hd, -⟩ | ⟨k, hk, hd, rfl⟩
    · have := hin.above
      have hd : m.cpu.stack.depth = 0 := hd
      omega
    · -- the address comes from above the call, or it is the one that the call has left
      have hpop := CallStack.pop_of_lt (s := m.cpu.stack) hd hk
      rcases hin.pop with h' | ⟨h1, h2, h3⟩
      · rw [hpop] at h'; exact .inl h'
      · rw [hpop] at h1 h2 h3
        simp only [Except.ok.injEq, Option.some.injEq] at h1
        exact .inr ⟨hi, h2, h1, h3⟩
  · left
    rw [step_stack h]
    exact stackAfter_inside (c := m.fetchedCpu) hin hi

/-- A call with room enters its own inside. -/
theorem step_call {m : Machine} {s : Stepped} {a : UInt16} (h : m.step = .ok s) (hi : m.instruction = .call a)
    (hd : m.cpu.stack.depth < 16) :
    s.machine.cpu.pc = a ∧ Inside m.cpu.stack (m.cpu.pc + 2) s.machine.cpu.stack := by
  obtain ⟨cpu, held, ht, rfl⟩ := step_eq_ok.1 h
  rw [hi] at ht
  rcases Instruction.transition_call ht with ⟨hle, -⟩ | ⟨stack, hp, rfl⟩
  · have hle : 16 ≤ m.cpu.stack.depth := hle
    omega
  · exact ⟨rfl, CallStack.inside_push hp⟩

/-! ## Runs inside a call -/

/-- What a trace that starts inside a call looks like: as long as the depth has stayed above that of
the call, each step either stays inside or is the return. -/
def Nested (base : CallStack) (back : UInt16) (t : Trace) : Prop :=
  ∀ before e, before ++ [e] <+: t → (∀ f ∈ before, base.depth < f.2.machine.cpu.stack.depth) →
    Inside base back e.2.machine.cpu.stack ∨ Returned base back e.2

/-- A machine that is inside a call unless its trace has already left it. -/
structure StillInside (base : CallStack) (back : UInt16) (m : Machine) (t : Trace) : Prop where
  depth : m.cpu.stack.depth ≤ 16
  nested : Nested base back t
  inside : (∀ e ∈ t, base.depth < e.2.machine.cpu.stack.depth) → Inside base back m.cpu.stack

theorem stillInside_step {m : Machine} {s : Stepped} {t : Trace} (h : m.step = .ok s)
    (hin : StillInside base back m t) : StillInside base back s.machine (record t m s) := by
  have last : (∀ e ∈ t, base.depth < e.2.machine.cpu.stack.depth) →
      Inside base back s.machine.cpu.stack ∨ Returned base back s :=
    fun habove => step_inside h (hin.inside habove)
  refine ⟨step_depth_le h hin.depth, fun before e hpre habove => ?_, fun habove => ?_⟩
  · -- the step in question is the new one, or one of those before it
    rcases List.prefix_concat_iff.1 hpre with heq | hpre
    · obtain ⟨rfl, he⟩ := List.append_inj' heq rfl
      cases he
      exact last habove
    · exact hin.nested before e hpre habove
  · have hs : base.depth < s.machine.cpu.stack.depth :=
      habove (m, s) (List.mem_append_right _ (List.mem_singleton_self _))
    rcases last fun e he => habove e (List.mem_append_left _ he) with h' | h'
    · exact h'
    · have := h'.depth; omega

theorem stillInside_invariant : Invariant record (StillInside base back) where
  beginFrame h := ⟨h.depth, h.nested, h.inside⟩
  step := by
    intro m t h
    obtain ⟨s, hs⟩ := step_ok h.depth
    exact ⟨s, hs, stillInside_step hs h⟩

/-- After a call, and for as long as the depth stays above that of the call, the return address and
the addresses below it are where the call has left them; and the step that first brings the depth
back is a return to behind the call, which leaves the addresses below as they were. This holds in
every run, of any nesting and of whatever program. -/
theorem call_returns {m : Machine} {a : UInt16} (hd : m.cpu.stack.depth < CallStack.capacity)
    (hi : m.instruction = .call a) (events : List Event) :
    ∃ s, m.step = .ok s ∧ s.machine.cpu.pc = a ∧ Inside m.cpu.stack (m.cpu.pc + 2) s.machine.cpu.stack ∧
      ∃ n t, s.machine.observeRun record [] events = .ok (n, t) ∧
        ((∀ e ∈ t, m.cpu.stack.depth < e.2.machine.cpu.stack.depth) →
          Inside m.cpu.stack (m.cpu.pc + 2) n.cpu.stack) ∧
        ∀ before e, before ++ [e] <+: t → (∀ f ∈ before, m.cpu.stack.depth < f.2.machine.cpu.stack.depth) →
          (m.cpu.stack.depth < e.2.machine.cpu.stack.depth →
            Inside m.cpu.stack (m.cpu.pc + 2) e.2.machine.cpu.stack) ∧
          (e.2.machine.cpu.stack.depth ≤ m.cpu.stack.depth → Returned m.cpu.stack (m.cpu.pc + 2) e.2) := by
  obtain ⟨s, hs⟩ := step_ok (Nat.le_of_lt hd)
  obtain ⟨hpc, hin⟩ := step_call hs hi hd
  have hstart : StillInside m.cpu.stack (m.cpu.pc + 2) s.machine [] :=
    ⟨hin.room, fun before e hpre => by simp at hpre, fun _ => hin⟩
  obtain ⟨n, t, hrun, hn⟩ := stillInside_invariant.run events
    (fun e _ f hf m t h => by
      obtain ⟨g, k, d, hf⟩ := outside?_spec hf
      rw [hf]
      exact ⟨h.depth, h.nested, h.inside⟩) hstart
  refine ⟨s, hs, hpc, hin, n, t, hrun, hn.inside, fun before e hpre habove => ⟨fun hlt => ?_, fun hle => ?_⟩⟩
  · rcases hn.nested before e hpre habove with h | h
    · exact h
    · have := h.depth; omega
  · rcases hn.nested before e hpre habove with h | h
    · have := h.above; omega
    · exact h

/-- The innermost call that still finds room, made from the last word of the memory. -/
theorem call_returns_innermost :
    let m : Machine := { create {} 0 (.fresh false) with
      cpu := { Cpu.initial with
        pc := 0xFFFF
        stack := ⟨15, Vector.replicate 16 0x300⟩
        memory := (Memory.blank.set 0xFFFF 0x2A).set 0x0000 0xBC } }
    m.cpu.stack.depth < CallStack.capacity ∧ m.instruction = .call 0xABC ∧
      ∃ s, m.step = .ok s ∧ s.machine.cpu.pc = 0xABC ∧ Inside m.cpu.stack 1 s.machine.cpu.stack := by
  intro m
  have hd : m.cpu.stack.depth < CallStack.capacity := by decide
  have hw : m.fetchedWord = 0x2ABC := by
    simp only [m, fetchedWord, Memory.word, Memory.get_set]
    decide
  have hi : m.instruction = .call 0xABC := by
    unfold Machine.instruction
    rw [hw]
    decide
  have hback : m.cpu.pc + 2 = 1 := by decide
  obtain ⟨s, hs, hpc, hin, -⟩ := call_returns hd hi [.tick, .press 3, .step]
  rw [hback] at hin
  exact ⟨hd, hi, s, hs, hpc, hin⟩

end PacedChip8.Machine
