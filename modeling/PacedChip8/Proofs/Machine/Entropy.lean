/-
Where chance does not come in. Frames in which no step draws a random byte go the same way whatever random source
they start with, and leave it as it was (`headless_withRandom`), so then it does not matter what a machine without a
seed was started with.
-/
import PacedChip8.Proofs.Machine.Headless

namespace PacedChip8

theorem Instruction.transition_of_not_drawsRandom {i : Instruction} (hi : i.drawsRandom = false) (c : Cpu) (keys : Keys)
    (random random' : Random.Source) : i.transition c keys random = i.transition c keys random' := by
  cases i
  case random => cases hi
  all_goals rfl

namespace Machine

/-- The machine with another random source. -/
def withRandom (m : Machine) (random : Random.Source) : Machine := { m with random := random }

/-- Within so many frames with nobody at the keys a step draws a random byte. -/
def Draws (m : Machine) (frames : Nat) : Prop :=
  ∃ k < frames, ∃ l r t, m.headless k = .ok l ∧ l.idleFrame = .ok (r, t) ∧ ∃ e ∈ t, e.2.instruction.drawsRandom = true

variable {m n l r : Machine} {s : Stepped} {t : Trace} {k unspent : Nat}

theorem step_withRandom (hs : m.step = .ok s) (hi : s.instruction.drawsRandom = false) (random : Random.Source) :
    (m.withRandom random).step = .ok { s with machine := s.machine.withRandom random } := by
  rw [step_instruction hs] at hi
  obtain ⟨cpu, held, ht, rfl⟩ := step_eq_ok.1 hs
  rw [Instruction.transition_of_not_drawsRandom hi _ _ _ random] at ht
  refine step_eq_ok.2 ⟨cpu, held, ht, ?_⟩
  have hi' : (m.withRandom random).instruction.drawsRandom = false := hi
  rw [hi']
  rfl

/-- A burst without random bytes leads with any random source to the same machine but for this source. -/
theorem Burst.withRandom (h : Burst unspent m t n) (hquiet : ∀ e ∈ t, e.2.instruction.drawsRandom = false)
    (random : Random.Source) : ∃ u, Burst unspent (m.withRandom random) u (n.withRandom random) := by
  induction h with
  | last hs hover =>
    exact ⟨_, .last (step_withRandom hs (hquiet _ (List.mem_singleton_self _)) random) hover⟩
  | more hs hnot _ ih =>
    obtain ⟨hi, hrest⟩ := List.forall_mem_cons.1 hquiet
    obtain ⟨u, hu⟩ := ih hrest
    exact ⟨_, .more (step_withRandom hs hi random) hnot hu⟩

theorem idleFrame_withRandom (h : m.idleFrame = .ok (r, t)) (hquiet : ∀ e ∈ t, e.2.instruction.drawsRandom = false)
    (random : Random.Source) : ∃ u, (m.withRandom random).idleFrame = .ok (r.withRandom random, u) := by
  obtain ⟨u, hu⟩ := (idleFrame_burst h).withRandom hquiet random
  exact ⟨_, hu.run record []⟩

/-- Frames that draw nothing go the same way with every random source. -/
theorem headless_withRandom (h : m.headless k = .ok l) (hquiet : ¬m.Draws k) (random : Random.Source) :
    (m.withRandom random).headless k = .ok (l.withRandom random) := by
  induction k generalizing m with
  | zero => cases h; rfl
  | succ k ih =>
    obtain ⟨r, t, hr, h⟩ := exists_of_headless h
    have hfirst : ∀ e ∈ t, e.2.instruction.drawsRandom = false := by
      intro e he
      rw [← Bool.not_eq_true]
      exact fun hdraws => hquiet ⟨0, Nat.succ_pos k, m, r, t, rfl, hr, e, he, hdraws⟩
    have hrest : ¬r.Draws k := by
      rintro ⟨j, hj, l', r', t', hl', hr', hdraws⟩
      exact hquiet ⟨j + 1, Nat.succ_lt_succ hj, l', r', t', (headless_of_idleFrame hr j).trans hl', hr', hdraws⟩
    obtain ⟨u, hu⟩ := idleFrame_withRandom hr hfirst random
    rw [headless_of_idleFrame hu]
    exact ih h hrest

end Machine
end PacedChip8
