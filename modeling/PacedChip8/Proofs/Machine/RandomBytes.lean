/-
Random bytes are taken in order. A step takes a word from the random source exactly if its instruction
asks for a random byte, and nothing else does; so at every moment of a run the source stands as many words
further as such instructions lie behind (`Moment.random`), and the next of them gets the next word.
-/
import PacedChip8.Proofs.Machine.Chronicle

namespace PacedChip8.Machine

variable {first m : Machine} {s : Stepped} {k x : Nat} {mask : UInt8} {past : List Dated}

theorem step_random (h : m.step = .ok s) :
    s.machine.random = if s.instruction.drawsRandom then m.random.advance else m.random := by
  obtain ⟨_, _, _, rfl⟩ := step_eq_ok.1 h
  rfl

theorem step_drawn (h : m.step = .ok s) (hi : s.instruction = .random x mask) :
    ∃ _ : x < 16, s.machine.cpu.v[x] = m.random.byte &&& mask := by
  obtain ⟨_, ht⟩ := step_transition h
  rw [hi, Instruction.transition] at ht
  obtain ⟨d, hd, ht⟩ := bind_eq_ok.1 ht
  cases ht
  exact Cpu.setReg_get hd

def Dated.draws (e : Dated) : Bool := e.step.instruction matches .random ..

/-- How many of the steps have taken a random byte. -/
def draws (past : List Dated) : Nat := past.countP Dated.draws

theorem draws_concat (e : Dated) : draws (past ++ [e]) = draws past + if e.draws then 1 else 0 := by
  rw [draws, List.countP_append, List.countP_singleton]
  rfl

theorem Moment.random (h : Moment first k past m) :
    m.random = { first.random with position := first.random.position + draws past } := by
  induction h with
  | start => rfl
  | outside hf _ ih =>
    obtain ⟨g, k, d, hf⟩ := outside?_spec hf
    rw [hf]
    exact ih
  | beginFrame _ ih => exact ih
  | @step k past m s hs _ ih =>
    -- what is counted is what takes a word
    have hdraws : Dated.draws ⟨k, m, s⟩ = s.instruction.drawsRandom := rfl
    rw [step_random hs, draws_concat, hdraws, ih]
    cases s.instruction.drawsRandom <;> rfl

/-- Random bytes are taken in order. Whatever happens to a machine that was made with a seed, the number of
words that have been taken is at every point the number of steps that have asked for a random byte; and each
such step stores the next word of the seed's stream, cut to its low byte and to the bits of the mask. -/
theorem random_bytes_in_order (seed entropy : UInt64) (budget : Nat) (speaker : Speaker) :
    let m := create { budget, seed := some seed } entropy speaker
    (∀ events, ∃ h n, Chronicle m h n ∧ h.map (·.event) = events ∧
        m.observeRun record [] events = .ok (n, h.flatMap (·.steps))) ∧
      ∀ h n, Chronicle m h n →
        n.random.position = draws (numbered 0 h) ∧
        ∀ past e future, numbered 0 h = past ++ e :: future →
          e.before.random.position = draws past ∧ e.step.machine.random.position = draws (past ++ [e]) ∧
          ∀ x mask, e.step.instruction = .random x mask →
            ∃ _ : x < 16, e.step.machine.cpu.v[x] = (Random.word (Random.Seed.key seed) (draws past)).toUInt8 &&& mask ∧
              e.step.machine.cpu.v[x] &&& ~~~mask = 0 := by
  intro m
  have hpos {k : Nat} {past : List Dated} {l : Machine} (h : Moment m k past l) : l.random.position = draws past := by
    rw [h.random]
    exact Nat.zero_add _
  refine ⟨exists_chronicle (Nat.zero_le _), ?_⟩
  intro h n hh
  refine ⟨hpos hh.moment, ?_⟩
  intro past e future he
  obtain ⟨hbefore, hstep⟩ := hh.moment_before he
  refine ⟨hpos hbefore, hpos (hbefore.step hstep), ?_⟩
  intro x mask hi
  obtain ⟨hx, hv⟩ := step_drawn hstep hi
  have hbyte : e.before.random.byte = (Random.word (Random.Seed.key seed) (draws past)).toUInt8 := by
    rw [Random.Source.byte, hpos hbefore, hbefore.random]
    rfl
  refine ⟨hx, ?_⟩
  rw [hv, hbyte, UInt8.and_assoc, UInt8.and_not_self, UInt8.and_zero]
  exact ⟨rfl, rfl⟩

/-- A first random byte, cut to its low half. -/
theorem random_bytes_in_order_first :
    let m := create { budget := 1, seed := some 42 } 0 (.fresh false)
    let program : Reading := .complete [0xC3, 0x0F]
    ∃ s h n, Chronicle m h n ∧ h.map (·.event) = [.load program, .tick] ∧
      numbered 0 h = [] ++ ⟨1, (m.loaded program).beginFrame, s⟩ :: [] ∧ s.instruction = .random 3 0x0F ∧
      n.random.position = 1 ∧
      ∃ _ : 3 < 16, s.machine.cpu.v[3] = (Random.word (Random.Seed.key 42) 0).toUInt8 &&& 0x0F := by
  intro m program
  have hi : (m.loaded program).beginFrame.instruction = .random 3 0x0F := by decide +kernel
  obtain ⟨s, hs⟩ := step_ok (m := (m.loaded program).beginFrame) (by decide +kernel)
  have hsi : s.instruction = .random 3 0x0F := (step_instruction hs).trans hi
  let p : Episode := ⟨.load program, m, [], m.loaded program, .outside (f := (·.loaded program)) rfl⟩
  let q : Episode := ⟨.tick, m.loaded program, _, s.machine, .single (by decide +kernel) hs⟩
  have hh : Chronicle m [p, q] s.machine := .cons p (.cons q (.nil _))
  obtain ⟨-, hlaw⟩ := random_bytes_in_order 42 0 1 (.fresh false)
  obtain ⟨-, hsteps⟩ := hlaw [p, q] s.machine hh
  obtain ⟨-, hone, hbyte⟩ := hsteps [] ⟨1, (m.loaded program).beginFrame, s⟩ [] rfl
  obtain ⟨hx, hv, -⟩ := hbyte 3 0x0F hsi
  refine ⟨s, [p, q], s.machine, hh, rfl, rfl, hsi, ?_, hx, hv⟩
  rw [hone, draws_concat, Dated.draws, hsi]
  rfl

end PacedChip8.Machine
