/-
Where a machine goes on after a step. The table `onward` reads it off the digits of the fetched word,
without decoding the word: a jump, a call or a return goes to its address, a skip passes over the next
word or not, a wait may stay where it is, and everything else goes on with the next word. Two skips with
opposite conditions never agree, and what a skip costs depends on its outcome only where no key is asked
about.
-/
import PacedChip8.Proofs.Keypad
import PacedChip8.Proofs.Machine.Trace
import PacedChip8.Proofs.Memory

namespace PacedChip8

variable {c d : Cpu} {keys : Keys} {random : Random.Source} {held : Bool}

/-! ## One instruction -/

namespace Instruction

/-- The instructions that can go on elsewhere than with the next word. -/
def branches : Instruction → Bool
  | .jumpIndex | .ret | .jump _ | .call _ | .skip _ | .jumpOffset _ | .awaitKey _ => true
  | _ => false

/-- An instruction that does not branch leaves the program counter at the next word. -/
theorem transition_pc {i : Instruction} (hi : i.branches = false)
    (h : i.transition c keys random = .ok (d, held)) : d.pc = c.pc := by
  cases i <;> simp only [branches, reduceCtorEq] at hi
  all_goals
    simp only [transition, bind_eq_ok, Cpu.reg_eq_ok, Cpu.setReg_eq_ok, pure_eq_ok, Except.ok.injEq,
      Prod.mk.injEq] at h
  case clear | setIndex | unknown =>
    obtain ⟨rfl, -⟩ := h
    rfl
  case load | random | readDelay =>
    obtain ⟨_, ⟨-, rfl⟩, rfl, -⟩ := h
    rfl
  case add =>
    obtain ⟨_, -, _, ⟨-, rfl⟩, rfl, -⟩ := h
    rfl
  case combine =>
    obtain ⟨_, -, _, -, _, hc, rfl, -⟩ := h
    obtain ⟨_, -, rfl⟩ := Cpu.setResult_frame hc
    rfl
  case shift =>
    obtain ⟨_, -, _, hc, rfl, -⟩ := h
    obtain ⟨_, -, rfl⟩ := Cpu.setResult_frame hc
    rfl
  case draw =>
    obtain ⟨_, -, _, -, rfl, -⟩ := h
    rfl
  all_goals
    obtain ⟨_, -, rfl, -⟩ := h
    rfl

theorem transition_skip {t : Test} (h : (skip t).transition c keys random = .ok (d, held)) :
    t.holds c keys = .ok held ∧ d = if held then c.skip else c := by
  simp only [transition, bind_eq_ok, pure_eq_ok, Prod.mk.injEq] at h
  obtain ⟨_, ht, rfl, rfl⟩ := h
  exact ⟨ht, rfl⟩

end Instruction

/-! ## The table -/

namespace Machine

variable {m n : Machine} {s t : Stepped}

/-- The register that the second digit of the fetched word names. -/
def vx (m : Machine) : UInt8 := m.cpu.v.get ⟨Word.x m.fetchedWord, Word.x_lt _⟩

/-- The register that the third digit names. -/
def vy (m : Machine) : UInt8 := m.cpu.v.get ⟨Word.y m.fetchedWord, Word.y_lt _⟩

/-- Whether the fetched word is a skip and its condition holds. -/
def passes (m : Machine) : Bool :=
  match Word.group m.fetchedWord with
  | 0x3 => m.vx == Word.byte m.fetchedWord
  | 0x4 => m.vx != Word.byte m.fetchedWord
  | 0x5 => m.vx == m.vy
  | 0x9 => m.vx != m.vy
  | 0xE =>
    match Word.low m.fetchedWord with
    | 0x9E => m.keypad.isPressed m.vx
    | 0xA1 => !m.keypad.isPressed m.vx
    | _ => false
  | _ => false

/-- Where the machine goes on after the fetched word. As in decoding, the second digit of a word in group 0
does not matter, nor does the last digit of a skip that compares two registers. -/
def onward (m : Machine) : UInt16 :=
  match Word.group m.fetchedWord with
  | 0x0 =>
    match Word.low m.fetchedWord with
    | 0x0E => m.cpu.index
    | 0xEE => m.cpu.stack.top?.getD (m.cpu.pc + 2)
    | _ => m.cpu.pc + 2
  | 0x1 => Word.address m.fetchedWord
  | 0x2 =>
    if m.cpu.stack.depth < CallStack.capacity then Word.address m.fetchedWord else m.cpu.pc + 2
  | 0xB => Word.address m.fetchedWord + m.cpu.v[0].toUInt16
  | 0xF =>
    match Word.low m.fetchedWord with
    | 0x0A => if m.keypad.keys.firstReleased? = none then m.cpu.pc else m.cpu.pc + 2
    | _ => m.cpu.pc + 2
  | _ => if m.passes then m.cpu.pc + 4 else m.cpu.pc + 2

/-! ## The table by instructions -/

/-- Where the machine goes on after an instruction. -/
def successor (m : Machine) : Instruction → UInt16
  | .jumpIndex => m.cpu.index
  | .ret => m.cpu.stack.top?.getD (m.cpu.pc + 2)
  | .jump a => a
  | .call a => if m.cpu.stack.depth < CallStack.capacity then a else m.cpu.pc + 2
  | .skip _ => if m.passes then m.cpu.pc + 4 else m.cpu.pc + 2
  | .jumpOffset a => a + m.cpu.v[0].toUInt16
  | .awaitKey _ => if m.keypad.keys.firstReleased? = none then m.cpu.pc else m.cpu.pc + 2
  | _ => m.cpu.pc + 2

/-- The table by digits is the table by instructions, for each of the sixteen groups of words. -/
theorem onward_eq {i : Instruction} (hi : m.instruction = i) : m.onward = m.successor i := by
  have hlt : Word.group m.fetchedWord < 16 := by
    have := m.fetchedWord.toNat_lt
    unfold Word.group
    omega
  unfold instruction Instruction.decode Instruction.decodeSystem Instruction.decodeArithmetic Instruction.decodeKey
    Instruction.decodeTransfer at hi
  interval_cases hg : Word.group m.fetchedWord
  all_goals
    simp only at hi
    try split at hi
  all_goals
    subst hi
    simp [onward, passes, successor, *]

theorem reg_x (m : Machine) : m.fetchedCpu.reg (Word.x m.fetchedWord) = .ok m.vx :=
  Cpu.reg_of_lt _ (Word.x_lt _)

theorem reg_y (m : Machine) : m.fetchedCpu.reg (Word.y m.fetchedWord) = .ok m.vy :=
  Cpu.reg_of_lt _ (Word.y_lt _)

/-- The test of a decoded skip asks what the digits of its word ask. -/
theorem holds_of_skip {test : Test} (hi : m.instruction = .skip test) :
    test.holds m.fetchedCpu m.keypad.keys = .ok m.passes := by
  unfold instruction Instruction.decode Instruction.decodeSystem Instruction.decodeArithmetic Instruction.decodeKey
    Instruction.decodeTransfer at hi
  split at hi <;> try split at hi
  all_goals simp only [Instruction.skip.injEq, reduceCtorEq] at hi
  all_goals
    subst hi
    simp only [Test.holds, reg_x, reg_y, passes, *]
    rfl

theorem transition_successor {i : Instruction}
    (hskip : ∀ test, i = .skip test → test.holds m.fetchedCpu m.keypad.keys = .ok m.passes)
    (h : i.transition m.fetchedCpu m.keypad.keys random = .ok (d, held)) : d.pc = m.successor i := by
  cases i
  case jumpIndex | jump | jumpOffset =>
    cases h
    rfl
  case ret =>
    rcases Instruction.transition_ret h with ⟨hd, rfl⟩ | ⟨k, hk, hd, rfl⟩
    · simp only [successor, CallStack.top?_of_empty (s := m.cpu.stack) hd]
      rfl
    · simp only [successor, CallStack.top?_of_lt (s := m.cpu.stack) hd hk]
      rfl
  case call a =>
    rcases Instruction.transition_call h with ⟨hd, rfl⟩ | ⟨stack, hp, rfl⟩
    · exact (if_neg (Nat.not_lt.2 hd)).symm
    · obtain ⟨hd, -⟩ := CallStack.push?_eq_some.1 hp
      exact (if_pos hd).symm
  case skip test =>
    obtain ⟨hholds, rfl⟩ := Instruction.transition_skip h
    cases (hskip test rfl).symm.trans hholds
    simp only [successor]
    split
    · show m.cpu.pc + 2 + 2 = m.cpu.pc + 4
      rw [UInt16.add_assoc]
      rfl
    · rfl
  case awaitKey x =>
    rcases Instruction.transition_awaitKey h with ⟨hk, -, rfl⟩ | ⟨key, hk, -, hc⟩
    · simp only [successor, hk, if_true]
      exact UInt16.add_sub_cancel _ _
    · obtain ⟨_, rfl⟩ := Cpu.setReg_eq_ok.1 hc
      simp only [successor, hk, reduceCtorEq, if_false]
      rfl
  -- the others go on with the next word
  all_goals exact Instruction.transition_pc rfl h

theorem step_pc (h : m.step = .ok s) : s.machine.cpu.pc = m.onward := by
  obtain ⟨held, ht⟩ := step_transition h
  rw [step_instruction h] at ht
  rw [onward_eq rfl]
  exact transition_successor (fun _ hi => holds_of_skip hi) ht

end Machine

/-! ## Skips -/

namespace Word

/-- A skip that compares a register with a byte or with a register. -/
def ComparesRegister (w : UInt16) : Prop := group w = 0x3 ∨ group w = 0x4 ∨ group w = 0x5 ∨ group w = 0x9

/-- A skip that asks about a key. -/
def AsksKey (w : UInt16) : Prop := group w = 0xE ∧ (low w = 0x9E ∨ low w = 0xA1)

/-- Two skips that ask for the opposite of the same operands. -/
inductive Opposed (w u : UInt16) : Prop
  | byte : group w = 0x3 → group u = 0x4 → x w = x u → low w = low u → Opposed w u
  | register : group w = 0x5 → group u = 0x9 → x w = x u → y w = y u → Opposed w u
  | key : group w = 0xE → group u = 0xE → low w = 0x9E → low u = 0xA1 → x w = x u → Opposed w u

variable {w u : UInt16}

theorem Opposed.skips (h : Opposed w u) : (ComparesRegister w ∨ AsksKey w) ∧ (ComparesRegister u ∨ AsksKey u) := by
  cases h with
  | byte hw hu => exact ⟨.inl (.inl hw), .inl (.inr (.inl hu))⟩
  | register hw hu => exact ⟨.inl (.inr (.inr (.inl hw))), .inl (.inr (.inr (.inr hu)))⟩
  | key hw hu hlw hlu => exact ⟨.inr ⟨hw, .inl hlw⟩, .inr ⟨hu, .inr hlu⟩⟩

theorem ComparesRegister.decode (h : ComparesRegister w) :
    ∃ test, Instruction.decode w = .skip test ∧ test.cost false = test.cost true + 9 := by
  rcases h with h | h | h | h <;> exact ⟨_, by simp only [Instruction.decode, h]; rfl, rfl⟩

theorem AsksKey.decode (h : AsksKey w) :
    ∃ test, Instruction.decode w = .skip test ∧ test.cost false = test.cost true := by
  obtain ⟨hg, h | h⟩ := h <;>
    exact ⟨_, by simp only [Instruction.decode, Instruction.decodeKey, hg, h]; rfl, rfl⟩

theorem exists_skip (h : ComparesRegister w ∨ AsksKey w) : ∃ test, Instruction.decode w = .skip test := by
  rcases h with h | h
  · obtain ⟨test, ht, -⟩ := h.decode
    exact ⟨test, ht⟩
  · obtain ⟨test, ht, -⟩ := h.decode
    exact ⟨test, ht⟩

end Word

namespace Machine

variable {m n : Machine} {s t : Stepped}

/-- The step has passed over the next word. -/
def Skips (m : Machine) (s : Stepped) : Prop := s.machine.cpu.pc = m.cpu.pc + 4

/-- The step has gone on with the next word. -/
def FallsThrough (m : Machine) (s : Stepped) : Prop := s.machine.cpu.pc = m.cpu.pc + 2

theorem Skips.not_fallsThrough (h : Skips m s) : ¬FallsThrough m s := by
  intro hf
  have hsame : (2 : UInt16) = 4 := (UInt16.add_right_inj m.cpu.pc).1 (hf.symm.trans h)
  exact absurd hsame (by decide)

/-- A step over a skip does what its condition says, and nothing else. -/
theorem step_passes (h : m.step = .ok s) (hw : Word.ComparesRegister m.fetchedWord ∨ Word.AsksKey m.fetchedWord) :
    (Skips m s ↔ m.passes = true) ∧ (FallsThrough m s ↔ m.passes = false) := by
  obtain ⟨test, hi⟩ := Word.exists_skip hw
  have hpc := step_pc h
  rw [onward_eq hi, successor] at hpc
  rcases hp : m.passes
  · have hfalls : FallsThrough m s := by rwa [hp] at hpc
    exact ⟨iff_of_false (fun hs => hs.not_fallsThrough hfalls) Bool.false_ne_true, iff_of_true hfalls rfl⟩
  · have hskips : Skips m s := by rwa [hp] at hpc
    exact ⟨iff_of_true hskips rfl, iff_of_false hskips.not_fallsThrough (Ne.symm Bool.false_ne_true)⟩

theorem step_cost_of_skip {test : Test} (hi : Instruction.decode m.fetchedWord = .skip test) (h : m.step = .ok s) :
    s.cost = test.cost m.passes := by
  have hi : m.instruction = .skip test := hi
  obtain ⟨_, held, ht, rfl⟩ := step_eq_ok.1 h
  rw [hi] at ht
  obtain ⟨hholds, -⟩ := Instruction.transition_skip ht
  cases (holds_of_skip hi).symm.trans hholds
  simp only [hi]
  rfl

/-- With the same registers and keys exactly one of two opposed skips passes over the next word. -/
theorem passes_of_opposed (hv : n.cpu.v = m.cpu.v) (hk : n.keypad = m.keypad)
    (h : Word.Opposed m.fetchedWord n.fetchedWord) : n.passes = !m.passes := by
  cases h with
  | byte hw hu hx hlow => simp [passes, hw, hu, vx, hv, hx, Word.byte, hlow, bne]
  | register hw hu hx hy => simp [passes, hw, hu, vx, vy, hv, hx, hy, bne]
  | key hw hu hlw hlu hx => simp [passes, hw, hu, hlw, hlu, vx, hv, hx, hk]

/-- Where a step goes on, and what a skip costs. -/
structure GoesOn (m : Machine) (s : Stepped) : Prop where
  fetched : m.fetchedWord.toNat = 256 * m.cpu.memory.bytes[m.cpu.pc.toNat % 4096].toNat +
    m.cpu.memory.bytes[(m.cpu.pc.toNat + 1) % 4096].toNat
  pc : s.machine.cpu.pc = m.onward
  /-- Of two opposed skips that find the same registers and keys, one skips and the other does not. -/
  opposed : ∀ {n : Machine} {t : Stepped}, n.step = .ok t → n.cpu.v = m.cpu.v → n.keypad = m.keypad →
    Word.Opposed m.fetchedWord n.fetchedWord → (Skips m s ∧ FallsThrough n t) ∨ (FallsThrough m s ∧ Skips n t)
  /-- A key that does not exist is not down. -/
  absentKey : Word.group m.fetchedWord = 0xE → 15 < m.vx.toNat →
    (Word.low m.fetchedWord = 0x9E → FallsThrough m s) ∧ (Word.low m.fetchedWord = 0xA1 → Skips m s)
  registerCost : ∀ {n : Machine} {t : Stepped}, n.step = .ok t → n.fetchedWord = m.fetchedWord →
    Word.ComparesRegister m.fetchedWord → Skips m s → FallsThrough n t → t.cost = s.cost + 9
  keyCost : ∀ {n : Machine} {t : Stepped}, n.step = .ok t → n.fetchedWord = m.fetchedWord →
    Word.AsksKey m.fetchedWord → t.cost = s.cost

theorem goesOn_of_step (h : m.step = .ok s) : GoesOn m s where
  fetched := by
    rw [fetchedWord, Memory.toNat_word, ← Memory.get_add]
    rfl
  pc := step_pc h
  opposed := by
    intro n t hn hv hk hopposed
    obtain ⟨hm, hu⟩ := hopposed.skips
    have hpasses := passes_of_opposed hv hk hopposed
    rcases hp : m.passes
    · exact .inr ⟨(step_passes h hm).2.2 hp, (step_passes hn hu).1.2 (by rw [hpasses, hp]; rfl)⟩
    · exact .inl ⟨(step_passes h hm).1.2 hp, (step_passes hn hu).2.2 (by rw [hpasses, hp]; rfl)⟩
  absentKey := by
    intro hg hx
    have hup : m.keypad.isPressed m.vx = false := by
      rw [← Bool.not_eq_true]
      intro hp
      have := Keypad.lt_of_isPressed hp
      omega
    constructor
    · intro hl
      exact (step_passes h (.inr ⟨hg, .inl hl⟩)).2.2 (by simp [passes, hg, hl, hup])
    · intro hl
      exact (step_passes h (.inr ⟨hg, .inr hl⟩)).1.2 (by simp [passes, hg, hl, hup])
  registerCost := by
    intro n t hn hw hcompares hskips hfalls
    obtain ⟨test, htest, hcost⟩ := hcompares.decode
    have hu : Instruction.decode n.fetchedWord = .skip test := by rwa [hw]
    have hmp : m.passes = true := (step_passes h (.inl hcompares)).1.1 hskips
    rw [← hw] at hcompares
    have hnp : n.passes = false := (step_passes hn (.inl hcompares)).2.1 hfalls
    rw [step_cost_of_skip htest h, step_cost_of_skip hu hn, hmp, hnp, hcost]
  keyCost := by
    intro n t hn hw hasks
    obtain ⟨test, htest, hcost⟩ := hasks.decode
    have hu : Instruction.decode n.fetchedWord = .skip test := by rwa [hw]
    have hany (held : Bool) : test.cost held = test.cost true := by
      cases held with
      | false => exact hcost
      | true => rfl
    rw [step_cost_of_skip htest h, step_cost_of_skip hu hn, hany m.passes, hany n.passes]

/-- A machine whose depth is at most sixteen steps, and where it goes on is what the table says of the
fetched word. Of two opposed skips exactly one skips; falling through costs nine more than skipping, unless
a key is asked about. -/
theorem step_goes_on (hd : m.cpu.stack.depth ≤ CallStack.capacity) : ∃ s, m.step = .ok s ∧ GoesOn m s := by
  obtain ⟨s, hs⟩ := step_ok hd
  exact ⟨s, hs, goesOn_of_step hs⟩

/-- Two opposed skips on a key that does not exist, in the last word below the top of the addresses. -/
theorem step_goes_on_absent_key :
    let m (low : UInt8) : Machine := { create {} 0 (.fresh false) with
      cpu := { Cpu.initial with
        v := Cpu.initial.v.set 1 33 (by decide)
        pc := 0xFFFE
        memory := (Memory.blank.set 0xFFFE 0xE1).set 0xFFFF low } }
    (m 0x9E).cpu.stack.depth ≤ CallStack.capacity ∧ ∃ s, (m 0x9E).step = .ok s ∧ GoesOn (m 0x9E) s ∧
      s.machine.cpu.pc = 0x0000 ∧ ∃ t, (m 0xA1).step = .ok t ∧ t.machine.cpu.pc = 0x0002 := by
  intro m
  have hd : (m 0x9E).cpu.stack.depth ≤ CallStack.capacity := by decide
  have hw (low : UInt8) : (m low).fetchedWord = 0xE1 * 256 + low.toUInt16 :=
    Memory.word_set_set .blank 0xFFFE 0xE1 low
  have hx : (m 0x9E).vx = 33 := by
    simp only [vx, hw]
    rfl
  have hopposed : Word.Opposed (m 0x9E).fetchedWord (m 0xA1).fetchedWord := by
    rw [hw, hw]
    exact .key (by decide) (by decide) (by decide) (by decide) (by decide)
  obtain ⟨s, hs, hgoes⟩ := step_goes_on hd
  obtain ⟨t, ht⟩ := step_ok (m := m 0xA1) hd
  have hfalls : FallsThrough (m 0x9E) s :=
    (hgoes.absentKey (by rw [hw]; decide) (by rw [hx]; decide)).1 (by rw [hw]; decide)
  obtain ⟨hskips, -⟩ | ⟨-, hskips⟩ := hgoes.opposed ht rfl rfl hopposed
  · exact absurd hfalls hskips.not_fallsThrough
  · exact ⟨hd, s, hs, hgoes, hfalls.trans (by decide), t, ht, hskips.trans (by decide)⟩

end Machine
end PacedChip8
