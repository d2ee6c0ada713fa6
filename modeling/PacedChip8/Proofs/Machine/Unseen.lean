/-
The picture is never read. Two machines that are equal but for their screens fetch the same words, send
the same commands to their screens and are equal but for them again (`step_unseen`), so they go through
the same run, or fault at the same step. What the pictures differ in stays as it is until both are
cleared, and then they are the same from there on.
-/
import PacedChip8.Proofs.Machine.Redraw
import PacedChip8.Proofs.Screen

namespace PacedChip8

theorem Instruction.clear_mem_drawing {i : Instruction} {c : Cpu} : .clear ∈ i.drawing c ↔ i = .clear := by
  cases i <;> simp only [drawing, List.mem_singleton, List.not_mem_nil, reduceCtorEq]
  case draw x y rows =>
    split <;> simp [Sprite.commands]

namespace Machine

open Screen (difference)

/-! ## Machines up to their screens -/

/-- The machine with nothing on its screen. -/
def unseen (m : Machine) : Machine := { m with screen := .blank }

def Stepped.unseen (s : Stepped) : Stepped := { s with machine := s.machine.unseen }

/-- The trace with nothing on any screen, but with every instruction, its cost and what it reported. -/
def Trace.unseen (t : Trace) : Trace := t.map fun e => (e.1.unseen, e.2.unseen)

def Clears (t : Trace) : Prop := ∃ e ∈ t, e.2.instruction = .clear

variable {m n : Machine} {t u : Trace}

theorem eq_repainted (h : m.unseen = n.unseen) : n = { m with screen := n.screen } := by
  rcases m with ⟨_, _, _, _, _, _⟩
  rcases n with ⟨_, _, _, _, _, _⟩
  simp only [unseen, Machine.mk.injEq] at h
  obtain ⟨rfl, rfl, -, rfl, rfl, rfl⟩ := h
  rfl

theorem Trace.unseen_record (h : t.unseen = u.unseen) {s r : Stepped} (hm : m.unseen = n.unseen)
    (hs : s.unseen = r.unseen) : (record t m s).unseen = (record u n r).unseen := by
  unfold Trace.unseen record at *
  rw [List.map_append, List.map_append, h]
  simp only [List.map_cons, List.map_nil, hm, hs]

/-- One step of two machines that differ in their screens: the same instruction, which does the same to
both screens. -/
theorem step_unseen (h : m.unseen = n.unseen) :
    InStep (fun s r => s.unseen = r.unseen ∧ ∃ c, s.machine.screen = m.screen.run (s.instruction.drawing c) ∧
      r.machine.screen = n.screen.run (s.instruction.drawing c)) m.step n.step := by
  rw [eq_repainted h]
  exact .map fun _ => ⟨rfl, m.fetchedCpu, rfl, rfl⟩

/-! ## Runs -/

/-- Two machines that have gone the same way, and whose pictures differ as they did at first, or not at
all if they have been cleared. -/
structure SameWay (first : Vector Bool 2048) (m : Machine) (t : Trace) (n : Machine) (u : Trace) : Prop where
  machine : m.unseen = n.unseen
  trace : t.unseen = u.unseen
  uncleared : ¬Clears t → difference m.screen n.screen = first
  cleared : Clears t → m.screen.pixels = n.screen.pixels

variable {first : Vector Bool 2048}

theorem SameWay.step (h : SameWay first m t n u) :
    InStep (fun s r => s.cost = r.cost ∧ SameWay first s.machine (record t m s) r.machine (record u n r))
      m.step n.step := by
  refine (step_unseen h.machine).mono ?_
  rintro s r ⟨hsr, c, hs, hr⟩
  have hcost : s.unseen.cost = r.unseen.cost := by rw [hsr]
  have hmachine : s.unseen.machine = r.unseen.machine := by rw [hsr]
  refine ⟨hcost, hmachine, Trace.unseen_record h.trace h.machine hsr, fun hc => ?_, fun hc => ?_⟩
  · obtain ⟨ht, hi⟩ := not_or.1 (mt exists_mem_record.2 hc)
    rw [hs, hr, Screen.difference_run (mt Instruction.clear_mem_drawing.1 hi)]
    exact h.uncleared ht
  · by_cases hi : s.instruction = .clear
    · rw [hs, hr, hi]
      rfl
    · -- both were cleared before, and have been drawn on in the same way since
      have heq := Screen.difference_eq_dark_iff.2 (h.cleared ((exists_mem_record.1 hc).resolve_right hi))
      rw [← Screen.difference_eq_dark_iff, hs, hr, Screen.difference_run (mt Instruction.clear_mem_drawing.1 hi)]
      exact heq

theorem sameWay_lockstep (first : Vector Bool 2048) : Lockstep record record (SameWay first) where
  budget h := by rw [eq_repainted h.machine]
  beginFrame h := ⟨congrArg beginFrame h.machine, h.trace, h.uncleared, h.cleared⟩
  step := SameWay.step

theorem SameWay.outside (h : SameWay first m t n u) {e : Event} {f : Machine → Machine} (hf : e.outside? = some f)
    (he : ∀ command, e ≠ .display command) : SameWay first (f m) t (f n) u := by
  have hscreen := outside?_screen hf he
  refine ⟨?_, h.trace, ?_, ?_⟩
  · obtain ⟨g, k, d, hf⟩ := outside?_spec hf
    rw [hf, hf, eq_repainted h.machine]
    rfl
  · rw [hscreen, hscreen]
    exact h.uncleared
  · rw [hscreen, hscreen]
    exact h.cleared

/-- The picture is never read. Whatever happens in the same way to two machines that are equal but for
their screens, if nobody else acts on these, the machines are equal but for their screens afterwards,
and their steps were the same at the same costs; or both have faulted, in the same way. As long as no
step has cleared the screen the pictures differ in the pixels in which they have differed at first, and
once one has they are the same. -/
theorem picture_never_read (h : m.unseen = n.unseen) {events : List Event} (hev : Undisplayed events) :
    (m.cpu.stack.depth ≤ CallStack.capacity → ∃ l t, m.observeRun record [] events = .ok (l, t)) ∧
      InStep (fun p q => SameWay (difference m.screen n.screen) p.1 p.2 q.1 q.2)
        (m.observeRun record [] events) (n.observeRun record [] events) := by
  constructor
  · intro hd
    obtain ⟨l, t, hrun, -⟩ := exists_run hd events
    exact ⟨l, t, hrun⟩
  · have hnone : ¬Clears [] := by rintro ⟨e, he, -⟩; cases he
    refine (sameWay_lockstep _).run events (fun e he f hf m t n u hw => ?_)
      ⟨h, rfl, fun _ => rfl, fun hc => absurd hc hnone⟩
    exact hw.outside hf fun command hc => hev command (hc ▸ he)

/-- A glyph that is drawn over a lit pixel on one machine, and on a dark screen on the other. -/
theorem picture_never_read_collision :
    let m : Machine := { create {} 0 (.fresh false) with
      cpu := { Cpu.initial with memory := (Memory.withFont.set 0x200 0xD0).set 0x201 0x05 } }
    let n : Machine := { m with screen := ⟨(Screen.blank.flip 0).pixels, true⟩ }
    m.unseen = n.unseen ∧ Undisplayed [.step, .press 3, .tick] ∧
      ∃ l t k u, m.observeRun record [] [.step, .press 3, .tick] = .ok (l, t) ∧
        n.observeRun record [] [.step, .press 3, .tick] = .ok (k, u) ∧
        SameWay (difference m.screen n.screen) l t k u := by
  intro m n
  have hev : Undisplayed [.step, .press 3, .tick] := by intro command h; simp at h
  obtain ⟨hgo, hsame⟩ := picture_never_read (m := m) (n := n) rfl hev
  obtain ⟨l, t, hrun⟩ := hgo (by decide)
  obtain ⟨⟨k, u⟩, hrun', hw⟩ := hsame.of_ok hrun
  exact ⟨rfl, hev, l, t, k, u, hrun, hrun', hw⟩

end Machine
end PacedChip8
