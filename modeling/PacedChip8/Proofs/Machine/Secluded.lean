/-
Keys and chance are learned of by asking. Two machines that are equal but for their keypads and their
random sources take the same step, unless its instruction asks for a key or for a random bit
(`step_secluded`); a random byte under an empty mask is no question, though it takes a word from each
source. So two such machines, to which the same happens but for what their keys do, stay equal for as
long as the first of them asks nothing: as its steps are also those of the other, nothing has to be
known of what the other asks.
-/
import PacedChip8.Proofs.Machine.Chronicle
import PacedChip8.Proofs.Memory

namespace PacedChip8

/-! ## Instructions that ask -/

namespace Instruction

/-- Whether the instruction asks for a key, or for the bits of a random byte under a mask that lets some
of them through. -/
def asks : Instruction → Bool
  | .skip (.keyDown _) | .skip (.keyUp _) | .awaitKey _ => true
  | .random _ mask => mask != 0
  | _ => false

theorem transition_of_not_asks {i : Instruction} (hi : i.asks = false) (c : Cpu) (keys keys' : Keys)
    (random random' : Random.Source) : i.transition c keys random = i.transition c keys' random' := by
  cases i
  case awaitKey x => cases hi
  case random x mask =>
    have hmask : mask = 0 := by simpa [asks] using hi
    simp only [transition, hmask, UInt8.and_zero]
  case skip t =>
    have hholds : t.holds c keys = t.holds c keys' := by
      cases t
      case keyDown | keyUp => cases hi
      all_goals rfl
    simp only [transition, hholds]
  all_goals rfl

end Instruction

namespace Machine

/-! ## Machines up to keys and chance -/

/-- The machine with an idle keypad and with a random source that has nothing to give. -/
def secluded (m : Machine) : Machine := { m with keypad := .idle, random := .cycle [] }

def Stepped.secluded (s : Stepped) : Stepped := { s with machine := s.machine.secluded }

/-- The trace without keys and chance, but with every instruction, its cost and what it reported. -/
def Trace.secluded (t : Trace) : Trace := t.map fun e => (e.1.secluded, e.2.secluded)

def Asks (t : Trace) : Prop := ∃ e ∈ t, e.2.instruction.asks = true

variable {m n k l : Machine} {s r : Stepped} {t u : Trace} {e : Event}

theorem eq_exposed (h : m.secluded = n.secluded) : n = { m with keypad := n.keypad, random := n.random } := by
  rcases m with ⟨_, _, _, _, _, _⟩
  rcases n with ⟨_, _, _, _, _, _⟩
  simp only [secluded, Machine.mk.injEq] at h
  obtain ⟨rfl, -, rfl, rfl, -, rfl⟩ := h
  rfl

theorem step_secluded (h : m.secluded = n.secluded) (hs : m.step = .ok s) (hr : n.step = .ok r)
    (hi : s.instruction.asks = false) : s.secluded = r.secluded := by
  rw [eq_exposed h] at hr
  obtain ⟨cpu, held, ht, rfl⟩ := step_eq_ok.1 hs
  rw [Instruction.transition_of_not_asks hi _ _ n.keypad.keys _ n.random] at ht
  rw [step_eq_ok.2 ⟨cpu, held, ht, rfl⟩] at hr
  cases hr
  rfl

theorem not_asks_cons {a : Machine × Stepped} : ¬Asks (a :: t) ↔ a.2.instruction.asks = false ∧ ¬Asks t := by
  simp only [Asks, List.mem_cons, exists_eq_or_imp, not_or, Bool.not_eq_true]

theorem secluded_cons (h : m.secluded = n.secluded) (hsr : s.secluded = r.secluded) (htu : t.secluded = u.secluded) :
    Trace.secluded ((m, s) :: t) = Trace.secluded ((n, r) :: u) := by
  unfold Trace.secluded at *
  rw [List.map_cons, List.map_cons, htu, h, hsr]

/-- Bursts go on for the same steps, since these cost the same. -/
theorem Burst.secluded {unspent : Nat} (ht : Burst unspent m t k) (hu : Burst unspent n u l)
    (h : m.secluded = n.secluded) (hquiet : ¬Asks t) : t.secluded = u.secluded ∧ k.secluded = l.secluded := by
  induction ht generalizing n u with
  | last hs hover =>
    obtain ⟨hi, -⟩ := not_asks_cons.1 hquiet
    cases hu with
    | last hr _ =>
      have hsr := step_secluded h hs hr hi
      exact ⟨secluded_cons h hsr rfl, congrArg Stepped.machine hsr⟩
    | more hr hnot _ =>
      have hcost := congrArg Stepped.cost (step_secluded h hs hr hi)
      exact absurd (hcost ▸ hover) hnot
  | more hs hnot _ ih =>
    obtain ⟨hi, hrest⟩ := not_asks_cons.1 hquiet
    cases hu with
    | last hr hover =>
      have hcost := congrArg Stepped.cost (step_secluded h hs hr hi)
      exact absurd (hcost ▸ hover) hnot
    | more hr _ hu =>
      have hsr := step_secluded h hs hr hi
      have hcost := congrArg Stepped.cost hsr
      obtain ⟨htu, hkl⟩ := ih (hcost ▸ hu) (congrArg Stepped.machine hsr) hrest
      exact ⟨secluded_cons h hsr htu, hkl⟩

/-! ## Events -/

/-- Whether the event is about the keys. -/
def Event.keyed : Event → Bool
  | .press _ | .release _ | .sample => true
  | _ => false

theorem Takes.secluded_keyed (ht : Takes e m t n) (he : e.keyed = true) : n.secluded = m.secluded := by
  cases ht with
  | outside hf => cases e <;> cases he <;> cases hf <;> rfl
  | step _ | tick _ => cases he

/-- An event that is not about the keys does the same to both machines. -/
theorem Takes.secluded (ht : Takes e m t k) (hu : Takes e n u l) (he : e.keyed = false)
    (h : m.secluded = n.secluded) (hquiet : ¬Asks t) : t.secluded = u.secluded ∧ k.secluded = l.secluded := by
  cases ht with
  | outside hf =>
    cases hu with
    | outside hf' =>
      obtain rfl := Option.some.inj (hf.symm.trans hf')
      obtain ⟨g, f, d, hf⟩ := outside?_spec hf
      refine ⟨rfl, ?_⟩
      rw [hf, hf, eq_exposed h]
      rfl
    | step _ | tick _ => cases hf
  | step hs =>
    cases hu with
    | outside hf => cases hf
    | step hr =>
      have hsr := step_secluded h hs hr (not_asks_cons.1 hquiet).1
      exact ⟨secluded_cons h hsr rfl, congrArg Stepped.machine hsr⟩
  | tick ht =>
    cases hu with
    | outside hf => cases hf
    | tick hu =>
      have hbudget : m.budget = n.budget := by rw [eq_exposed h]
      have hstart : m.beginFrame.secluded = n.beginFrame.secluded := congrArg beginFrame h
      rw [hbudget] at ht
      exact ht.secluded hu hstart hquiet

/-! ## Runs -/

/-- The episodes that are not about the keys. -/
def unkeyed (h : List Episode) : List Episode := h.filter (!·.event.keyed)

/-- Episodes that are the same up to keys and chance. -/
structure SameEpisode (p q : Episode) : Prop where
  event : p.event = q.event
  before : p.before.secluded = q.before.secluded
  steps : p.steps.secluded = q.steps.secluded
  after : p.after.secluded = q.after.secluded

theorem Chronicle.secluded_keyed {h : List Episode} (hh : Chronicle m h n) (hkeyed : ∀ p ∈ h, p.event.keyed = true) :
    n.secluded = m.secluded := by
  induction hh with
  | nil => rfl
  | cons p _ ih =>
    obtain ⟨hp, hrest⟩ := List.forall_mem_cons.1 hkeyed
    exact (ih hrest).trans (p.takes.secluded_keyed hp)

/-- The induction over both chronicles. Events about the keys may come in one of them only, and the others go in pairs
for as long as nothing has been asked. -/
theorem Chronicle.secluded {h g : List Episode} (hh : Chronicle m h k) (hg : Chronicle n g l)
    (hmn : m.secluded = n.secluded) (hev : (unkeyed h).map (·.event) = (unkeyed g).map (·.event))
    (hquiet : ∀ p ∈ h, ¬Asks p.steps) :
    k.secluded = l.secluded ∧ List.Forall₂ SameEpisode (unkeyed h) (unkeyed g) := by
  induction hh generalizing n g with
  | nil m =>
    have hnil : unkeyed g = [] := by simpa [unkeyed] using hev
    have hkeyed : ∀ p ∈ g, p.event.keyed = true := by simpa [unkeyed] using hnil
    rw [hnil]
    exact ⟨hmn.trans (hg.secluded_keyed hkeyed).symm, .nil⟩
  | @cons p h k hh ih =>
    obtain ⟨hp, hrest⟩ := List.forall_mem_cons.1 hquiet
    rcases hkeyed : p.event.keyed with _ | _
    · -- the other history has this event too, behind some that are about its keys
      have hkeep : unkeyed (p :: h) = p :: unkeyed h := by simp [unkeyed, hkeyed]
      rw [hkeep, List.map_cons] at hev
      obtain ⟨q, rest, hg', hpq, hevrest⟩ := List.map_eq_cons_iff.1 hev.symm
      obtain ⟨first, g, rfl, hfirst, hq, rfl⟩ := List.filter_eq_cons_iff.1 hg'
      obtain ⟨hgfirst, hg⟩ := hg.split
      have hbefore : p.before.secluded = q.before.secluded :=
        hmn.trans (hgfirst.secluded_keyed (by simpa using hfirst)).symm
      obtain ⟨hsteps, hafter⟩ := p.takes.secluded (hpq ▸ q.takes) hkeyed hbefore hp
      obtain ⟨hend, hsame⟩ := ih hg hafter hevrest.symm hrest
      rw [hkeep, hg']
      exact ⟨hend, .cons ⟨hpq.symm, hbefore, hsteps, hafter⟩ hsame⟩
    · have hskip : unkeyed (p :: h) = unkeyed h := by simp [unkeyed, hkeyed]
      rw [hskip] at hev ⊢
      exact ih hg ((p.takes.secluded_keyed hkeyed).trans hmn) hev hrest

/-- Keys and chance are observed by asking only. Two machines that are equal but for their keypads and
their random sources go through the same events, in between which their keys may do different things. If
no step of the first asks for a key or for random bits, then event by event both are equal up to keys and
chance, before it, at each of its steps and after it; the steps are equally many and the same, at the same
costs. -/
theorem only_asking_observes (hd : m.cpu.stack.depth ≤ CallStack.capacity) (hmn : m.secluded = n.secluded)
    {events events' : List Event} (hev : events.filter (!·.keyed) = events'.filter (!·.keyed)) :
    ∃ h k g l, Chronicle m h k ∧ h.map (·.event) = events ∧
      m.observeRun record [] events = .ok (k, h.flatMap (·.steps)) ∧
      Chronicle n g l ∧ g.map (·.event) = events' ∧
      n.observeRun record [] events' = .ok (l, g.flatMap (·.steps)) ∧
      ((∀ p ∈ h, ¬Asks p.steps) → k.secluded = l.secluded ∧ List.Forall₂ SameEpisode (unkeyed h) (unkeyed g)) := by
  have hd' : n.cpu.stack.depth ≤ 16 := by
    rw [eq_exposed hmn]
    exact hd
  obtain ⟨h, k, hh, rfl, hrun⟩ := exists_chronicle hd events
  obtain ⟨g, l, hg, rfl, hrun'⟩ := exists_chronicle hd' events'
  refine ⟨h, k, g, l, hh, rfl, hrun, hg, rfl, hrun', fun hquiet => ?_⟩
  rw [List.filter_map, List.filter_map] at hev
  exact hh.secluded hg hmn hev hquiet

/-- A random byte under an empty mask, drawn from two seeds, while different keys move. -/
theorem only_asking_observes_masked :
    let m : Machine := { create { budget := 1, seed := some 1 } 0 (.fresh false) with
      cpu := { Cpu.initial with memory := (Memory.blank.set 0x200 0xC3).set 0x201 0x00 } }
    let n : Machine := { m with keypad := Keypad.idle.press 5, random := .ofSeed 2 }
    m.cpu.stack.depth ≤ CallStack.capacity ∧ m.secluded = n.secluded ∧
      [Event.press 3, .tick].filter (!·.keyed) = [Event.tick, .release 5, .sample].filter (!·.keyed) ∧
      ∃ h k g l, Chronicle m h k ∧ Chronicle n g l ∧ h.map (·.event) = [.press 3, .tick] ∧
        g.map (·.event) = [.tick, .release 5, .sample] ∧ (∀ p ∈ h, ¬Asks p.steps) ∧
        k.secluded = l.secluded ∧ List.Forall₂ SameEpisode (unkeyed h) (unkeyed g) := by
  intro m n
  have hd : m.cpu.stack.depth ≤ CallStack.capacity := by decide
  have hev : [Event.press 3, .tick].filter (!·.keyed) = [Event.tick, .release 5, .sample].filter (!·.keyed) := rfl
  obtain ⟨h, k, g, l, hh, he, hrun, hg, he', -, hsame⟩ := only_asking_observes (n := n) hd rfl hev
  -- the frame of the first machine is one step
  let pressed : Machine := m.withKeypad (·.press 3)
  have hi : pressed.beginFrame.instruction = .random 3 0x00 := by
    have hw : pressed.beginFrame.fetchedWord = 0xC300 := Memory.word_set_set .blank 0x200 0xC3 0x00
    rw [Machine.instruction, hw]
    decide
  obtain ⟨s, hs⟩ := step_ok (m := pressed.beginFrame) hd
  let p : Episode := ⟨.press 3, m, [], pressed, .outside (f := (·.withKeypad (·.press 3))) rfl⟩
  let q : Episode := ⟨.tick, pressed, _, s.machine, .single (by decide) hs⟩
  have hrun' : m.observeRun record [] [.press 3, .tick] = .ok (s.machine, [(pressed.beginFrame, s)]) :=
    observeRun_eq_ok.2 ⟨[p, q], .cons p (.cons q (.nil _)), rfl, rfl⟩
  rw [hrun'] at hrun
  obtain ⟨rfl, hsteps⟩ := Prod.mk.inj (Except.ok.inj hrun)
  have hquiet : ∀ p ∈ h, ¬Asks p.steps := by
    rintro p hp ⟨e, hep, hasks⟩
    have hmem : e ∈ h.flatMap (·.steps) := List.mem_flatMap.2 ⟨p, hp, hep⟩
    rw [← hsteps, List.mem_singleton] at hmem
    rw [hmem, step_instruction hs, hi] at hasks
    cases hasks
  exact ⟨hd, rfl, hev, h, _, g, l, hh, hg, he, he', hquiet, hsame hquiet⟩

end Machine
end PacedChip8
