/-
When a picture has to be shown again. The screen is marked exactly by the instructions that clear it
or draw on it, and no other instruction touches it; so an unmarked screen shows what it has shown
before. Somebody who shows the pictures that are marked, and takes their marks away, has always shown
the picture that the machine holds.
-/
import PacedChip8.Proofs.Machine.Safety
import PacedChip8.Proofs.Memory

namespace PacedChip8

namespace Instruction

/-- Whether the instruction acts on the screen. -/
def paints : Instruction → Bool
  | .clear | .draw .. => true
  | _ => false

theorem paints_iff {i : Instruction} : i.paints = true ↔ i = .clear ∨ ∃ x y rows, i = .draw x y rows := by
  cases i <;> simp [paints]

variable {c d : Cpu} {keys : Keys} {random : Random.Source} {held : Bool} {i : Instruction}

theorem drawing_eq_nil (hi : i.paints = false) : i.drawing c = [] := by
  cases i <;> first | rfl | cases hi

/-- Every sprite ends with the mark, even if all its pixels are off the screen. -/
theorem dirty_run_drawing (hi : i.paints = true) (h : i.transition c keys random = .ok (d, held)) (s : Screen) :
    (s.run (i.drawing c)).dirty = true := by
  cases i <;> cases hi
  case clear => rfl
  case draw x y rows =>
    simp only [transition, bind_eq_ok] at h
    obtain ⟨left, hx, top, hy, -⟩ := h
    rw [drawing, hx, hy]
    simp only [Sprite.commands, Screen.run, List.foldl_append, List.foldl_cons, List.foldl_nil, Screen.apply]

end Instruction

namespace Machine

variable {m n : Machine} {s : Stepped} {t : Trace}

/-- A step that acts on the screen leaves it marked, even if no pixel has changed. -/
theorem step_paints (h : m.step = .ok s) (hi : s.instruction.paints = true) : s.machine.screen.dirty = true := by
  obtain ⟨cpu, held, ht, rfl⟩ := step_eq_ok.1 h
  exact Instruction.dirty_run_drawing hi ht m.screen

theorem step_screen (h : m.step = .ok s) (hi : s.instruction.paints = false) : s.machine.screen = m.screen := by
  obtain ⟨cpu, held, ht, rfl⟩ := step_eq_ok.1 h
  rw [Instruction.drawing_eq_nil hi]
  rfl

/-! ## Runs -/

/-- Nobody but the machine acts on the screen. -/
def Undisplayed (events : List Event) : Prop := ∀ command, .display command ∉ events

theorem outside?_screen {e : Event} {f : Machine → Machine} (hf : e.outside? = some f)
    (he : ∀ command, e ≠ .display command) (m : Machine) : (f m).screen = m.screen := by
  cases e <;> simp only [Event.outside?, reduceCtorEq, Option.some.injEq] at hf <;> subst hf
  case load reading =>
    obtain ⟨g, hg⟩ := loaded_spec reading
    have hm := congrArg screen (hg m)
    exact hm
  case display command => exact absurd rfl (he command)
  all_goals rfl

/-- The mark tells whether anything of a trace has acted on the screen, and without it the picture is
the one from before. -/
structure Marked (before : Screen) (after : Screen) (t : Trace) : Prop where
  dirty : after.dirty = true ↔ before.dirty = true ∨ ∃ e ∈ t, e.2.instruction.paints = true
  pixels : after.dirty = false → after.pixels = before.pixels

theorem Marked.step {before : Screen} (h : m.step = .ok s) (hm : Marked before m.screen t) :
    Marked before s.machine.screen (record t m s) := by
  rcases hi : s.instruction.paints with _ | _
  · rw [step_screen h hi]
    refine ⟨?_, hm.pixels⟩
    rw [hm.dirty, exists_mem_record, hi]
    simp only [Bool.false_eq_true, or_false]
  · have hd := step_paints h hi
    refine ⟨⟨fun _ => .inr (exists_mem_record.2 (.inr hi)), fun _ => hd⟩, fun hclean => ?_⟩
    rw [hd] at hclean
    cases hclean

theorem marked_kept (before : Screen) : Kept record fun n t => Marked before n.screen t where
  beginFrame := id
  step := Marked.step

/-- After a run in which nobody else acts on the screen the mark tells whether the machine has. -/
theorem observeRun_marked {events : List Event} (hev : Undisplayed events)
    (h : m.observeRun record [] events = .ok (n, t)) : Marked m.screen n.screen t := by
  refine (marked_kept m.screen).run events (fun e he f hf k t hk => ?_) h ⟨by simp, fun _ => rfl⟩
  rw [outside?_screen hf fun command hc => hev command (hc ▸ he)]
  exact hk

/-! ## Somebody who watches -/

/-- Shows the picture if it is marked, and takes the mark away; otherwise what is shown stays. -/
def present (m : Machine) (shown : Vector Bool 2048) : Machine × Vector Bool 2048 :=
  if m.screen.dirty then ({ m with screen := m.screen.apply (.mark false) }, m.screen.pixels) else (m, shown)

/-- What is shown after rounds of events, if the picture is presented at the end of each. -/
def watch (m : Machine) (shown : Vector Bool 2048) : List (List Event) → Except Fault (Machine × Vector Bool 2048)
  | [] => .ok (m, shown)
  | events :: rounds =>
    match m.run events with
    | .error fault => .error fault
    | .ok n => watch (n.present shown).1 (n.present shown).2 rounds

theorem present_shown {shown : Vector Bool 2048} (h : m.screen.dirty = false → shown = m.screen.pixels) :
    (m.present shown).2 = (m.present shown).1.screen.pixels := by
  unfold present
  split
  · rfl
  · rename_i hd
    exact h (Bool.eq_false_of_not_eq_true hd)

/-- Whoever presents the picture after each round shows the current one, as no change goes unmarked. -/
theorem watch_shown {rounds : List (List Event)} (hev : ∀ events ∈ rounds, Undisplayed events)
    {shown after : Vector Bool 2048} (h : m.watch shown rounds = .ok (n, after)) (hm : shown = m.screen.pixels) :
    after = n.screen.pixels := by
  induction rounds generalizing m shown with
  | nil => cases h; exact hm
  | cons events rounds ih =>
    rw [watch] at h
    rcases hrun : m.run events with fault | k
    · rw [hrun] at h; cases h
    · rw [hrun] at h
      obtain ⟨t, ht⟩ := observeRun_of_run hrun record []
      -- a picture without a mark is the one that was shown before
      have hk := observeRun_marked (hev events (List.mem_cons_self ..)) ht
      exact ih (fun events' he => hev events' (List.mem_cons_of_mem _ he)) h
        (present_shown fun hd => hm.trans (hk.pixels hd).symm)

theorem exists_watch (hd : m.cpu.stack.depth ≤ 16) (shown : Vector Bool 2048) (rounds : List (List Event)) :
    ∃ n after, m.watch shown rounds = .ok (n, after) := by
  induction rounds generalizing m shown with
  | nil => exact ⟨m, shown, rfl⟩
  | cons events rounds ih =>
    obtain ⟨k, t, hrun, hk⟩ := exists_run hd events
    have hpresent : (k.present shown).1.cpu.stack.depth ≤ 16 := by
      unfold present
      split <;> exact hk
    obtain ⟨n, after, h⟩ := ih hpresent (k.present shown).2
    exact ⟨n, after, by rw [watch, run_of_observeRun hrun]; exact h⟩

/-- No redraw is lost. After a run in which nobody else acts on the screen it is marked if and only if
it was before, or an instruction that clears the screen or draws on it was carried out; and if it is
not marked, every pixel is what it was. So somebody who starts with the picture as it is, shows the
marked pictures after each round of events and takes their marks away, always shows the picture that
the machine holds. -/
theorem redraw_not_lost (m : Machine) :
    (m.cpu.stack.depth ≤ CallStack.capacity → ∀ events, ∃ n t, m.observeRun record [] events = .ok (n, t)) ∧
      (∀ events n t, Undisplayed events → m.observeRun record [] events = .ok (n, t) →
        (n.screen.dirty = true ↔ m.screen.dirty = true ∨
          ∃ e ∈ t, e.2.instruction = .clear ∨ ∃ x y rows, e.2.instruction = .draw x y rows) ∧
        (n.screen.dirty = false → n.screen.pixels = m.screen.pixels)) ∧
      (m.cpu.stack.depth ≤ CallStack.capacity → ∀ shown rounds, ∃ n after, m.watch shown rounds = .ok (n, after)) ∧
      ∀ rounds n after, (∀ events ∈ rounds, Undisplayed events) → m.watch m.screen.pixels rounds = .ok (n, after) →
        after = n.screen.pixels := by
  refine ⟨fun hd events => ?_, fun events n t hev h => ?_, exists_watch,
    fun rounds n after hev h => watch_shown hev h rfl⟩
  · obtain ⟨n, t, hrun, -⟩ := exists_run hd events
    exact ⟨n, t, hrun⟩
  · have hm := observeRun_marked hev h
    simp only [← Instruction.paints_iff]
    exact ⟨hm.dirty, hm.pixels⟩

/-- A sprite of no rows, drawn on a screen that is not marked. -/
theorem redraw_not_lost_no_rows :
    let m : Machine := { create {} 0 (.fresh false) with
      cpu := { Cpu.initial with memory := (Memory.blank.set 0x200 0xD0).set 0x201 0x10 } }
    m.cpu.stack.depth ≤ CallStack.capacity ∧ m.screen.dirty = false ∧ Undisplayed [.press 3, .step] ∧
      ∃ n t, m.observeRun record [] [.press 3, .step] = .ok (n, t) ∧ n.screen.dirty = true := by
  intro m
  have hd : m.cpu.stack.depth ≤ CallStack.capacity := by decide
  have hev : Undisplayed [.press 3, .step] := by intro command h; simp at h
  have hi : (m.withKeypad (·.press 3)).instruction = .draw 0 1 0 := by
    have hw : (m.withKeypad (·.press 3)).fetchedWord = 0xD010 := Memory.word_set_set .blank 0x200 0xD0 0x10
    rw [Machine.instruction, hw]
    decide
  obtain ⟨s, hs⟩ := step_ok (m := m.withKeypad (·.press 3)) hd
  have hrun : m.observeRun record [] [.press 3, .step] = .ok (s.machine, [(m.withKeypad (·.press 3), s)]) := by
    simp only [observeRun, handle, hs, Except.map, record, List.nil_append]
  have hsi : s.instruction = .draw 0 1 0 := by
    obtain ⟨_, _, _, hs⟩ := step_eq_ok.1 hs
    rw [hs, hi]
  obtain ⟨hmark, -⟩ := (redraw_not_lost m).2.1 _ _ _ hev hrun
  exact ⟨hd, rfl, hev, _, _, hrun, hmark.2 (.inr ⟨_, List.mem_singleton_self _, .inr ⟨0, 1, 0, hsi⟩⟩)⟩

end Machine
end PacedChip8
