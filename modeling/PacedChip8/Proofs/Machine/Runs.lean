/-
What a whole run keeps, shown once. Steps and frames are the machine's own doing, and everything else
comes from outside and reaches the memory, the keypad and the screen alone. An invariant, or a
relation between two machines, has to be kept by the timer part of a frame, by a step and by the
events from outside; then it holds after every run (`Simulation.run`, `Invariant.run`). Where a
machine may fault it holds after the runs that go through (`Kept.run`).
-/
import PacedChip8.Proofs.Machine.Trace

namespace PacedChip8.Machine

/-! ## What a run keeps -/

/-- What an event does from outside; steps and frames are the machine's own doing. -/
def Event.outside? : Event → Option (Machine → Machine)
  | .step | .tick => none
  | .load reading => some (·.loaded reading)
  | .press key => some (·.withKeypad (·.press key))
  | .release key => some (·.withKeypad (·.release key))
  | .sample => some (·.withKeypad Keypad.sample)
  | .display command => some fun m => { m with screen := m.screen.apply command }

/-- A load reaches the memory alone, and what it does there does not depend on the rest of the machine. -/
theorem loaded_spec (reading : Reading) :
    ∃ f : Memory → Memory, ∀ m : Machine,
      m.loaded reading = { m with cpu := { m.cpu with memory := f m.cpu.memory } } := by
  rcases reading with bytes | ⟨bytes, cause⟩
  · by_cases hlen : Memory.programCapacity < bytes.length
    · refine ⟨id, fun m => ?_⟩
      simp [loaded, load, hlen]
    · refine ⟨fun memory => match memory.load Memory.programStart bytes with
        | .ok memory => memory
        | .error _ => memory, fun m => ?_⟩
      simp only [loaded, load, hlen, if_false]
      rcases m.cpu.memory.load Memory.programStart bytes with e | memory <;> rfl
  · exact ⟨id, fun _ => rfl⟩

/-- From outside the memory, the keypad and the screen can be reached, each by itself. -/
theorem outside?_spec {e : Event} {f : Machine → Machine} (h : e.outside? = some f) :
    ∃ (g : Memory → Memory) (k : Keypad → Keypad) (d : Screen → Screen), ∀ m : Machine,
      f m = { m with cpu := { m.cpu with memory := g m.cpu.memory }, keypad := k m.keypad, screen := d m.screen } := by
  cases e <;> simp only [Event.outside?, reduceCtorEq, Option.some.injEq] at h <;> subst h
  case load reading =>
    obtain ⟨g, hg⟩ := loaded_spec reading
    exact ⟨g, id, id, hg⟩
  case press key => exact ⟨id, (·.press key), id, fun _ => rfl⟩
  case release key => exact ⟨id, (·.release key), id, fun _ => rfl⟩
  case sample => exact ⟨id, Keypad.sample, id, fun _ => rfl⟩
  case display command => exact ⟨id, id, (·.apply command), fun _ => rfl⟩

theorem handle_outside {α : Type} {observe : Observer α} {m : Machine} {seen : α} {e : Event} {f : Machine → Machine}
    (h : e.outside? = some f) : m.handle observe seen e = .ok (f m, seen) := by
  cases e <;> simp only [Event.outside?, reduceCtorEq, Option.some.injEq] at h <;> subst h <;> rfl

theorem outside?_eq_none {e : Event} (h : e.outside? = none) : e = .step ∨ e = .tick := by
  cases e <;> simp [Event.outside?] at h ⊢

section

variable {α β : Type} {o : Observer α}

theorem handle_step_eq_ok {m n : Machine} {a b : α} :
    m.handle o a .step = .ok (n, b) ↔ ∃ s, m.step = .ok s ∧ n = s.machine ∧ b = o a m s := by
  rw [handle]
  rcases m.step with fault | s
  · simp [Except.map]
  · simp [Except.map, eq_comm]

theorem observeRun_cons_eq_ok {e : Event} {events : List Event} {m n : Machine} {a b : α} :
    m.observeRun o a (e :: events) = .ok (n, b) ↔
      ∃ l c, m.handle o a e = .ok (l, c) ∧ l.observeRun o c events = .ok (n, b) := by
  rw [observeRun]
  rcases m.handle o a e with fault | ⟨l, c⟩
  · simp
  · simp

/-- The machine goes the same way whoever watches. -/
theorem handle_observer {m n : Machine} {e : Event} {a b : α} (h : m.handle o a e = .ok (n, b))
    (o' : Observer β) (a' : β) : ∃ b', m.handle o' a' e = .ok (n, b') := by
  rcases hf : e.outside? with _ | f
  · rcases outside?_eq_none hf with rfl | rfl
    · obtain ⟨s, hs, hn, -⟩ := handle_step_eq_ok.1 h
      exact ⟨o' a' m s, handle_step_eq_ok.2 ⟨s, hs, hn, rfl⟩⟩
    · obtain ⟨t, ht, -⟩ := observeTick_eq_ok h
      exact ⟨_, ht.run o' a'⟩
  · rw [handle_outside hf] at h
    cases h
    exact ⟨a', handle_outside hf⟩

/-- A run goes the same way whoever watches it. -/
theorem observeRun_observer {events : List Event} {m n : Machine} {a b : α}
    (h : m.observeRun o a events = .ok (n, b)) (o' : Observer β) (a' : β) :
    ∃ b', m.observeRun o' a' events = .ok (n, b') := by
  induction events generalizing m a a' with
  | nil => cases h; exact ⟨a', rfl⟩
  | cons e events ih =>
    obtain ⟨l, c, he, hrest⟩ := observeRun_cons_eq_ok.1 h
    obtain ⟨c', he'⟩ := handle_observer he o' a'
    obtain ⟨b', hrest'⟩ := ih hrest c'
    exact ⟨b', observeRun_cons_eq_ok.2 ⟨l, c', he', hrest'⟩⟩

theorem run_of_observeRun {events : List Event} {m n : Machine} {a b : α}
    (h : m.observeRun o a events = .ok (n, b)) : m.run events = .ok n := by
  obtain ⟨b', h'⟩ := observeRun_observer h (fun _ _ _ => ()) ()
  rw [run, h']
  rfl

theorem observeRun_of_run {events : List Event} {m n : Machine} (h : m.run events = .ok n) (o : Observer α) (a : α) :
    ∃ b, m.observeRun o a events = .ok (n, b) := by
  rw [run] at h
  rcases hr : m.observeRun (fun _ _ _ => ()) () events with fault | ⟨l, u⟩
  · rw [hr] at h; cases h
  · rw [hr] at h
    cases h
    exact observeRun_observer hr o a

theorem tick_of_observeTick {m n : Machine} {a b : α} (h : m.observeTick o a = .ok (n, b)) : m.tick = .ok n := by
  obtain ⟨t, ht, -⟩ := observeTick_eq_ok h
  rw [tick, observeTick, ht.run]
  rfl

theorem observeTick_of_tick {m n : Machine} (h : m.tick = .ok n) (o : Observer α) (a : α) :
    ∃ b, m.observeTick o a = .ok (n, b) := by
  rw [tick] at h
  rcases ht : m.observeTick (fun _ _ _ => ()) () with fault | ⟨l, u⟩
  · rw [ht] at h; cases h
  · rw [ht] at h
    cases h
    obtain ⟨t, hburst, -⟩ := observeTick_eq_ok ht
    exact ⟨_, hburst.run o a⟩

variable {o' : Observer β} {R : Machine → α → Machine → β → Prop}

/-- A relation between two observed machines that go in step: it is kept by the timer part of a
frame, and where it holds both can step, at the same cost, and it holds again. -/
structure Simulation (o : Observer α) (o' : Observer β) (R : Machine → α → Machine → β → Prop) : Prop where
  budget : ∀ {m a n b}, R m a n b → m.budget = n.budget
  beginFrame : ∀ {m a n b}, R m a n b → R m.beginFrame a n.beginFrame b
  step : ∀ {m a n b}, R m a n b → ∃ s t, m.step = .ok s ∧ n.step = .ok t ∧ s.cost = t.cost ∧
    R s.machine (o a m s) t.machine (o' b n t)

/-- Since both steps cost the same, both bursts are over at the same time. -/
theorem Simulation.burst (sim : Simulation o o' R) (unspent : Nat) {m n : Machine} {a : α} {b : β} (h : R m a n b) :
    ∃ m' a' n' b', m.burst o unspent a = .ok (m', a') ∧ n.burst o' unspent b = .ok (n', b') ∧ R m' a' n' b' := by
  induction unspent using Nat.strong_induction_on generalizing m n a b with
  | _ unspent ih =>
    obtain ⟨s, t, hs, ht, hcost, hR⟩ := sim.step h
    by_cases hc : s.cost = 0 ∨ unspent ≤ s.cost
    · refine ⟨s.machine, o a m s, t.machine, o' b n t, ?_, ?_, hR⟩
      · rw [Machine.burst, hs]; simp [hc]
      · rw [Machine.burst, ht]; simp [← hcost, hc]
    · obtain ⟨m', a', n', b', h1, h2, hR'⟩ := ih (unspent - s.cost) (by omega) hR
      refine ⟨m', a', n', b', ?_, ?_, hR'⟩
      · rw [Machine.burst, hs]; simp only [hc, if_false]; exact h1
      · rw [Machine.burst, ht]; simp only [← hcost, hc, if_false]; exact h2

theorem Simulation.tick (sim : Simulation o o' R) {m n : Machine} {a : α} {b : β} (h : R m a n b) :
    ∃ m' a' n' b', m.observeTick o a = .ok (m', a') ∧ n.observeTick o' b = .ok (n', b') ∧ R m' a' n' b' := by
  unfold observeTick
  rw [← sim.budget h]
  exact sim.burst m.budget (sim.beginFrame h)

/-- A relation that is kept by the machine's own steps and by the events from outside holds after every run, and
neither run faults. -/
theorem Simulation.run (sim : Simulation o o' R) (events : List Event)
    (outside : ∀ e ∈ events, ∀ f, e.outside? = some f → ∀ {m a n b}, R m a n b → R (f m) a (f n) b)
    {m n : Machine} {a : α} {b : β} (h : R m a n b) :
    ∃ m' a' n' b', m.observeRun o a events = .ok (m', a') ∧ n.observeRun o' b events = .ok (n', b') ∧
      R m' a' n' b' := by
  induction events generalizing m n a b with
  | nil => exact ⟨m, a, n, b, rfl, rfl, h⟩
  | cons e events ih =>
    -- one event at a time: a step, a frame, or something from outside
    have one : ∃ m' a' n' b', m.handle o a e = .ok (m', a') ∧ n.handle o' b e = .ok (n', b') ∧ R m' a' n' b' := by
      rcases hf : e.outside? with _ | f
      · rcases outside?_eq_none hf with rfl | rfl
        · obtain ⟨s, t, hs, ht, -, hR⟩ := sim.step h
          exact ⟨_, _, _, _, by rw [handle, hs]; rfl, by rw [handle, ht]; rfl, hR⟩
        · exact sim.tick h
      · exact ⟨f m, a, f n, b, handle_outside hf, handle_outside hf, outside e (List.mem_cons_self ..) f hf h⟩
    obtain ⟨m₁, a₁, n₁, b₁, h1, h2, hR⟩ := one
    obtain ⟨m', a', n', b', h3, h4, hR'⟩ := ih (fun e he => outside e (List.mem_cons_of_mem _ he)) hR
    exact ⟨m', a', n', b', observeRun_cons_eq_ok.2 ⟨_, _, h1, h3⟩, observeRun_cons_eq_ok.2 ⟨_, _, h2, h4⟩, hR'⟩

variable {P : Machine → α → Prop}

/-- What one observed machine keeps, together with its being able to step. -/
structure Invariant (o : Observer α) (P : Machine → α → Prop) : Prop where
  beginFrame : ∀ {m a}, P m a → P m.beginFrame a
  step : ∀ {m a}, P m a → ∃ s, m.step = .ok s ∧ P s.machine (o a m s)

theorem Invariant.simulation (inv : Invariant o P) : Simulation o o fun m a n b => m = n ∧ a = b ∧ P m a where
  budget := by rintro m a _ _ ⟨rfl, rfl, -⟩; rfl
  beginFrame := by rintro m a _ _ ⟨rfl, rfl, h⟩; exact ⟨rfl, rfl, inv.beginFrame h⟩
  step := by
    rintro m a _ _ ⟨rfl, rfl, h⟩
    obtain ⟨s, hs, hP⟩ := inv.step h
    exact ⟨s, s, hs, hs, rfl, rfl, rfl, hP⟩

/-- The invariant holds after every run, and no run faults. -/
theorem Invariant.run (inv : Invariant o P) (events : List Event)
    (outside : ∀ e ∈ events, ∀ f, e.outside? = some f → ∀ {m a}, P m a → P (f m) a) {m : Machine} {a : α}
    (h : P m a) : ∃ n b, m.observeRun o a events = .ok (n, b) ∧ P n b := by
  obtain ⟨n, b, _, _, h1, -, rfl, rfl, hP⟩ := inv.simulation.run events (m := m) (a := a)
    (fun e he f hf m a n b => by rintro ⟨rfl, rfl, h⟩; exact ⟨rfl, rfl, outside e he f hf h⟩) ⟨rfl, rfl, h⟩
  exact ⟨n, b, h1, hP⟩

/-- A relation between two observed machines that may fault, but only together: it is kept by the timer
part of a frame, and where it holds both step, at the same cost, and it holds again, or both fault. -/
structure Lockstep (o : Observer α) (o' : Observer β) (R : Machine → α → Machine → β → Prop) : Prop where
  budget : ∀ {m a n b}, R m a n b → m.budget = n.budget
  beginFrame : ∀ {m a n b}, R m a n b → R m.beginFrame a n.beginFrame b
  step : ∀ {m a n b}, R m a n b →
    InStep (fun s t => s.cost = t.cost ∧ R s.machine (o a m s) t.machine (o' b n t)) m.step n.step

theorem Lockstep.burst (lock : Lockstep o o' R) (unspent : Nat) {m n : Machine} {a : α} {b : β} (h : R m a n b) :
    InStep (fun p q => R p.1 p.2 q.1 q.2) (m.burst o unspent a) (n.burst o' unspent b) := by
  induction unspent using Nat.strong_induction_on generalizing m n a b with
  | _ unspent ih =>
    have hstep := lock.step h
    rw [Machine.burst, Machine.burst]
    generalize m.step = x, n.step = y at hstep
    cases hstep with
    | error e => exact .error e
    | ok hs =>
      obtain ⟨hcost, hR⟩ := hs
      simp only [← hcost]
      split
      · exact .ok hR
      · exact ih _ (by omega) hR

theorem Lockstep.handle (lock : Lockstep o o' R) {e : Event}
    (outside : ∀ f, e.outside? = some f → ∀ {m a n b}, R m a n b → R (f m) a (f n) b)
    {m n : Machine} {a : α} {b : β} (h : R m a n b) :
    InStep (fun p q => R p.1 p.2 q.1 q.2) (m.handle o a e) (n.handle o' b e) := by
  rcases hf : e.outside? with _ | f
  · rcases outside?_eq_none hf with rfl | rfl
    · have hstep := lock.step h
      rw [Machine.handle, Machine.handle]
      generalize m.step = x, n.step = y at hstep
      cases hstep with
      | error e => exact .error e
      | ok hs => exact .ok hs.2
    · rw [Machine.handle, Machine.handle, observeTick, observeTick, ← lock.budget h]
      exact lock.burst m.budget (lock.beginFrame h)
  · rw [handle_outside hf, handle_outside hf]
    exact .ok (outside f hf h)

/-- The relation holds after every run, and a run of one of the machines faults where the other does. -/
theorem Lockstep.run (lock : Lockstep o o' R) (events : List Event)
    (outside : ∀ e ∈ events, ∀ f, e.outside? = some f → ∀ {m a n b}, R m a n b → R (f m) a (f n) b)
    {m n : Machine} {a : α} {b : β} (h : R m a n b) :
    InStep (fun p q => R p.1 p.2 q.1 q.2) (m.observeRun o a events) (n.observeRun o' b events) := by
  induction events generalizing m n a b with
  | nil => exact .ok h
  | cons e events ih =>
    have hhandle := lock.handle (outside e (List.mem_cons_self ..)) h
    rw [observeRun, observeRun]
    generalize m.handle o a e = x, n.handle o' b e = y at hhandle
    cases hhandle with
    | error e => exact .error e
    | ok hR => exact ih (fun e he => outside e (List.mem_cons_of_mem _ he)) hR

/-- What one observed machine keeps for as long as its steps go through. -/
structure Kept (o : Observer α) (P : Machine → α → Prop) : Prop where
  beginFrame : ∀ {m a}, P m a → P m.beginFrame a
  step : ∀ {m a s}, m.step = .ok s → P m a → P s.machine (o a m s)

theorem Kept.lockstep (kept : Kept o P) : Lockstep o o fun m a n b => m = n ∧ a = b ∧ P m a where
  budget := by rintro m a _ _ ⟨rfl, rfl, -⟩; rfl
  beginFrame := by rintro m a _ _ ⟨rfl, rfl, h⟩; exact ⟨rfl, rfl, kept.beginFrame h⟩
  step := by
    rintro m a _ _ ⟨rfl, rfl, h⟩
    rcases hs : m.step with fault | s
    · exact .error fault
    · exact .ok ⟨rfl, rfl, rfl, kept.step hs h⟩

/-- What the steps that go through keep holds after every run that goes through. -/
theorem Kept.run (kept : Kept o P) (events : List Event)
    (outside : ∀ e ∈ events, ∀ f, e.outside? = some f → ∀ {m a}, P m a → P (f m) a) {m n : Machine} {a b : α}
    (hrun : m.observeRun o a events = .ok (n, b)) (h : P m a) : P n b := by
  have hlock := kept.lockstep.run events (m := m) (a := a)
    (fun e he f hf m a n b => by rintro ⟨rfl, rfl, h⟩; exact ⟨rfl, rfl, outside e he f hf h⟩) ⟨rfl, rfl, h⟩
  obtain ⟨_, -, -, -, hP⟩ := hlock.of_ok hrun
  exact hP

end

end PacedChip8.Machine
