/-
Runs told event by event. An episode is one event with the machine before it, the steps that it takes
and the machine after it, and a chronicle is a list of episodes that follow on each other; a run goes
through exactly if it has a chronicle (`observeRun_eq_ok`). The frames of a chronicle number its steps.
What lies behind a point of a run, under these numbers, is a moment of it (`Moment`), and each step of a
chronicle is taken at one (`Chronicle.moment_before`): what is to hold at all points of a run, and counts frames,
is shown by induction over moments.
-/
import PacedChip8.Proofs.Machine.Safety

namespace PacedChip8.Machine

/-! ## Episodes -/

/-- The event takes a machine to another with these steps: none for what comes from outside, one, or
those of a burst. -/
inductive Takes : Event → Machine → Trace → Machine → Prop
  | outside {e : Event} {f : Machine → Machine} {m : Machine} : e.outside? = some f → Takes e m [] (f m)
  | step {m : Machine} {s : Stepped} : m.step = .ok s → Takes .step m [(m, s)] s.machine
  | tick {m n : Machine} {t : Trace} : Burst m.budget m.beginFrame t n → Takes .tick m t n

/-- Whatever is observed of an event is observed of its steps one after another. -/
theorem handle_eq_ok {α : Type} {o : Observer α} {m n : Machine} {e : Event} {a b : α} :
    m.handle o a e = .ok (n, b) ↔ ∃ t, Takes e m t n ∧ b = t.foldl (fun a e => o a e.1 e.2) a := by
  constructor
  · intro h
    rcases hf : e.outside? with _ | f
    · rcases outside?_eq_none hf with rfl | rfl
      · obtain ⟨s, hs, rfl, rfl⟩ := handle_step_eq_ok.1 h
        exact ⟨[(m, s)], .step hs, rfl⟩
      · obtain ⟨t, ht, hb⟩ := observeTick_eq_ok h
        exact ⟨t, .tick ht, hb⟩
    · rw [handle_outside hf] at h
      cases h
      exact ⟨[], .outside hf, rfl⟩
  · rintro ⟨t, ht, rfl⟩
    cases ht with
    | outside hf => exact handle_outside hf
    | step hs => exact handle_step_eq_ok.2 ⟨_, hs, rfl, rfl⟩
    | tick ht => exact ht.run o a

/-- A frame that may spend next to nothing takes one step. -/
theorem Takes.single {m : Machine} {s : Stepped} (hb : m.budget ≤ 1) (hs : m.beginFrame.step = .ok s) :
    Takes .tick m [(m.beginFrame, s)] s.machine :=
  .tick (.last hs (by omega))

/-- One event of a run. -/
structure Episode where
  event : Event
  before : Machine
  steps : Trace
  after : Machine
  takes : Takes event before steps after

/-- The episodes lead from one machine to another. -/
inductive Chronicle : Machine → List Episode → Machine → Prop
  | nil (m : Machine) : Chronicle m [] m
  | cons (p : Episode) {h : List Episode} {n : Machine} : Chronicle p.after h n → Chronicle p.before (p :: h) n

/-- A run is observed as the steps of its chronicle are, one after another. -/
theorem observeRun_eq_ok {α : Type} {o : Observer α} {m n : Machine} {events : List Event} {a b : α} :
    m.observeRun o a events = .ok (n, b) ↔ ∃ h, Chronicle m h n ∧ h.map (·.event) = events ∧
      b = (h.flatMap (·.steps)).foldl (fun a e => o a e.1 e.2) a := by
  constructor
  · intro hrun
    induction events generalizing m a with
    | nil => cases hrun; exact ⟨[], .nil _, rfl, rfl⟩
    | cons e events ih =>
      obtain ⟨l, c, he, hrest⟩ := observeRun_cons_eq_ok.1 hrun
      obtain ⟨t, ht, rfl⟩ := handle_eq_ok.1 he
      obtain ⟨h, hh, rfl, rfl⟩ := ih hrest
      let p : Episode := ⟨e, m, t, l, ht⟩
      exact ⟨p :: h, .cons p hh, rfl, by rw [List.flatMap_cons, List.foldl_append]⟩
  · rintro ⟨h, hh, rfl, rfl⟩
    induction hh generalizing a with
    | nil m => rfl
    | cons p _ ih =>
      rw [List.flatMap_cons, List.foldl_append]
      exact observeRun_cons_eq_ok.2 ⟨p.after, _, handle_eq_ok.2 ⟨p.steps, p.takes, rfl⟩, ih⟩

theorem exists_chronicle {m : Machine} (hd : m.cpu.stack.depth ≤ 16) (events : List Event) :
    ∃ h n, Chronicle m h n ∧ h.map (·.event) = events ∧
      m.observeRun record [] events = .ok (n, h.flatMap (·.steps)) := by
  obtain ⟨n, t, hrun, -⟩ := exists_run hd events
  obtain ⟨h, hh, he, ht⟩ := observeRun_eq_ok.1 hrun
  rw [foldl_record, List.nil_append] at ht
  exact ⟨h, n, hh, he, ht ▸ hrun⟩

theorem Chronicle.split {m n : Machine} {first rest : List Episode} {p : Episode}
    (hh : Chronicle m (first ++ p :: rest) n) : Chronicle m first p.before ∧ Chronicle p.after rest n := by
  induction first generalizing m with
  | nil => cases hh with | cons _ hrest => exact ⟨.nil _, hrest⟩
  | cons q first ih =>
    cases hh with
    | cons _ hrest =>
      obtain ⟨hfirst, hrest⟩ := ih hrest
      exact ⟨.cons q hfirst, hrest⟩

/-! ## Frames -/

/-- The number of the frame that an event belongs to, after `k` frames. -/
def Event.frame (e : Event) (k : Nat) : Nat := if e = .tick then k + 1 else k

/-- How many frames begin in the episodes. -/
def frames (h : List Episode) : Nat := h.countP (·.event = .tick)

/-- A step with the number of its frame; what is done between two frames belongs to the first. -/
structure Dated where
  frame : Nat
  before : Machine
  step : Stepped

def Trace.dated (t : Trace) (k : Nat) : List Dated := t.map fun e => ⟨k, e.1, e.2⟩

/-- The steps of the episodes under the numbers of their frames, after `k` frames. -/
def numbered (k : Nat) : List Episode → List Dated
  | [] => []
  | p :: h => Trace.dated p.steps (p.event.frame k) ++ numbered (p.event.frame k) h

theorem frames_cons (p : Episode) (h : List Episode) (k : Nat) : k + frames (p :: h) = p.event.frame k + frames h := by
  unfold frames Event.frame
  rw [List.countP_cons]
  by_cases he : p.event = .tick
  · simp [he]; omega
  · simp [he]

theorem mem_numbered {k : Nat} {e : Dated} {h : List Episode} (he : e ∈ numbered k h) :
    ∃ p ∈ h, (e.before, e.step) ∈ p.steps := by
  induction h generalizing k with
  | nil => cases he
  | cons p h ih =>
    rw [numbered, List.mem_append] at he
    rcases he with he | he
    · obtain ⟨step, hstep, rfl⟩ := List.mem_map.1 he
      exact ⟨p, List.mem_cons_self .., hstep⟩
    · obtain ⟨q, hq, hstep⟩ := ih he
      exact ⟨q, List.mem_cons_of_mem _ hq, hstep⟩

/-! ## Moments -/

/-- A point of a run from `first`: so many frames have begun, these steps lie behind it, and this is the
machine. -/
inductive Moment (first : Machine) : Nat → List Dated → Machine → Prop
  | start : Moment first 0 [] first
  | outside {k : Nat} {past : List Dated} {m : Machine} {e : Event} {f : Machine → Machine} :
      e.outside? = some f → Moment first k past m → Moment first k past (f m)
  | beginFrame {k : Nat} {past : List Dated} {m : Machine} :
      Moment first k past m → Moment first (k + 1) past m.beginFrame
  | step {k : Nat} {past : List Dated} {m : Machine} {s : Stepped} :
      m.step = .ok s → Moment first k past m → Moment first k (past ++ [⟨k, m, s⟩]) s.machine

variable {first m n : Machine} {k : Nat} {past : List Dated}

theorem Moment.frame_le (h : Moment first k past m) : ∀ e ∈ past, e.frame ≤ k := by
  induction h with
  | start => simp
  | outside _ _ ih => exact ih
  | beginFrame _ ih => exact fun e he => Nat.le_succ_of_le (ih e he)
  | step _ _ ih =>
    intro e he
    rcases List.mem_append.1 he with he | he
    · exact ih e he
    · rw [List.mem_singleton.1 he]

/-- Each step that lies behind was taken at a moment of its own. -/
theorem Moment.before {past future : List Dated} {e : Dated} (h : Moment first k (past ++ e :: future) m) :
    Moment first e.frame past e.before ∧ e.before.step = .ok e.step := by
  generalize hall : past ++ e :: future = all at h
  induction h generalizing future with
  | start => cases past <;> cases hall
  | outside _ _ ih => exact ih hall
  | beginFrame _ ih => exact ih hall
  | @step k' past' m' s' hs h ih =>
    rcases List.eq_nil_or_concat future with rfl | ⟨future, last, rfl⟩
    · obtain ⟨rfl, he⟩ := List.append_inj' hall rfl
      obtain rfl := List.singleton_inj.1 he
      exact ⟨h, hs⟩
    · rw [List.concat_eq_append, ← List.cons_append, ← List.append_assoc] at hall
      exact ih (List.append_inj' hall rfl).1

theorem Moment.steps {t : Trace} (hsteps : Steps m t n) (h : Moment first k past m) :
    Moment first k (past ++ Trace.dated t k) n := by
  induction hsteps generalizing past with
  | nil m => simpa [Trace.dated] using h
  | cons hs _ ih =>
    have hnext := ih (h.step hs)
    rwa [List.append_assoc] at hnext

theorem Moment.takes {e : Event} {t : Trace} (ht : Takes e m t n) (h : Moment first k past m) :
    Moment first (e.frame k) (past ++ Trace.dated t (e.frame k)) n := by
  cases ht with
  | outside hf =>
    have he : e ≠ .tick := by rintro rfl; cases hf
    rw [Event.frame, if_neg he]
    simpa [Trace.dated] using h.outside hf
  | step hs => exact h.steps (.cons hs (.nil _))
  | tick ht => exact h.beginFrame.steps ht.steps

/-- A chronicle leads from a moment to the moment with its frames and its steps added. -/
theorem Moment.chronicle {h : List Episode} (hh : Chronicle m h n) (hm : Moment first k past m) :
    Moment first (k + frames h) (past ++ numbered k h) n := by
  induction hh generalizing k past with
  | nil m => simpa [frames, numbered] using hm
  | cons p _ ih =>
    have hnext := ih (hm.takes p.takes)
    rwa [List.append_assoc, ← frames_cons] at hnext

theorem Chronicle.moment {h : List Episode} (hh : Chronicle m h n) : Moment m (frames h) (numbered 0 h) n := by
  have hlast := Moment.chronicle hh .start
  rwa [Nat.zero_add] at hlast

/-- Each step of a chronicle is taken at the moment of the steps before it, in the frame that it is numbered with. -/
theorem Chronicle.moment_before {h : List Episode} {future : List Dated} {e : Dated} (hh : Chronicle m h n)
    (he : numbered 0 h = past ++ e :: future) : Moment m e.frame past e.before ∧ e.before.step = .ok e.step := by
  have hall := hh.moment
  rw [he] at hall
  exact hall.before

end PacedChip8.Machine
