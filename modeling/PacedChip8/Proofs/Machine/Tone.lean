/-
The tone. Only the timer part of a frame touches the speaker, before the first step of the frame, and it
switches it at most once and only to what it is not (`Disciplined`). So starts and stops take turns, and
which of the two came last is what the speaker does. A tone sounds through the frames that find the sound
timer running: as many as the timer shows, if nothing sets it before they are over.
-/
import PacedChip8.Proofs.Machine.Timers

namespace PacedChip8

namespace Speaker

def switch (s : Speaker) (on : Bool) : Speaker := if on then s.start else s.stop

/-- What has been called between two states of a speaker, as its counts tell: the starts, as `true`, and
the stops. -/
def calls (s r : Speaker) : List Bool :=
  List.replicate (r.starts - s.starts) true ++ List.replicate (r.stops - s.stops) false

theorem calls_self (s : Speaker) : s.calls s = [] := by
  simp [calls]

theorem calls_switch (s : Speaker) (on : Bool) : s.calls (s.switch on) = [on] := by
  cases on <;> simp [calls, switch, start, stop]

theorem playing_switch (s : Speaker) (on : Bool) : (s.switch on).playing = on := by
  cases on <;> rfl

theorem follow_eq (s : Speaker) (sounding : Bool) :
    s.follow sounding = if sounding = s.playing then s else s.switch sounding := rfl

theorem balance_switch {s : Speaker} {on : Bool} (h : s.playing ≠ on) :
    ((s.switch on).starts - s.starts : ℤ) - ((s.switch on).stops - s.stops) = on.toInt - s.playing.toInt := by
  rw [Bool.eq_not.2 h]
  cases on <;> simp [switch, start, stop]

/-- The count of the starts runs ahead of that of the stops while the tone sounds. -/
theorem balance_foldl_switch {calls : List Bool} {s : Speaker} (h : (s.playing :: calls).IsChain (· ≠ ·)) :
    ((calls.foldl switch s).starts - s.starts : ℤ) - ((calls.foldl switch s).stops - s.stops) =
      (calls.foldl switch s).playing.toInt - s.playing.toInt := by
  induction calls generalizing s with
  | nil => simp
  | cons on calls ih =>
    obtain ⟨hon, hrest⟩ := List.isChain_cons_cons.1 h
    have hone := balance_switch hon
    have hnext := ih (s := s.switch on) (by rwa [playing_switch])
    rw [playing_switch] at hnext
    rw [List.foldl_cons]
    omega

end Speaker

namespace Machine

variable {m n : Machine} {s : Stepped} {e : Event} {t : Trace} {h : List Episode}

/-! ## One event -/

theorem step_speaker (h : m.step = .ok s) : s.machine.speaker = m.speaker := by
  obtain ⟨_, _, _, rfl⟩ := step_eq_ok.1 h
  rfl

/-- No step touches the speaker. -/
theorem Steps.speaker (h : Steps m t n) :
    n.speaker = m.speaker ∧ ∀ e ∈ t, e.1.speaker = m.speaker ∧ e.2.machine.speaker = m.speaker := by
  obtain ⟨hn, ht⟩ := h.keeps (P := fun k => k.speaker = m.speaker) (fun hs hk => (step_speaker hs).trans hk) rfl
  exact ⟨hn, fun e he => ⟨ht e he, (step_speaker (h.step_of_mem e he)).trans (ht e he)⟩⟩

theorem Takes.speaker (h : Takes e m t n) :
    n.speaker = (if e = .tick then m.speaker.follow (m.cpu.sound != 0) else m.speaker) ∧
      ∀ e ∈ t, e.1.speaker = n.speaker ∧ e.2.machine.speaker = n.speaker := by
  cases h with
  | outside hf =>
    have he : e ≠ .tick := by rintro rfl; cases hf
    obtain ⟨g, k, d, hf⟩ := outside?_spec hf
    rw [if_neg he, hf]
    exact ⟨rfl, by simp⟩
  | step hs =>
    obtain ⟨hn, ht⟩ := (Steps.cons hs (.nil _)).speaker
    exact ⟨hn, by rw [hn]; exact ht⟩
  | tick ht =>
    obtain ⟨hn, ht⟩ := ht.steps.speaker
    exact ⟨hn, by rw [hn]; exact ht⟩

/-- What an event calls the speaker for. -/
def Episode.calls (p : Episode) : List Bool := p.before.speaker.calls p.after.speaker

/-- How an event uses the speaker: a frame may call it once, for what it does not do, and before the
first step, and leaves it sounding exactly if the sound timer was running. -/
structure Episode.Disciplined (p : Episode) : Prop where
  atMostOne : p.calls.length ≤ 1
  onlyTick : p.calls ≠ [] → p.event = .tick
  change : ∀ on ∈ p.calls, p.before.speaker.playing ≠ on
  effect : p.after.speaker = p.calls.foldl Speaker.switch p.before.speaker
  beforeSteps : ∀ e ∈ p.steps, e.1.speaker = p.after.speaker ∧ e.2.machine.speaker = p.after.speaker
  sounding : p.event = .tick → (p.after.speaker.playing = true ↔ 0 < p.before.cpu.sound)

/-- An event calls the speaker for nothing, or a frame calls it for one thing that it does not do. -/
theorem Episode.calls_spec (p : Episode) :
    (p.calls = [] ∧ p.after.speaker = p.before.speaker) ∨
      ∃ on, p.event = .tick ∧ p.before.speaker.playing ≠ on ∧ p.calls = [on] ∧
        p.after.speaker = p.before.speaker.switch on := by
  obtain ⟨hafter, -⟩ := p.takes.speaker
  have hquiet (h : p.after.speaker = p.before.speaker) : p.calls = [] := by rw [calls, h, Speaker.calls_self]
  split at hafter
  · rename_i he
    rw [Speaker.follow_eq] at hafter
    split at hafter
    · exact .inl ⟨hquiet hafter, hafter⟩
    · rename_i hne
      exact .inr ⟨_, he, Ne.symm hne, by rw [calls, hafter, Speaker.calls_switch], hafter⟩
  · exact .inl ⟨hquiet hafter, hafter⟩

theorem Episode.disciplined (p : Episode) : p.Disciplined := by
  obtain ⟨hafter, hsteps⟩ := p.takes.speaker
  have hsounding (he : p.event = .tick) : p.after.speaker.playing = true ↔ 0 < p.before.cpu.sound := by
    rw [hafter, if_pos he, Speaker.playing_follow, UInt8.pos_iff_ne_zero, bne_iff_ne]
  rcases p.calls_spec with ⟨hc, heq⟩ | ⟨on, he, hne, hc, heq⟩
  · exact ⟨by simp [hc], fun h => absurd hc h, by simp [hc], by rw [hc, heq]; rfl, hsteps, hsounding⟩
  · exact ⟨by simp [hc], fun _ => he, by simpa [hc] using hne, by rw [hc, heq]; rfl, hsteps, hsounding⟩

/-! ## Whole runs -/

/-- All calls of a run take turns, the first with what the speaker did at the beginning, and they have
made the speaker what it is. -/
theorem Chronicle.calls (hh : Chronicle m h n) :
    n.speaker = (h.flatMap (·.calls)).foldl Speaker.switch m.speaker ∧
      (m.speaker.playing :: h.flatMap (·.calls)).IsChain (· ≠ ·) := by
  induction hh with
  | nil m => exact ⟨rfl, .singleton _⟩
  | cons p _ ih =>
    rw [List.flatMap_cons]
    rcases p.calls_spec with ⟨hc, heq⟩ | ⟨on, -, hne, hc, heq⟩
    · rw [hc, List.nil_append, ← heq]
      exact ih
    · rw [hc, List.singleton_append, List.foldl_cons, ← heq, List.isChain_cons_cons]
      obtain ⟨hn, hchain⟩ := ih
      rw [heq, Speaker.playing_switch] at hchain
      exact ⟨hn, hne, hchain⟩

/-- The speaker follows the sound timer, frame by frame. Only a frame calls it, once at most, for what it
does not do and before the first step, and leaves it sounding exactly if the sound timer was running when
the frame began. So the calls take turns and the starts are ahead of the stops by what the speaker has
changed. A frame that comes after a point where the sound timer shows `w`, with nothing in between that
sets it, leaves the tone sounding exactly if fewer than `w` frames lie in between. -/
theorem speaker_follows_timer (m : Machine) :
    (m.cpu.stack.depth ≤ CallStack.capacity → ∀ events, ∃ h n, Chronicle m h n ∧ h.map (·.event) = events ∧
        m.observeRun record [] events = .ok (n, h.flatMap (·.steps))) ∧
      ∀ h n, Chronicle m h n →
        (∀ p ∈ h, p.Disciplined) ∧
        n.speaker = (h.flatMap (·.calls)).foldl Speaker.switch m.speaker ∧
        (m.speaker.playing :: h.flatMap (·.calls)).IsChain (· ≠ ·) ∧
        (n.speaker.starts - m.speaker.starts : ℤ) - (n.speaker.stops - m.speaker.stops) =
          n.speaker.playing.toInt - m.speaker.playing.toInt ∧
        ∀ first ended between p rest, h = first ++ ended :: (between ++ p :: rest) → p.event = .tick →
          (∀ q ∈ between, ∀ e ∈ q.steps, ∀ x, e.2.instruction ≠ .setSound x) →
          (p.after.speaker.playing = true ↔ frames between < ended.after.cpu.sound.toNat) := by
  refine ⟨exists_chronicle, ?_⟩
  intro h n hh
  obtain ⟨hn, hchain⟩ := hh.calls
  refine ⟨fun p _ => p.disciplined, hn, hchain, ?_, ?_⟩
  · rw [hn]
    exact Speaker.balance_foldl_switch hchain
  · rintro first ended between p rest rfl hp hset
    obtain ⟨-, hended⟩ := hh.split
    obtain ⟨hbetween, -⟩ := hended.split
    have hsound := hbetween.unset .sound hset
    have hw : p.before.cpu.sound.toNat = ended.after.cpu.sound.toNat - frames between := hsound
    rw [p.disciplined.sounding hp, UInt8.lt_iff_toNat_lt, hw, UInt8.toNat_zero]
    omega

/-- The sound timer is at one after the first of three frames. -/
theorem speaker_follows_timer_one :
    let m : Machine := { create { budget := 1 } 0 (.fresh false) with
      cpu := { Cpu.initial with memory := .blank, sound := 2 } }
    m.cpu.stack.depth ≤ CallStack.capacity ∧ ∃ a b c n, Chronicle m ([] ++ a :: ([b] ++ c :: [])) n ∧
      b.event = .tick ∧ c.event = .tick ∧ (∀ q ∈ [b], ∀ e ∈ q.steps, ∀ x, e.2.instruction ≠ .setSound x) ∧
      b.after.speaker.playing = true ∧ c.after.speaker.playing ≠ true := by
  intro m
  let m₁ : Machine := { m.beginFrame with cpu := m.beginFrame.fetchedCpu }
  let m₂ : Machine := { m₁.beginFrame with cpu := m₁.beginFrame.fetchedCpu }
  let m₃ : Machine := { m₂.beginFrame with cpu := m₂.beginFrame.fetchedCpu }
  have h₁ : m.beginFrame.step = .ok ⟨m₁, .unknown 0, _, _⟩ := step_plain (by decide +kernel) rfl rfl rfl
  have h₂ : m₁.beginFrame.step = .ok ⟨m₂, .unknown 0, _, _⟩ := step_plain (by decide +kernel) rfl rfl rfl
  have h₃ : m₂.beginFrame.step = .ok ⟨m₃, .unknown 0, _, _⟩ := step_plain (by decide +kernel) rfl rfl rfl
  have hw : m₁.cpu.sound.toNat = 1 := by decide
  let a : Episode := ⟨.tick, m, _, m₁, .single (by decide) h₁⟩
  let b : Episode := ⟨.tick, m₁, _, m₂, .single (by decide) h₂⟩
  let c : Episode := ⟨.tick, m₂, _, m₃, .single (by decide) h₃⟩
  have hh : Chronicle m ([] ++ a :: ([b] ++ c :: [])) m₃ := .cons a (.cons b (.cons c (.nil _)))
  have hset : ∀ q ∈ [b], ∀ e ∈ q.steps, ∀ x, e.2.instruction ≠ .setSound x := by
    intro q hq e he x
    rw [List.mem_singleton.1 hq] at he
    rw [List.mem_singleton.1 he]
    simp
  obtain ⟨-, hrun⟩ := speaker_follows_timer m
  obtain ⟨-, -, -, -, htone⟩ := hrun _ m₃ hh
  have hb : b.after.speaker.playing = true ↔ 0 < m₁.cpu.sound.toNat := htone [] a [] b [c] rfl rfl (by simp)
  have hc : c.after.speaker.playing = true ↔ 1 < m₁.cpu.sound.toNat := htone [] a [b] c [] rfl rfl hset
  rw [hw] at hb hc
  exact ⟨by decide, a, b, c, m₃, hh, rfl, rfl, hset, hb.2 Nat.zero_lt_one, mt hc.1 (Nat.lt_irrefl 1)⟩

/-- A step between two frames can set the sound timer as well, and then a tone goes on. Here a frame ends with
the timer at one and the next frame sets nothing, but the one after that leaves the tone sounding still. -/
theorem step_prolongs_tone :
    let m := create { budget := 1 } 0 (.fresh false)
    let program : Reading := .complete [0x60, 0x01, 0xF0, 0x18, 0x00, 0x00, 0xF0, 0x18]
    ∃ first ended between last n, Chronicle m (first ++ ended :: (between ++ [last])) n ∧
      first.map (·.event) = [.load program, .tick] ∧ ended.event = .tick ∧ ended.after.cpu.sound = 1 ∧
      between.map (·.event) = [.tick, .step] ∧
      (∀ q ∈ between, q.event = .tick → ∀ e ∈ q.steps, ∀ x, e.2.instruction ≠ .setSound x) ∧
      last.event = .tick ∧ last.after.speaker.playing = true := by
  intro m program
  let m₁ := m.loaded program
  let c := m₁.beginFrame.fetchedCpu
  let m₂ : Machine := { m₁.beginFrame with cpu := { c with v := c.v.set 0 1 } }
  let m₃ : Machine := { m₂.beginFrame with cpu := { m₂.beginFrame.fetchedCpu with sound := 1 } }
  let m₄ : Machine := { m₃.beginFrame with cpu := m₃.beginFrame.fetchedCpu }
  let m₅ : Machine := { m₄ with cpu := { m₄.fetchedCpu with sound := 1 } }
  have h₁ : m₁.beginFrame.step = .ok ⟨m₂, .load 0 1, _, _⟩ := step_plain (by decide +kernel) rfl rfl rfl
  have h₂ : m₂.beginFrame.step = .ok ⟨m₃, .setSound 0, _, _⟩ := step_plain (by decide +kernel) rfl rfl rfl
  have h₃ : m₃.beginFrame.step = .ok ⟨m₄, .unknown 0, _, _⟩ := step_plain (by decide +kernel) rfl rfl rfl
  have h₄ : m₄.step = .ok ⟨m₅, .setSound 0, _, _⟩ := step_plain (by decide +kernel) rfl rfl rfl
  obtain ⟨s, hs⟩ := step_ok (m := m₅.beginFrame) (by decide)
  let p₁ : Episode := ⟨.load program, m, [], m₁, .outside (f := (·.loaded program)) rfl⟩
  let p₂ : Episode := ⟨.tick, m₁, _, m₂, .single (by decide) h₁⟩
  let p₃ : Episode := ⟨.tick, m₂, _, m₃, .single (by decide) h₂⟩
  let p₄ : Episode := ⟨.tick, m₃, _, m₄, .single (by decide) h₃⟩
  let p₅ : Episode := ⟨.step, m₄, _, m₅, .step h₄⟩
  let p₆ : Episode := ⟨.tick, m₅, _, s.machine, .single (by decide) hs⟩
  have hh : Chronicle m ([p₁, p₂] ++ p₃ :: ([p₄, p₅] ++ [p₆])) s.machine :=
    .cons p₁ (.cons p₂ (.cons p₃ (.cons p₄ (.cons p₅ (.cons p₆ (.nil _))))))
  refine ⟨[p₁, p₂], p₃, [p₄, p₅], p₆, s.machine, hh, rfl, rfl, rfl, rfl, ?_, rfl, ?_⟩
  · intro q hq hqe e he x
    rcases List.mem_pair.1 hq with rfl | rfl
    · rw [List.mem_singleton.1 he]
      simp
    · cases hqe
  · have hsound : (0 : UInt8) < 1 := by decide
    exact (p₆.disciplined.sounding rfl).2 hsound

end Machine
end PacedChip8
