/-
How the program ends. Whether there is a program to run is settled before anything else is looked at but its path
(`execute_without`). If there is one, and no window is wanted, the output is the screen after the frames that were
asked for (`execute_with`), whatever the windowing library would have said. What the arguments ask for does not
depend on their order or spelling, and what a run shows does not depend on what the machine was started with, unless
it draws from that.
-/
import PacedChip8.CommandLine.Run
import PacedChip8.Proofs.CommandLine.Options
import PacedChip8.Proofs.Machine.Entropy
import PacedChip8.Proofs.Machine.Loading
import PacedChip8.Proofs.Screen.Pictures

namespace PacedChip8.CommandLine

/-- What the path leads to could be read to its end, and it fits into the memory. -/
def Opening.Gives (opening : Opening) (program : List UInt8) : Prop :=
  opening = .opened (.complete program) ∧ program.length ≤ 3584

/-- A fresh machine with the budget and the seed that were asked for, and with the program in it. -/
def Options.started (o : Options) (program : List UInt8) (entropy : UInt64) : Machine :=
  (o.machine entropy).loaded (.complete program)

variable {args args' : List String} {o : Options} {directory : Directory} {opening : Opening} {program : List UInt8}
  {windows : Windowing} {entropy entropy' : UInt64} {final : Machine} {items items' : List Item} {refusal : Refusal}

/-! ## Without a program -/

theorem Opening.without (h : ∀ program, ¬opening.Gives program) : (∃ e, opening = .refused e) ∨
    ∃ reading, opening = .opened reading ∧ ∃ e : LoadError, ∀ m : Machine, (m.load reading).1 = .error e := by
  rcases opening with e | reading
  · exact .inl ⟨e, rfl⟩
  · refine .inr ⟨reading, rfl, ?_⟩
    rcases reading with bytes | ⟨bytes, cause⟩
    · have hlong : Memory.programCapacity < bytes.length := Nat.lt_of_not_le fun hle => h bytes ⟨rfl, hle⟩
      exact ⟨_, fun m => congrArg Prod.fst (Machine.load_tooLong m hlong)⟩
    · exact ⟨.unreadable cause, fun _ => rfl⟩

/-- The end is the same for all options with this path. -/
theorem execute_without (h : ∀ program, ¬opening.Gives program) (rom : String) :
    ∃ stderr, ∀ (o : Options) (windows : Windowing) (entropy : UInt64), o.rom = rom →
      o.execute opening windows entropy = ⟨1, "", stderr⟩ := by
  rcases Opening.without h with ⟨e, rfl⟩ | ⟨reading, rfl, e, he⟩
  · refine ⟨(Exit.failure ("unable to open " ++ rom) [e.message]).stderr, ?_⟩
    rintro o windows entropy rfl
    rfl
  · refine ⟨(Exit.failure ("unable to load " ++ rom) e.messages).stderr, ?_⟩
    rintro o windows entropy rfl
    rw [Options.execute, he]
    rfl

/-! ## With a program -/

theorem loaded_of_le (m : Machine) (hlen : program.length ≤ 3584) :
    (m.load (.complete program)).1 = .ok (m.loaded (.complete program)) := by
  rw [Machine.loaded, Machine.load_fits m hlen]

theorem exists_headless_started (o : Options) (program : List UInt8) (entropy : UInt64) :
    ∃ final, (o.started program entropy).headless o.frames = .ok final := by
  have hdepth : (o.started program entropy).cpu.stack.depth ≤ 16 := by
    obtain ⟨f, hf⟩ := Machine.loaded_spec (.complete program)
    rw [Options.started, hf]
    exact Nat.zero_le _
  obtain ⟨final, hfinal, -⟩ := Machine.exists_headless hdepth o.frames
  exact ⟨final, hfinal⟩

theorem execute_with (h : opening.Gives program) (ho : o.headless = true)
    (hfinal : (o.started program entropy).headless o.frames = .ok final) :
    o.execute opening windows entropy = ⟨0, final.screen.text, ""⟩ := by
  obtain ⟨rfl, hlen⟩ := h
  rw [Options.execute, loaded_of_le _ hlen]
  show o.present windows (o.started program entropy) = _
  rw [Options.present, if_pos ho, hfinal]
  rfl

/-- The scale is for windows only. -/
theorem execute_scale (ho : o.headless = true) (scale : Nat) :
    { o with scale := scale }.execute opening windows entropy = o.execute opening windows entropy := by
  have hpresent (m : Machine) : { o with scale := scale }.present windows m = o.present windows m := by
    rw [Options.present, Options.present, if_pos ho, if_pos ho]
  unfold Options.execute
  simp only [hpresent]
  rfl

/-- The screen of a machine that has not run is dark. -/
theorem screen_started (o : Options) (program : List UInt8) (entropy : UInt64) :
    (o.started program entropy).screen = .blank := by
  obtain ⟨f, hf⟩ := Machine.loaded_spec (.complete program)
  rw [Options.started, hf]
  rfl

theorem started_withRandom (o : Options) (program : List UInt8) (entropy entropy' : UInt64) :
    o.started program entropy' =
      (o.started program entropy).withRandom (.ofSeed (o.config.seed.getD entropy')) := by
  obtain ⟨f, hf⟩ := Machine.loaded_spec (.complete program)
  rw [Options.started, Options.started, hf, hf]
  rfl

/-- The start matters only if there is no seed and something is drawn. -/
theorem headless_started (hfinal : (o.started program entropy).headless o.frames = .ok final)
    (hquiet : o.config.seed = none → ¬(o.started program entropy).Draws o.frames) (entropy' : UInt64) :
    ∃ random, (o.started program entropy').headless o.frames = .ok (final.withRandom random) := by
  rcases hseed : o.config.seed with _ | seed
  · exact ⟨_, started_withRandom .. ▸ Machine.headless_withRandom hfinal (hquiet hseed) _⟩
  · refine ⟨final.random, ?_⟩
    have hsame : o.started program entropy' = o.started program entropy := by
      rw [Options.started, Options.started, Options.machine, Options.machine, Machine.create, Machine.create, hseed]
      rfl
    rw [hsame, hfinal]
    rfl

/-! ## All together -/

theorem run_of_ok (h : Options.ofArguments args = .ok o) :
    run args directory windows entropy = o.execute (directory.openPath o.rom) windows entropy := by
  rw [run, h]

/-- The end of the program for arguments that ask for `o`. -/
structure Concludes (args : List String) (o : Options) (directory : Directory) : Prop where
  /-- Arguments that have nothing but the path in common end in the same way. -/
  without : (∀ program, ¬(directory.openPath o.rom).Gives program) → ∃ stderr, ∀ args' o' windows entropy,
    Options.ofArguments args' = .ok o' → o'.rom = o.rom → run args' directory windows entropy = ⟨1, "", stderr⟩
  shown : ∀ program, (directory.openPath o.rom).Gives program → o.headless = true → ∀ windows entropy,
    ((o.machine entropy).load (.complete program)).1 = .ok (o.started program entropy) ∧
      ∃ final, (o.started program entropy).headless o.frames = .ok final ∧ final.screen.text.length = 2080 ∧
        run args directory windows entropy = ⟨0, final.screen.text, ""⟩
  unscaled : o.headless = true → ∀ args' o' windows entropy, Options.ofArguments args' = .ok o' →
    o' = { o with scale := o'.scale } → run args' directory windows entropy = run args directory windows entropy
  reproducible : ∀ program windows entropy, (directory.openPath o.rom).Gives program → o.headless = true →
    (o.config.seed = none → ¬(o.started program entropy).Draws o.frames) →
    ∀ entropy', run args directory windows entropy' = run args directory windows entropy
  spelled : "--" ∉ args → ∃ items, Spells items args ∧ Asks items o

theorem concludes_of_ok (h : Options.ofArguments args = .ok o) (directory : Directory) :
    Concludes args o directory where
  without hnone := by
    obtain ⟨stderr, hend⟩ := execute_without hnone o.rom
    refine ⟨stderr, fun args' o' windows entropy h' hrom => ?_⟩
    rw [run_of_ok h', hrom, hend o' windows entropy hrom]
  shown program hgives ho windows entropy := by
    obtain ⟨final, hfinal⟩ := exists_headless_started o program entropy
    refine ⟨loaded_of_le _ hgives.2, final, hfinal, final.screen.length_text, ?_⟩
    rw [run_of_ok h, execute_with hgives ho hfinal]
  unscaled ho args' o' windows entropy h' ho' := by
    rw [run_of_ok h', run_of_ok h, ho', execute_scale ho]
  reproducible program windows entropy hgives ho hquiet entropy' := by
    obtain ⟨final, hfinal⟩ := exists_headless_started o program entropy
    obtain ⟨random, hfinal'⟩ := headless_started hfinal hquiet entropy'
    rw [run_of_ok h, run_of_ok h, execute_with hgives ho hfinal, execute_with hgives ho hfinal']
    rfl
  spelled hend := by
    obtain ⟨g, hg, -⟩ := bind_eq_ok.1 h
    obtain ⟨items, hitems⟩ := Given.exists_spelled hg hend
    exact ⟨items, hitems, (ofArguments_eq_ok_iff hitems).1 h⟩

end PacedChip8.CommandLine
