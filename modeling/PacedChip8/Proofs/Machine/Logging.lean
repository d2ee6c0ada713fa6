/-
What a machine reports as it runs. The first entry of a step is about the word that it fetches, with the registers
as they are before the instruction is carried out; a second one follows only where a return finds no address or a
call finds no room (`reports_of_step`). So the entries about fetched words number the steps of a frame, in their
order. The line about an instruction determines what it was made from, and two steps report the same one exactly
if they found the same.
-/
import PacedChip8.Proofs.Log
import PacedChip8.Proofs.Machine.Trace
import PacedChip8.Proofs.Memory

namespace PacedChip8.Machine

open Log (Entry)

/-- Notes what every step reports. -/
def logged : Observer (List Entry) := fun seen _ s => seen ++ s.log

/-- The texts of the entries that are of the finest detail. -/
def Stepped.traceTexts (s : Stepped) : List String := (s.log.filter (·.level = .trace)).map Entry.text

variable {m n : Machine} {s r : Stepped} {t : Trace} {first : Entry} {rest : List Entry} {text : String} {c : Cpu}

/-! ## One step -/

/-- The step of `m` reports `first` and then `rest`: what the word is that it fetches, and a return or a call that
the stack does not allow. -/
structure Reports (m : Machine) (first : Entry) (rest : List Entry) : Prop where
  fetch : first.ofFetch = true
  unknown : (∃ w, m.instruction = .unknown w) → first.line =
    (.debug, Numeral.address m.cpu.pc ++ ": unknown opcode " ++ Numeral.hexUpper 4 m.fetchedWord.toNat)
  known : (¬∃ w, m.instruction = .unknown w) → first.line =
    (.trace, Numeral.address m.cpu.pc ++ ": " ++ Numeral.hexUpper 4 m.fetchedWord.toNat ++ " " ++
      m.instruction.text ++ " v" ++ Entry.registersText m.cpu.v ++ " i" ++ Numeral.hexUpper 4 m.cpu.index.toNat)
  others : ∀ e ∈ rest, e.ofFetch = false
  atMostOne : rest.length ≤ 1
  emptyReturn : rest.map Entry.line = [(.debug, "return with an empty stack at " ++ Numeral.address (m.cpu.pc + 2))] ↔
    m.instruction = .ret ∧ m.cpu.stack.depth = 0
  fullCall : ∀ a, rest.map Entry.line = [(.debug, "call to " ++ Numeral.address a ++ " with a full stack")] ↔
    m.instruction = .call a ∧ m.cpu.stack.depth = CallStack.capacity
  quiet : rest = [] ↔ ¬(m.instruction = .ret ∧ m.cpu.stack.depth = 0) ∧
    ¬∃ a, m.instruction = .call a ∧ m.cpu.stack.depth = CallStack.capacity

theorem fetchEntry_unknown (h : ∃ w, m.instruction = .unknown w) :
    m.fetchEntry = .unknownWord m.cpu.pc m.fetchedWord := by
  obtain ⟨w, hw⟩ := h
  rw [fetchEntry, hw]

theorem fetchEntry_known (h : ¬∃ w, m.instruction = .unknown w) :
    m.fetchEntry = .executing m.cpu.pc m.fetchedWord m.instruction m.cpu.v m.cpu.index := by
  unfold fetchEntry
  split
  · rename_i w hw
    exact absurd ⟨w, hw⟩ h
  · rfl

theorem ofFetch_fetchEntry (m : Machine) : m.fetchEntry.ofFetch = true := by
  by_cases h : ∃ w, m.instruction = .unknown w
  · rw [fetchEntry_unknown h]; rfl
  · rw [fetchEntry_known h]; rfl

theorem step_log (h : m.step = .ok s) : s.log = m.fetchEntry :: stackEntry m.instruction m.fetchedCpu := by
  obtain ⟨_, _, _, rfl⟩ := step_eq_ok.1 h
  rfl

/-- The stack reports a return where it is empty, a call where it is full, and nothing else. -/
theorem stackEntry_cases (i : Instruction) (hd : c.stack.depth ≤ 16) :
    (i = .ret ∧ c.stack.depth = 0 ∧ stackEntry i c = [.emptyReturn c.pc]) ∨
    (∃ a, i = .call a ∧ c.stack.depth = 16 ∧ stackEntry i c = [.fullCall a]) ∨
    (¬(i = .ret ∧ c.stack.depth = 0) ∧ (¬∃ a, i = .call a ∧ c.stack.depth = 16) ∧ stackEntry i c = []) := by
  cases i
  case ret =>
    by_cases h0 : c.stack.depth = 0
    · exact .inl ⟨rfl, h0, if_pos h0⟩
    · exact .inr (.inr ⟨fun h => h0 h.2, fun ⟨_, h, _⟩ => (nomatch h), if_neg h0⟩)
  case call a =>
    by_cases hfull : c.stack.depth = 16
    · exact .inr (.inl ⟨a, rfl, hfull, if_pos (Nat.le_of_eq hfull.symm)⟩)
    · have hroom : ¬CallStack.capacity ≤ c.stack.depth := by unfold CallStack.capacity; omega
      exact .inr (.inr ⟨fun h => (nomatch h.1), fun ⟨_, _, h⟩ => hfull h, if_neg hroom⟩)
  -- nothing else looks at the stack
  all_goals exact .inr (.inr ⟨fun h => (nomatch h.1), fun ⟨_, h, _⟩ => (nomatch h), rfl⟩)

theorem stackEntry_debug {i : Instruction} {e : Entry} (he : e ∈ stackEntry i c) :
    e.ofFetch = false ∧ e.level = .debug := by
  cases i
  case ret | call =>
    simp only [stackEntry] at he
    split at he
    · rw [List.mem_singleton.1 he]
      exact ⟨rfl, rfl⟩
    · cases he
  all_goals cases he

theorem reports_of_depth (hd : m.cpu.stack.depth ≤ 16) :
    Reports m m.fetchEntry (stackEntry m.instruction m.fetchedCpu) where
  fetch := ofFetch_fetchEntry m
  unknown h := by rw [fetchEntry_unknown h]; rfl
  known h := by rw [fetchEntry_known h]; rfl
  others _ he := (stackEntry_debug he).1
  atMostOne := by
    rcases stackEntry_cases m.instruction (c := m.fetchedCpu) hd with ⟨-, -, h⟩ | ⟨_, -, -, h⟩ | ⟨-, -, h⟩ <;>
      simp [h]
  emptyReturn := by
    rw [← Entry.line_emptyReturn]
    rcases stackEntry_cases m.instruction (c := m.fetchedCpu) hd with ⟨hi, h0, h⟩ | ⟨a, hi, hfull, h⟩ | ⟨hret, -, h⟩
    · rw [h]
      exact iff_of_true rfl ⟨hi, h0⟩
    · rw [h]
      refine iff_of_false (fun hline => ?_) (fun hret => ?_)
      · exact Entry.line_emptyReturn_ne _ _ (List.singleton_inj.1 hline).symm
      · rw [hi] at hret; cases hret.1
    · rw [h]
      exact iff_of_false (fun hline => nomatch hline) hret
  fullCall a := by
    rw [← Entry.line_fullCall]
    rcases stackEntry_cases m.instruction (c := m.fetchedCpu) hd with ⟨hi, h0, h⟩ | ⟨b, hi, hfull, h⟩ | ⟨-, hcall, h⟩
    · rw [h]
      refine iff_of_false (fun hline => ?_) (fun hcall => ?_)
      · exact Entry.line_emptyReturn_ne _ _ (List.singleton_inj.1 hline)
      · rw [hi] at hcall; cases hcall.1
    · rw [h, List.map_singleton, List.singleton_inj, Entry.line_fullCall_inj, hi, Instruction.call.injEq]
      exact (and_iff_left hfull).symm
    · rw [h]
      exact iff_of_false (fun hline => nomatch hline) fun hcall' => hcall ⟨a, hcall'⟩
  quiet := by
    rcases stackEntry_cases m.instruction (c := m.fetchedCpu) hd with ⟨hi, h0, h⟩ | ⟨b, hi, hfull, h⟩ | ⟨hret, hcall, h⟩
    · rw [h]
      exact iff_of_false (fun hnil => nomatch hnil) fun hnot => hnot.1 ⟨hi, h0⟩
    · rw [h]
      exact iff_of_false (fun hnil => nomatch hnil) fun hnot => hnot.2 ⟨b, hi, hfull⟩
    · rw [h]
      exact iff_of_true rfl ⟨hret, hcall⟩

/-- The entries of a step, the one about the fetched word in front. -/
def Logs (m : Machine) (s : Stepped) (first : Entry) : Prop := ∃ rest, s.log = first :: rest ∧ Reports m first rest

theorem logs_of_step (hd : m.cpu.stack.depth ≤ 16) (h : m.step = .ok s) : Logs m s m.fetchEntry :=
  ⟨_, step_log h, reports_of_depth hd⟩

theorem Logs.filter_ofFetch (h : Logs m s first) : s.log.filter Entry.ofFetch = [first] := by
  obtain ⟨rest, hlog, hreports⟩ := h
  have hothers : rest.filter Entry.ofFetch = [] := by
    rw [List.filter_eq_nil_iff]
    intro e he
    rw [hreports.others e he]
    exact Bool.false_ne_true
  rw [hlog, List.filter_cons_of_pos hreports.fetch, hothers]

/-! ## Frames -/

theorem foldl_logged (t : Trace) (seen : List Entry) :
    t.foldl (fun seen e => logged seen e.1 e.2) seen = seen ++ t.flatMap (·.2.log) := by
  induction t generalizing seen with
  | nil => rw [List.foldl_nil, List.flatMap_nil, List.append_nil]
  | cons e t ih => rw [List.foldl_cons, ih, logged, List.append_assoc, List.flatMap_cons]

/-- The steps of a trace and the entries about the words that they have fetched go together. -/
theorem Steps.logs (h : Steps m t n) (hd : m.cpu.stack.depth ≤ 16) :
    List.Forall₂ (fun e first => Logs e.1 e.2 first) t ((t.flatMap (·.2.log)).filter Entry.ofFetch) := by
  induction h with
  | nil => exact .nil
  | cons hs _ ih =>
    have hlogs := logs_of_step hd hs
    rw [List.flatMap_cons, List.filter_append, hlogs.filter_ofFetch]
    exact .cons hlogs (ih (step_depth_le hs hd))

/-! ## Texts -/

/-- The finest texts of a step are the single one about the fetched word, and none if the word is unknown. -/
theorem mem_traceTexts (h : m.step = .ok s) : text ∈ s.traceTexts ↔
    (¬∃ w, m.instruction = .unknown w) ∧
      (Entry.executing m.cpu.pc m.fetchedWord (.decode m.fetchedWord) m.cpu.v m.cpu.index).text = text := by
  have hstack : (stackEntry m.instruction m.fetchedCpu).filter (·.level = .trace) = [] := by
    rw [List.filter_eq_nil_iff]
    intro e he
    rw [(stackEntry_debug he).2]
    exact Bool.false_ne_true
  rw [Stepped.traceTexts, step_log h]
  by_cases hu : ∃ w, m.instruction = .unknown w
  · rw [fetchEntry_unknown hu, List.filter_cons_of_neg Bool.false_ne_true, hstack]
    exact iff_of_false (fun hmem => nomatch hmem) fun hknown => hknown.1 hu
  · rw [fetchEntry_known hu, List.filter_cons_of_pos rfl, hstack, List.map_singleton, List.mem_singleton, eq_comm]
    exact (and_iff_right hu).symm

/-- A step reports a text of the finest detail that another one has reported exactly if it has found the same word
at the same place, and the same in all registers. -/
theorem mem_traceTexts_iff (h : m.step = .ok s) (h' : n.step = .ok r) (hmem : text ∈ s.traceTexts) :
    text ∈ r.traceTexts ↔ m.cpu.pc = n.cpu.pc ∧ m.fetchedWord = n.fetchedWord ∧ m.cpu.v = n.cpu.v ∧
      m.cpu.index = n.cpu.index := by
  obtain ⟨hknown, rfl⟩ := (mem_traceTexts h).1 hmem
  rw [mem_traceTexts h', eq_comm, Entry.text_executing_inj]
  refine and_iff_right_of_imp fun ⟨_, hword, _⟩ => ?_
  rwa [instruction, ← hword]

/-! ## Steps, frames and texts together -/

/-- A machine reports what it executes. Each step reports the word that it fetches and the registers as it finds
them, and after that only a return that has no address or a call that has no room. What a frame reports is what its
steps report, so the entries about fetched words are as many as the steps and in their order. Steps that report
instructions in the same text have found the same word at the same place with the same registers. -/
theorem execution_logged (hd : m.cpu.stack.depth ≤ CallStack.capacity) :
    (∃ s first, m.step = .ok s ∧ Logs m s first) ∧
      (∃ n t log, m.observeTick record [] = .ok (n, t) ∧ m.observeTick logged [] = .ok (n, log) ∧
        Steps m.beginFrame t n ∧ log = t.flatMap (·.2.log) ∧
        List.Forall₂ (fun e first => Logs e.1 e.2 first) t (log.filter Entry.ofFetch)) ∧
      ∀ (n : Machine) (s r : Stepped) (text : String), m.step = .ok s → n.step = .ok r → text ∈ s.traceTexts →
        (text ∈ r.traceTexts ↔ m.cpu.pc = n.cpu.pc ∧ m.fetchedWord = n.fetchedWord ∧ m.cpu.v = n.cpu.v ∧
          m.cpu.index = n.cpu.index) := by
  refine ⟨?_, ?_, fun n s r text => mem_traceTexts_iff⟩
  · obtain ⟨s, hs⟩ := step_ok hd
    exact ⟨s, _, hs, logs_of_step hd hs⟩
  · obtain ⟨t, n, ht, hrun⟩ := observeTick_spec hd
    refine ⟨n, t, t.flatMap (·.2.log), ?_, ?_, ht.steps, rfl, ht.steps.logs hd⟩
    · rw [hrun, foldl_record, List.nil_append]
    · rw [hrun, foldl_logged, List.nil_append]

/-- A call with no room left, in the last word below the top of the addresses. -/
theorem execution_logged_full_call :
    let m : Machine := { create {} 0 (.fresh false) with
      cpu := { Cpu.initial with
        pc := 0xFFFE
        stack := ⟨16, Vector.replicate 16 0x300⟩
        memory := (Memory.blank.set 0xFFFE 0x2A).set 0xFFFF 0xBC } }
    m.cpu.stack.depth ≤ CallStack.capacity ∧ ∃ s first rest, m.step = .ok s ∧ s.log = first :: rest ∧
      first.level = .trace ∧ rest.map Entry.line = [(.debug, "call to 0xABC with a full stack")] := by
  intro m
  have hd : m.cpu.stack.depth ≤ CallStack.capacity := by decide
  have hi : m.instruction = .call 0xABC := by
    have hw : m.fetchedWord = 0x2ABC := Memory.word_set_set .blank 0xFFFE 0x2A 0xBC
    rw [Machine.instruction, hw]
    decide
  obtain ⟨⟨s, first, hs, rest, hlog, hreports⟩, -⟩ := execution_logged hd
  refine ⟨hd, s, first, rest, hs, hlog, ?_, ?_⟩
  · exact congrArg Prod.fst (hreports.known (by rw [hi]; rintro ⟨_, h⟩; cases h))
  · exact (hreports.fullCall 0xABC).2 ⟨hi, rfl⟩

end PacedChip8.Machine
