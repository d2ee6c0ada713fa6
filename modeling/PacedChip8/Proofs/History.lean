/-
Histories: lists of events, the oldest first. What counts is often only the last event that tells something
about a matter, and `last?` is what that event tells.
-/
import Mathlib.Tactic

namespace PacedChip8.History

variable {α β : Type} {tells tells' : α → Option β} {history past future : List α} {e f : α} {b : β}

/-- An event of a longer history is the new one, or one of the shorter history with the new one at the end of its
future. -/
theorem concat_eq_split_iff : history ++ [e] = past ++ f :: future ↔
    (future = [] ∧ history = past ∧ e = f) ∨ ∃ rest, future = rest ++ [e] ∧ history = past ++ f :: rest := by
  rcases List.eq_nil_or_concat' future with rfl | ⟨rest, l, rfl⟩
  · simp
  · rw [← List.cons_append, ← List.append_assoc, List.append_singleton_inj]
    constructor
    · rintro ⟨rfl, rfl⟩
      exact .inr ⟨rest, rfl, rfl⟩
    · rintro (⟨hnil, -⟩ | ⟨rest', hfuture, rfl⟩)
      · simp at hnil
      · obtain ⟨rfl, rfl⟩ := List.append_singleton_inj.1 hfuture
        exact ⟨rfl, rfl⟩

/-- What the last event tells, of those that tell anything. -/
def last? (tells : α → Option β) (history : List α) : Option β := history.reverse.findSome? tells

theorem last?_concat (history : List α) (e : α) :
    last? tells (history ++ [e]) = (tells e).or (last? tells history) := by
  unfold last?
  rw [List.reverse_append, List.reverse_singleton, List.singleton_append, List.findSome?_cons]
  cases tells e <;> rfl

theorem last?_congr (h : ∀ e ∈ history, tells e = tells' e) : last? tells history = last? tells' history := by
  induction history using List.reverseRecOn with
  | nil => rfl
  | append_singleton past e ih =>
    rw [last?_concat, last?_concat, h e List.mem_concat_self, ih fun e he => h e (List.mem_append_left _ he)]

theorem last?_eq_some_iff : last? tells history = some b ↔
    ∃ past e future, history = past ++ e :: future ∧ tells e = some b ∧ ∀ f ∈ future, tells f = none := by
  rw [last?, List.findSome?_eq_some_iff]
  constructor
  · rintro ⟨future, e, past, hsplit, he, hfuture⟩
    refine ⟨past.reverse, e, future.reverse, ?_, he, fun f hf => hfuture f (List.mem_reverse.1 hf)⟩
    rw [← List.reverse_inj, hsplit]
    simp
  · rintro ⟨past, e, future, rfl, he, hfuture⟩
    exact ⟨future.reverse, e, past.reverse, by simp, he, fun f hf => hfuture f (List.mem_reverse.1 hf)⟩

end PacedChip8.History
