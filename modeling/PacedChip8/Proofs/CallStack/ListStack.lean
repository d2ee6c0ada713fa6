/-
The stack of return addresses is a list. What counts are the live addresses, the last of them on top: a push
appends to them while there are fewer than sixteen, and a pop takes the last one (`serve_holds`). So a run of
requests is answered as such a list would answer it, from any stack that is not deeper than its slots. The
invariant of the run is `Holds`. What a slot above the depth still holds is never seen, since a push writes the
slot before it is live again.
-/
import PacedChip8.Proofs.Instruction.Faults

namespace PacedChip8

/-! ## Requests -/

namespace CallStack

/-- What can be asked of a stack. -/
inductive Request where
  | push (a : UInt16)
  | pop
  deriving DecidableEq

/-- What a stack answers. -/
inductive Answer where
  /-- Whether there was room. -/
  | pushed (accepted : Bool)
  /-- The address that was on top, if there was one. -/
  | popped (a : Option UInt16)
  deriving DecidableEq

/-- The live addresses, the last one on top. -/
def live (s : CallStack) : List UInt16 := s.slots.toList.take s.depth

/-- A list as a stack that has room for sixteen addresses. -/
def serveList (l : List UInt16) : Request → Answer × List UInt16
  | .push a => if l.length < 16 then (.pushed true, l ++ [a]) else (.pushed false, l)
  | .pop => (.popped l.getLast?, l.dropLast)

/-- Serves requests in order and collects the answers. -/
def serveAll {σ α : Type} (serve : σ → Request → α × σ) (s : σ) : List Request → List α × σ
  | [] => ([], s)
  | r :: rest => ((serve s r).1 :: (serveAll serve (serve s r).2 rest).1, (serveAll serve (serve s r).2 rest).2)

end CallStack

open CallStack (Request Answer serveAll serveList)

/-- A request to the stack of a processor. -/
def Cpu.serve (c : Cpu) : Request → Except Fault Answer × Cpu
  | .push a =>
    match c.stack.push? a with
    | none => (.ok (.pushed false), c)
    | some stack => (.ok (.pushed true), { c with stack := stack })
  | .pop => (c.stack.pop.1.map .popped, { c with stack := c.stack.pop.2 })

/-! ## The live addresses -/

namespace CallStack

variable {s t : CallStack} {a : UInt16} {d : Nat}

theorem length_live (h : s.depth ≤ 16) : s.live.length = s.depth := by
  simp [live, h]

theorem live_of_empty (h : s.depth = 0) : s.live = [] := by
  rw [live, h, List.take_zero]

theorem live_of_lt (h : s.depth = d + 1) (hd : d < 16) : s.live = { s with depth := d }.live ++ [s.slots[d]] := by
  have hlen : d < s.slots.toList.length := by simpa using hd
  simp only [live, h]
  rw [List.take_succ_eq_append_getElem hlen, Vector.getElem_toList]

/-- A push writes above the live addresses. -/
theorem live_set (hd : d < 16) (s : CallStack) (a : UInt16) :
    (⟨d, s.slots.set d a⟩ : CallStack).live = { s with depth := d }.live := by
  simp only [live]
  rw [Vector.toList_set, List.take_set_of_le (Nat.le_refl d)]

theorem live_push? (h : s.push? a = some t) : t.live = s.live ++ [a] := by
  obtain ⟨hd, rfl⟩ := push?_eq_some.1 h
  rw [live_of_lt rfl hd, live_set hd, Vector.getElem_set_self]

end CallStack

/-! ## One request -/

namespace Cpu

variable {c d : Cpu} {l m : List UInt16} {keys : Keys} {random : Random.Source}

/-- The stack of `d` is the list `l`, and in all else `d` is as `c` was. -/
structure Holds (c : Cpu) (l : List UInt16) (d : Cpu) : Prop where
  room : d.stack.depth ≤ 16
  live : d.stack.live = l
  rest : d = { c with stack := d.stack }

theorem Holds.depth (h : Holds c l d) : d.stack.depth = l.length := by
  rw [← h.live, CallStack.length_live h.room]

theorem Holds.with_stack (h : Holds c l d) {stack : CallStack} (hroom : stack.depth ≤ 16) (hlive : stack.live = m) :
    Holds c m { d with stack := stack } := by
  refine ⟨hroom, hlive, ?_⟩
  rw [h.rest]

theorem serve_push_holds (h : Holds c l d) (a : UInt16) :
    (d.serve (.push a)).1 = .ok (serveList l (.push a)).1 ∧
      Holds c (serveList l (.push a)).2 (d.serve (.push a)).2 := by
  have hdepth := h.depth
  rcases hp : d.stack.push? a with _ | stack
  · have hfull := (CallStack.push?_eq_none_iff _ _).1 hp
    have hlist : serveList l (.push a) = (.pushed false, l) := if_neg (by omega)
    rw [hlist, serve, hp]
    exact ⟨rfl, h⟩
  · have hlive := CallStack.live_push? hp
    rw [h.live] at hlive
    obtain ⟨hlt, rfl⟩ := CallStack.push?_eq_some.1 hp
    have hlist : serveList l (.push a) = (.pushed true, l ++ [a]) := if_pos (by omega)
    rw [hlist, serve, hp]
    exact ⟨rfl, h.with_stack hlt hlive⟩

theorem serve_pop_holds (h : Holds c l d) :
    (d.serve .pop).1 = .ok (serveList l .pop).1 ∧ Holds c (serveList l .pop).2 (d.serve .pop).2 := by
  have hroom := h.room
  rcases hd : d.stack.depth with _ | k
  · have hl : l = [] := h.live.symm.trans (CallStack.live_of_empty hd)
    subst hl
    rw [serve, CallStack.pop_of_empty hd]
    exact ⟨rfl, h⟩
  · have hl : l = { d.stack with depth := k }.live ++ [d.stack.slots[k]] := by
      rw [← h.live]
      exact CallStack.live_of_lt hd (by omega)
    rw [serve, CallStack.pop_of_lt hd (by omega)]
    simp only [serveList, hl, List.getLast?_concat, List.dropLast_concat]
    exact ⟨rfl, h.with_stack (by simp only; omega) rfl⟩

theorem serve_holds (h : Holds c l d) (r : Request) :
    (d.serve r).1 = .ok (serveList l r).1 ∧ Holds c (serveList l r).2 (d.serve r).2 := by
  cases r with
  | push a => exact serve_push_holds h a
  | pop => exact serve_pop_holds h

/-- A request that is refused leaves the whole processor as it was. -/
theorem serve_refused {r : Request} (h : (d.serve r).1 = .ok (.pushed false) ∨ (d.serve r).1 = .ok (.popped none)) :
    (d.serve r).2 = d := by
  cases r with
  | push a =>
    rcases hp : d.stack.push? a with _ | stack
    · simp only [serve, hp]
    · simp [serve, hp] at h
  | pop =>
    rcases hd : d.stack.depth with _ | k
    · rw [serve, CallStack.pop_of_empty hd]
    · by_cases hk : k < 16
      · simp [serve, CallStack.pop_of_lt hd hk, Except.map] at h
      · simp [serve, CallStack.pop_of_le hd (Nat.not_lt.1 hk), Except.map] at h

/-- A call is a push of the address behind it followed by a jump, and does nothing on a full stack. -/
theorem transition_call_serve (h : Holds c l d) (a : UInt16) :
    (Instruction.call a).transition d keys random =
      .ok (if l.length < 16 then { (d.serve (.push d.pc)).2 with pc := a } else d, true) := by
  have hdepth := h.depth
  split
  · rename_i hlt
    simp only [Instruction.transition, serve, CallStack.push?_of_lt (show d.stack.depth < 16 by omega)]
  · exact Instruction.transition_call_full (by omega)

theorem transition_ret_serve (h : Holds c l d) :
    Instruction.ret.transition d keys random =
      .ok (l.getLast?.elim d fun a => { (d.serve .pop).2 with pc := a }, true) := by
  have hroom := h.room
  rw [← h.live]
  rcases hd : d.stack.depth with _ | k
  · rw [CallStack.live_of_empty hd, Instruction.transition, CallStack.pop_of_empty hd]
    rfl
  · have hk : k < 16 := by omega
    rw [CallStack.live_of_lt hd hk, List.getLast?_concat, Instruction.transition, serve, CallStack.pop_of_lt hd hk]
    rfl

/-! ## Runs of requests -/

/-- A run of requests keeps the invariant and is answered as the list would answer it. -/
theorem serveAll_holds (h : Holds c l d) (requests : List Request) :
    (serveAll serve d requests).1 = (serveAll serveList l requests).1.map .ok ∧
      Holds c (serveAll serveList l requests).2 (serveAll serve d requests).2 := by
  induction requests generalizing d l with
  | nil => exact ⟨rfl, h⟩
  | cons r rest ih =>
    obtain ⟨hanswer, hnext⟩ := serve_holds h r
    obtain ⟨hanswers, hlast⟩ := ih hnext
    refine ⟨?_, hlast⟩
    rw [serveAll, serveAll, hanswer, hanswers, List.map_cons]

/-- A processor that has come from `c` by requests to its stack, which is now the list `l`. -/
structure Serves (c : Cpu) (l : List UInt16) (d : Cpu) : Prop extends Holds c l d where
  depth : d.stack.depth = l.length
  refused : ∀ r, (d.serve r).1 = .ok (.pushed false) ∨ (d.serve r).1 = .ok (.popped none) → (d.serve r).2 = d
  /-- An address that is popped stays in its slot. -/
  slots : (d.serve .pop).2.stack.slots = d.stack.slots
  /-- A call is a push of the address behind it, and a jump if there was room. -/
  call : ∀ a keys random, (Instruction.call a).transition d keys random =
    .ok (if l.length < 16 then { (d.serve (.push d.pc)).2 with pc := a } else d, true)
  /-- A return is a pop, and a jump to the address if there was one. -/
  ret : ∀ keys random, Instruction.ret.transition d keys random =
    .ok (l.getLast?.elim d fun a => { (d.serve .pop).2 with pc := a }, true)

theorem Holds.serves (h : Holds c l d) : Serves c l d where
  toHolds := h
  depth := h.depth
  refused _ := serve_refused
  slots := CallStack.pop_slots d.stack
  call a _ _ := transition_call_serve h a
  ret _ _ := transition_ret_serve h

/-- A run of pushes and pops is answered as a list of at most sixteen addresses answers it, the last of them being
on top, and the live addresses are that list all the time. Nothing but the stack changes, a request that is
refused changes nothing at all, and calls and returns make the same use of the stack. -/
theorem requests_served (hd : c.stack.depth ≤ CallStack.capacity) (requests : List Request) :
    ∃ d, serveAll serve c requests = ((serveAll serveList c.stack.live requests).1.map .ok, d) ∧
      Serves c (serveAll serveList c.stack.live requests).2 d := by
  have hstart : Holds c c.stack.live c := ⟨hd, rfl, rfl⟩
  obtain ⟨hanswers, hlast⟩ := serveAll_holds hstart requests
  exact ⟨_, Prod.ext hanswers rfl, hlast.serves⟩

/-- The last slot is filled, the next push is refused, and what a pop has taken is still in its slot. -/
theorem requests_served_full :
    let c : Cpu := { initial with stack := ⟨15, Vector.replicate 16 0x300⟩ }
    c.stack.depth ≤ CallStack.capacity ∧
      ∃ d, serveAll serve c [.push 0x404, .push 0x505] = ([.ok (.pushed true), .ok (.pushed false)], d) ∧
        d.stack.live = List.replicate 15 0x300 ++ [0x404] ∧ d.stack.depth = 16 ∧ d.v = c.v ∧
        (d.serve .pop).2.stack.slots = d.stack.slots := by
  intro c
  have hd : c.stack.depth ≤ CallStack.capacity := by decide
  have hlist : serveList c.stack.live (.push 0x404) = (.pushed true, List.replicate 15 0x300 ++ [0x404]) := by decide
  obtain ⟨d, hrun, hserves⟩ := requests_served hd [.push 0x404, .push 0x505]
  simp only [serveAll, hlist] at hrun hserves
  exact ⟨hd, d, hrun, hserves.live, hserves.depth, by rw [hserves.rest], hserves.slots⟩

end Cpu
end PacedChip8
