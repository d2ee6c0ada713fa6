/-
The stack of return addresses, seen from one call: once a call at depth `d` has pushed its return
address, the slots up to `d` belong to it and to the calls below it, and no push or pop reaches them
until the depth is back at `d`.
-/
import PacedChip8.CallStack
import Mathlib.Tactic

namespace PacedChip8.CallStack

/-! ## The outcomes of a push and of a pop -/

theorem push?_of_lt {s : CallStack} (h : s.depth < 16) (a : UInt16) :
    s.push? a = some ⟨s.depth + 1, s.slots.set s.depth a⟩ := by
  unfold push?; rw [dif_pos h]

/-- A push succeeds exactly if there is a free slot, writes this one, and adds one to the depth. -/
theorem push?_eq_some {s t : CallStack} {a : UInt16} :
    s.push? a = some t ↔ ∃ h : s.depth < 16, ⟨s.depth + 1, s.slots.set s.depth a⟩ = t := by
  unfold push?
  split <;> rename_i h <;> simp [h]

theorem push?_of_le {s : CallStack} (h : 16 ≤ s.depth) (a : UInt16) : s.push? a = none :=
  (push?_eq_none_iff s a).2 h

theorem pop_of_empty {s : CallStack} (h : s.depth = 0) : s.pop = (.ok none, s) := by
  unfold pop; rw [h]

theorem pop_of_lt {s : CallStack} {d : Nat} (h : s.depth = d + 1) (hd : d < 16) :
    s.pop = (.ok (some s.slots[d]), { s with depth := d }) := by
  unfold pop; rw [h]; simp [hd]

/-- A stack that is deeper than its slots faults, although the depth is taken down first. -/
theorem pop_of_le {s : CallStack} {d : Nat} (h : s.depth = d + 1) (hd : 16 ≤ d) :
    s.pop = (.error (.slot d), { s with depth := d }) := by
  unfold pop; rw [h]; simp [hd]

/-- A pop lowers the depth by one, if there is anything to lower. -/
theorem pop_depth (s : CallStack) : s.pop.2.depth = s.depth - 1 := by
  unfold pop; split <;> simp_all

theorem pop_slots (s : CallStack) : s.pop.2.slots = s.slots := by
  unfold pop; split <;> rfl

/-- The last live address. -/
def top? (s : CallStack) : Option UInt16 := if s.depth = 0 then none else s.slots[s.depth - 1]?

theorem top?_of_empty {s : CallStack} (h : s.depth = 0) : s.top? = none := if_pos h

theorem top?_of_lt {s : CallStack} {d : Nat} (h : s.depth = d + 1) (hd : d < 16) : s.top? = some s.slots[d] := by
  simp [top?, h, hd]

/-! ## The slots of a call -/

/-- The stack inside a call made at depth `d`: the depth is above `d`, the slots below `d` are those
of `base`, and slot `d` holds the return address `back`. -/
structure Inside (base : CallStack) (back : UInt16) (s : CallStack) : Prop where
  above : base.depth < s.depth
  room : s.depth ≤ 16
  below : ∀ k (_ : k < 16), k < base.depth → s.slots[k] = base.slots[k]
  back : ∀ h : base.depth < 16, s.slots[base.depth] = back

theorem inside_push {base s : CallStack} {back : UInt16} (h : base.push? back = some s) : Inside base back s := by
  obtain ⟨hd, rfl⟩ := push?_eq_some.1 h
  refine ⟨Nat.lt_succ_self _, hd, fun k _ hk => ?_, fun _ => ?_⟩
  · rw [Vector.getElem_set_ne _ _ (by omega)]
  · rw [Vector.getElem_set_self]

/-- A push inside a call lands above the slots of the call. -/
theorem Inside.push {base s t : CallStack} {back a : UInt16} (hs : Inside base back s) (h : s.push? a = some t) :
    Inside base back t := by
  have hab := hs.above
  obtain ⟨hd, rfl⟩ := push?_eq_some.1 h
  refine ⟨by simp only; omega, hd, fun k hk hlt => ?_, fun hb => ?_⟩
  · rw [Vector.getElem_set_ne _ _ (by omega)]; exact hs.below k hk hlt
  · rw [Vector.getElem_set_ne _ _ (by omega)]; exact hs.back hb

/-- A pop inside a call either stays inside, or takes the return address of the call and leaves the
slots below it as the call has found them. -/
theorem Inside.pop {base s : CallStack} {back : UInt16} (hs : Inside base back s) :
    Inside base back s.pop.2 ∨
      (s.pop.1 = .ok (some back) ∧ s.pop.2.depth = base.depth ∧
        ∀ k (_ : k < 16), k < base.depth → s.pop.2.slots[k] = base.slots[k]) := by
  have hab := hs.above
  have hroom := hs.room
  obtain ⟨d, hd⟩ : ∃ d, s.depth = d + 1 := ⟨s.depth - 1, by omega⟩
  rw [pop_of_lt hd (by omega)]
  by_cases hbd : base.depth < d
  · exact .inl ⟨hbd, by simp only; omega, hs.below, hs.back⟩
  · obtain rfl : d = base.depth := by omega
    exact .inr ⟨by rw [hs.back], rfl, hs.below⟩

end PacedChip8.CallStack
