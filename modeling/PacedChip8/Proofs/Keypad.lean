/-
What a program can learn of the keys in one frame. A frame samples the keypad, then keys move, and
then the machine goes on; a key counts as released from there on exactly if it was held at the sample
and is up after the moves, whatever it has done in between. A wait takes the lowest such key.
-/
import PacedChip8.Keypad.Basic
import Mathlib.Tactic

namespace PacedChip8

/-- A key goes down or up. -/
structure KeyMove where
  key : UInt8
  down : Bool
  deriving DecidableEq

namespace Keypad

/-- The keypad of a frame: it is sampled, and then the keys move. -/
def moved (p : Keypad) (moves : List KeyMove) : Keypad :=
  moves.foldl (fun p move => p.setHeld move.key move.down) p.sample

/-- The key is held at the sample and not held after the moves. -/
def LetsGo (p : Keypad) (moves : List KeyMove) (key : UInt8) : Prop :=
  p.isPressed key = true ∧ (p.moved moves).isPressed key = false

instance (p : Keypad) (moves : List KeyMove) (key : UInt8) : Decidable (p.LetsGo moves key) :=
  inferInstanceAs (Decidable (_ ∧ _))

variable {p : Keypad} {moves : List KeyMove} {key : UInt8}

theorem sampled_setHeld (p : Keypad) (key : UInt8) (down : Bool) : (p.setHeld key down).sampled = p.sampled := by
  unfold setHeld
  split <;> rfl

theorem sampled_moved (p : Keypad) (moves : List KeyMove) : (p.moved moves).sampled = p.held := by
  -- for every keypad, since the moves change the one they start from
  have keep : ∀ q : Keypad, (moves.foldl (fun q move => q.setHeld move.key move.down) q).sampled = q.sampled := by
    induction moves with
    | nil => exact fun q => rfl
    | cons move moves ih => exact fun q => (ih _).trans (sampled_setHeld q move.key move.down)
  exact keep p.sample

theorem isPressed_of_lt (p : Keypad) (h : key.toNat < 16) : p.isPressed key = p.held[key.toNat] := by
  unfold isPressed; rw [dif_pos h]

theorem isReleased_of_lt (p : Keypad) (h : key.toNat < 16) :
    p.isReleased key = (p.sampled[key.toNat] && !p.held[key.toNat]) := by
  unfold isReleased; rw [dif_pos h]

theorem lt_of_isPressed (h : p.isPressed key = true) : key.toNat < 16 := by
  unfold isPressed at h
  split at h
  · assumption
  · cases h

theorem lt_of_isReleased (h : p.isReleased key = true) : key.toNat < 16 := by
  unfold isReleased at h
  split at h
  · assumption
  · cases h

/-- A key counts as released if it was held when the keypad was sampled and is not held now. -/
theorem isReleased_iff {base : Keypad} (hs : p.sampled = base.held) :
    p.isReleased key = true ↔ base.isPressed key = true ∧ p.isPressed key = false := by
  constructor
  · intro h
    have hk := lt_of_isReleased h
    rw [isReleased_of_lt _ hk] at h
    simp only [hs, Bool.and_eq_true, Bool.not_eq_true'] at h
    rw [isPressed_of_lt _ hk, isPressed_of_lt _ hk]
    exact h
  · rintro ⟨hb, hp⟩
    have hk := lt_of_isPressed hb
    rw [isPressed_of_lt _ hk] at hb hp
    rw [isReleased_of_lt _ hk]
    simp [hs, hb, hp]

/-- Right after a sample no key counts. -/
theorem isReleased_sample (p : Keypad) (key : UInt8) : p.sample.isReleased key = false := by
  have hs : p.sample.sampled = p.held := rfl
  rw [← Bool.not_eq_true, isReleased_iff hs]
  rintro ⟨hb, hp⟩
  exact Bool.false_ne_true (hp.symm.trans hb)

/-- The keys that count as released in a frame are those that were let go in it. -/
theorem isReleased_moved : (p.moved moves).isReleased key = true ↔ p.LetsGo moves key :=
  isReleased_iff (sampled_moved p moves)

/-- A key that is up at the sample, or held after the moves, does not count. -/
theorem isReleased_moved_eq_false (h : p.isPressed key = false ∨ (p.moved moves).isPressed key = true) :
    (p.moved moves).isReleased key = false := by
  rw [← Bool.not_eq_true, isReleased_moved]
  rintro ⟨hp, hq⟩
  rcases h with h | h
  · rw [hp] at h; cases h
  · rw [hq] at h; cases h

theorem not_letsGo (h : (p.moved moves).held = p.held) (key : UInt8) : ¬p.LetsGo moves key := by
  rintro ⟨hp, hq⟩
  unfold isPressed at hp hq
  rw [h, hp] at hq
  cases hq

end Keypad

theorem Keys.firstReleased?_eq_some_iff (keys : Keys) (key : UInt8) :
    keys.firstReleased? = some key ↔
      key.toNat < count ∧ keys.released key = true ∧ ∀ j < key, keys.released j = false := by
  unfold firstReleased?
  rw [List.find?_map, Option.map_eq_some_iff]
  simp only [List.find?_range_eq_some, Function.comp_apply, List.mem_range, Bool.not_eq_true']
  constructor
  · rintro ⟨k, ⟨hk, hlt, hmin⟩, rfl⟩
    have hcount : (UInt8.ofNat k).toNat = k := by
      rw [UInt8.toNat_ofNat']
      unfold count at hlt
      omega
    refine ⟨hcount.symm ▸ hlt, hk, fun j hj => ?_⟩
    have := hmin j.toNat (hcount ▸ UInt8.lt_iff_toNat_lt.1 hj)
    rwa [UInt8.ofNat_toNat] at this
  · rintro ⟨hlt, hk, hmin⟩
    refine ⟨key.toNat, ⟨by rwa [UInt8.ofNat_toNat], hlt, fun j hj => ?_⟩, UInt8.ofNat_toNat⟩
    apply hmin
    rw [UInt8.lt_iff_toNat_lt, UInt8.toNat_ofNat']
    have := key.toNat_lt
    omega

end PacedChip8
