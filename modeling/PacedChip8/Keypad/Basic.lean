/-
The keypad: sixteen keys that are held or not, and what was held at the last sample. A key counts as
released when it was held at the last sample and is not held now; this is what a wait for a key
looks for. Keys are named by bytes, and those above fifteen do not exist: pressing them does nothing
and they are never held.
-/

namespace PacedChip8

/-- What an instruction can ask about the keys. -/
structure Keys where
  pressed : UInt8 → Bool
  released : UInt8 → Bool

namespace Keys

/-- The number of keys. -/
def count : Nat := 16

/-- The lowest key that counts as released. -/
def firstReleased? (k : Keys) : Option UInt8 :=
  ((List.range count).map UInt8.ofNat).find? k.released

end Keys

/-- The keys that are held now and those that were held at the last sample. -/
structure Keypad where
  held : Vector Bool 16
  sampled : Vector Bool 16
  deriving DecidableEq

namespace Keypad

/-- No key held, now or before. -/
def idle : Keypad := ⟨Vector.replicate 16 false, Vector.replicate 16 false⟩

/-- Notes a key as held or not. -/
def setHeld (p : Keypad) (key : UInt8) (down : Bool) : Keypad :=
  if h : key.toNat < 16 then { p with held := p.held.set key.toNat down } else p

/-- A key goes down. -/
def press (p : Keypad) (key : UInt8) : Keypad := p.setHeld key true

/-- A key goes up. -/
def release (p : Keypad) (key : UInt8) : Keypad := p.setHeld key false

/-- Remembers which keys are held; done once before the key events of a frame. -/
def sample (p : Keypad) : Keypad := { p with sampled := p.held }

/-- Whether a key is held. -/
def isPressed (p : Keypad) (key : UInt8) : Bool :=
  if h : key.toNat < 16 then p.held[key.toNat] else false

/-- Whether a key was held at the last sample and is not held now. -/
def isReleased (p : Keypad) (key : UInt8) : Bool :=
  if h : key.toNat < 16 then p.sampled[key.toNat] && !p.held[key.toNat] else false

/-- The keypad as instructions see it. -/
def keys (p : Keypad) : Keys := ⟨p.isPressed, p.isReleased⟩

/-- A key event is about its own key, and about none if that key does not exist. -/
theorem isPressed_setHeld (p : Keypad) (key q : UInt8) (down : Bool) :
    (p.setHeld key down).isPressed q =
      if key = q ∧ q.toNat < 16 then down else p.isPressed q := by
  unfold setHeld isPressed
  by_cases hq : q.toNat < 16
  · by_cases hk : key.toNat < 16
    · simp [hk, hq, Vector.getElem_set, UInt8.toNat_inj]
    · have : key ≠ q := fun h => hk (h ▸ hq)
      simp [hk, this]
  · simp [hq]

end Keypad
end PacedChip8
