/-
The speaker: whether a tone sounds, and how often it was switched on and off. `follow` is how the
machine uses it, once a frame: the speaker is touched only if it does not already do what is wanted.
-/

namespace PacedChip8

/-- A tone that sounds or not, and the switching it has seen. -/
structure Speaker where
  playing : Bool
  starts : Nat
  stops : Nat
  deriving DecidableEq

namespace Speaker

/-- A speaker that has not been touched; `playing` tells whether the tone sounds already. -/
def fresh (playing : Bool) : Speaker := ⟨playing, 0, 0⟩

/-- Switches the tone on. -/
def start (s : Speaker) : Speaker := { s with playing := true, starts := s.starts + 1 }

/-- Switches the tone off. -/
def stop (s : Speaker) : Speaker := { s with playing := false, stops := s.stops + 1 }

/-- Makes the tone sound exactly if `sounding`, switching only where that is a change. -/
def follow (s : Speaker) (sounding : Bool) : Speaker :=
  if sounding = s.playing then s
  else if sounding then s.start
  else s.stop

/-- Afterwards the tone sounds if and only if it should. -/
theorem playing_follow (s : Speaker) (sounding : Bool) : (s.follow sounding).playing = sounding := by
  unfold follow
  split
  · rename_i h
    exact h.symm
  · cases sounding <;> rfl

end Speaker
end PacedChip8
