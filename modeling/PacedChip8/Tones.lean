/-
Tones that are shared: a handle refers to a tone, a copy of a handle to the same one, so what is
done through one handle is seen through all its copies, and through no other. Handles are numbered
in the order in which they came up. Switching is logged even where it changes nothing.
-/
import PacedChip8.Log

namespace PacedChip8

/-- Tones, and the handles that refer to them. -/
structure Tones where
  /-- Whether each tone sounds. -/
  playing : List Bool
  /-- The tone that each handle refers to. -/
  owners : List Nat
  deriving DecidableEq

namespace Tones

/-- No tone and no handle. -/
def empty : Tones := ⟨[], []⟩

/-- Adds a silent tone and a handle of its own. -/
def create (t : Tones) : Tones := ⟨t.playing ++ [false], t.owners ++ [t.playing.length]⟩

/-- Adds a handle that refers to the same tone as handle `h`. -/
def copy? (t : Tones) (h : Nat) : Option Tones :=
  t.owners[h]?.map fun tone => { t with owners := t.owners ++ [tone] }

/-- Switches the tone of handle `h`, and reports it. -/
def switch? (t : Tones) (h : Nat) (sounding : Bool) : Option (Tones × Log.Entry) :=
  t.owners[h]?.map fun tone =>
    ({ t with playing := t.playing.set tone sounding }, if sounding then .toneOn else .toneOff)

/-- Whether the tone of handle `h` sounds. -/
def isPlaying (t : Tones) (h : Nat) : Bool :=
  (t.owners[h]?.bind fun tone => t.playing[tone]?).getD false

end Tones
end PacedChip8
