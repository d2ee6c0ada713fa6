/-
What a keypad remembers of its past. A key is held exactly if the last that happened to it was that it went
down (`isPressed_after`), and what was held at the last sample is what the events up to that sample have left
(`sampled_after`). So a key counts as released exactly if it was down at the last sample and is up now. An
event counts only for its own key, and for none if that key does not exist.
-/
import PacedChip8.Proofs.History
import PacedChip8.Proofs.Keypad
import Mathlib.Data.List.DropRight

namespace PacedChip8.Keypad

/-- What can happen to a keypad. -/
inductive Event where
  | press (key : UInt8)
  | release (key : UInt8)
  | sample
  deriving DecidableEq

/-- The move that an event is, if it is one. -/
def Event.move? : Event → Option KeyMove
  | press key => some ⟨key, true⟩
  | release key => some ⟨key, false⟩
  | sample => none

def handle (p : Keypad) : Event → Keypad
  | .press key => p.press key
  | .release key => p.release key
  | .sample => p.sample

def after (p : Keypad) (events : List Event) : Keypad := events.foldl handle p

/-- The last press or release of a key. -/
def lastMove? (key : UInt8) (events : List Event) : Option KeyMove :=
  History.last? (fun e => e.move?.filter (·.key == key)) events

/-- The events up to the last sample, or none if there was no sample. -/
def upToSample (events : List Event) : List Event := events.rdropWhile (· != .sample)

variable {p : Keypad} {e f : Event} {m n : KeyMove} {key : UInt8} {events rest : List Event}

/-! ## Single events -/

theorem handle_move (he : e.move? = some m) (p : Keypad) : p.handle e = p.setHeld m.key m.down := by
  cases e with
  | sample => cases he
  | press | release => cases he; rfl

theorem eq_sample (he : e.move? = none) : e = .sample := by
  cases e with
  | sample => rfl
  | press | release => cases he

theorem setHeld_absent (hk : 16 ≤ key.toNat) (p : Keypad) (down : Bool) : p.setHeld key down = p :=
  dif_neg (Nat.not_lt.2 hk)

theorem setHeld_comm {k l : UInt8} (hne : k ≠ l) (p : Keypad) (a b : Bool) :
    (p.setHeld k a).setHeld l b = (p.setHeld l b).setHeld k a := by
  by_cases hk : k.toNat < 16
  · by_cases hl : l.toNat < 16
    · have hne' : k.toNat ≠ l.toNat := fun h => hne (UInt8.toNat_inj.1 h)
      simp only [setHeld, hk, hl, dif_pos]
      rw [Vector.set_comm _ _ hne']
    · simp only [setHeld_absent (Nat.not_lt.1 hl)]
  · simp only [setHeld_absent (Nat.not_lt.1 hk)]

theorem handle_absent (he : e.move? = some m) (hm : 16 ≤ m.key.toNat) (p : Keypad) : p.handle e = p := by
  rw [handle_move he, setHeld_absent hm]

/-- Moves of different keys may be swapped. -/
theorem handle_comm (he : e.move? = some m) (hf : f.move? = some n) (hne : m.key ≠ n.key) (p : Keypad) :
    (p.handle e).handle f = (p.handle f).handle e := by
  simp only [handle_move he, handle_move hf]
  exact setHeld_comm hne p m.down n.down

/-- A move of another key, or another release, does not take away that the key counts as released. -/
theorem isReleased_setHeld {k : UInt8} {down : Bool} (h : p.isReleased key = true) (hk : k = key → down = false) :
    (p.setHeld k down).isReleased key = true := by
  have hbefore : p.sampled = (⟨p.sampled, p.sampled⟩ : Keypad).held := rfl
  have hafter : (p.setHeld k down).sampled = (⟨p.sampled, p.sampled⟩ : Keypad).held := sampled_setHeld ..
  rw [isReleased_iff hbefore] at h
  rw [isReleased_iff hafter, isPressed_setHeld]
  refine ⟨h.1, ?_⟩
  split
  · rename_i hkey
    exact hk hkey.1
  · exact h.2

theorem isReleased_press (p : Keypad) (key : UInt8) : (p.press key).isReleased key = false := by
  rw [← Bool.not_eq_true]
  intro h
  have hk := lt_of_isReleased h
  rw [isReleased_of_lt _ hk, ← isPressed_of_lt _ hk, press, isPressed_setHeld, if_pos ⟨rfl, hk⟩] at h
  simp at h

/-! ## Histories -/

theorem after_append (p : Keypad) (first second : List Event) :
    p.after (first ++ second) = (p.after first).after second :=
  List.foldl_append

theorem after_concat (p : Keypad) (events : List Event) (e : Event) :
    p.after (events ++ [e]) = (p.after events).handle e :=
  after_append p events [e]

theorem lastMove?_sample (key : UInt8) (events : List Event) :
    lastMove? key (events ++ [.sample]) = lastMove? key events :=
  History.last?_concat events .sample

theorem lastMove?_move (he : e.move? = some m) (key : UInt8) (events : List Event) :
    lastMove? key (events ++ [e]) = if m.key = key then some m else lastMove? key events := by
  unfold lastMove?
  rw [History.last?_concat, he]
  by_cases hk : m.key = key <;> simp [Option.filter, hk]

/-- A key is held exactly if its last move was a press; samples do not matter. -/
theorem isPressed_after (events : List Event) (key : UInt8) :
    (idle.after events).isPressed key = true ↔ key.toNat < 16 ∧ lastMove? key events = some ⟨key, true⟩ := by
  induction events using List.reverseRecOn with
  | nil => simp [after, lastMove?, History.last?, idle, isPressed]
  | append_singleton events e ih =>
    rw [after_concat]
    rcases he : e.move? with _ | m
    · obtain rfl := eq_sample he
      rw [lastMove?_sample, ← ih]
      rfl
    · obtain ⟨k, down⟩ := m
      rw [handle_move he, isPressed_setHeld, lastMove?_move he]
      -- a move of the key itself decides, unless there is no such key
      by_cases hk : k = key
      · subst hk
        by_cases hlt : k.toNat < 16
        · simp [hlt]
        · simp [hlt, ih]
      · simpa [hk] using ih

theorem sampled_after (events : List Event) : (idle.after events).sampled = (idle.after (upToSample events)).held := by
  unfold upToSample
  induction events using List.reverseRecOn with
  | nil => rfl
  | append_singleton events e ih =>
    rw [after_concat]
    rcases he : e.move? with _ | m
    · obtain rfl := eq_sample he
      rw [List.rdropWhile_concat_neg _ _ _ (by simp), after_concat]
      rfl
    · have hne : e ≠ .sample := by rintro rfl; cases he
      rw [List.rdropWhile_concat_pos _ _ _ (by simpa using hne), handle_move he, sampled_setHeld]
      exact ih

theorem mem_of_upToSample (h : upToSample events ≠ []) : .sample ∈ events := by
  by_contra hs
  refine h (List.rdropWhile_eq_nil_iff.2 fun e he => ?_)
  simpa using fun heq : e = .sample => hs (heq ▸ he)

/-- A key counts as released exactly if its last move before the last sample was a press and it is up now. -/
theorem isReleased_after (events : List Event) (key : UInt8) :
    (idle.after events).isReleased key = true ↔
      key.toNat < 16 ∧ .sample ∈ events ∧ lastMove? key (upToSample events) = some ⟨key, true⟩ ∧
        (idle.after events).isPressed key = false := by
  rw [isReleased_iff (sampled_after events), isPressed_after]
  constructor
  · rintro ⟨⟨hlt, hlast⟩, hup⟩
    refine ⟨hlt, mem_of_upToSample fun hnil => ?_, hlast, hup⟩
    rw [hnil] at hlast
    cases hlast
  · rintro ⟨hlt, -, hlast, hup⟩
    exact ⟨⟨hlt, hlast⟩, hup⟩

/-- Without a sample and without a press of the key its release is not lost. -/
theorem isReleased_after_quiet (h : p.isReleased key = true) (hs : .sample ∉ rest) (hp : .press key ∉ rest) :
    (p.after rest).isReleased key = true := by
  induction rest generalizing p with
  | nil => exact h
  | cons e rest ih =>
    rw [List.mem_cons, not_or] at hs hp
    refine ih ?_ hs.2 hp.2
    cases e with
    | sample => exact absurd rfl hs.1
    | press k => exact isReleased_setHeld h fun hk => absurd (congrArg Event.press hk.symm) hp.1
    | release k => exact isReleased_setHeld h fun _ => rfl

/-! ## All together -/

/-- What a new keypad says of a key after events, and which events do not matter. -/
structure Recalls (events : List Event) (key : UInt8) : Prop where
  pressed : (idle.after events).isPressed key = true ↔ key.toNat < 16 ∧ lastMove? key events = some ⟨key, true⟩
  released : (idle.after events).isReleased key = true ↔
    key.toNat < 16 ∧ .sample ∈ events ∧ lastMove? key (upToSample events) = some ⟨key, true⟩ ∧
      (idle.after events).isPressed key = false
  /-- A key that does not exist may move or not. -/
  absent : ∀ {e m}, e.move? = some m → 16 ≤ m.key.toNat → ∀ rest,
    idle.after (events ++ e :: rest) = idle.after (events ++ rest)
  /-- Two keys may move in either order. -/
  commute : ∀ {e f m n}, e.move? = some m → f.move? = some n → m.key ≠ n.key → ∀ rest,
    idle.after (events ++ e :: f :: rest) = idle.after (events ++ f :: e :: rest)
  /-- A key counts as released until the next sample or until it goes down again. -/
  lasts : (idle.after events).isReleased key = true → ∀ rest, .sample ∉ rest → .press key ∉ rest →
    (idle.after (events ++ rest)).isReleased key = true
  ends : (idle.after (events ++ [.sample])).isReleased key = false ∧
    (idle.after (events ++ [.press key])).isReleased key = false

/-- A key is held if it was pressed last, and counts as released if at the last sample it had been pressed last
and it is not held now. Events of keys that do not exist have no effect, those of different keys commute, and a
released key counts until the next sample or its next press. -/
theorem keys_recalled (events : List Event) (key : UInt8) : Recalls events key where
  pressed := isPressed_after events key
  released := isReleased_after events key
  absent := by
    intro e m he hm rest
    rw [after_append, after_append]
    show ((idle.after events).handle e).after rest = _
    rw [handle_absent he hm]
  commute := by
    intro e f m n he hf hne rest
    rw [after_append, after_append]
    show (((idle.after events).handle e).handle f).after rest = _
    rw [handle_comm he hf hne]
    rfl
  lasts := by
    intro h rest hs hp
    rw [after_append]
    exact isReleased_after_quiet h hs hp
  ends := by
    rw [after_concat, after_concat]
    exact ⟨isReleased_sample _ key, isReleased_press _ key⟩

/-- A key that has been let go counts until it is pressed again, whatever others do that exist or not. -/
theorem keys_recalled_let_go :
    let events : List Event := [.press 5, .press 16, .sample, .release 5]
    (idle.after events).isReleased 5 = true ∧ (idle.after events).isPressed 16 = false ∧
      (idle.after (events ++ [.release 16, .press 7])).isReleased 5 = true ∧
      (idle.after (events ++ [.press 5])).isReleased 5 = false := by
  intro events
  have hup : (idle.after events).isPressed 5 = false := by
    rw [← Bool.not_eq_true, (keys_recalled events 5).pressed]
    decide
  have hlet : (idle.after events).isReleased 5 = true :=
    (keys_recalled events 5).released.2 ⟨by decide, by decide, by decide, hup⟩
  refine ⟨hlet, ?_, ?_, (keys_recalled events 5).ends.2⟩
  · rw [← Bool.not_eq_true, (keys_recalled events 16).pressed]
    decide
  · exact (keys_recalled events 5).lasts hlet _ (by decide) (by decide)

end PacedChip8.Keypad
