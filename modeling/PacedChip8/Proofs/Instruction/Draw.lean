/-
Drawing a sprite. The sprite is clipped at the right and at the bottom of the screen, each of its pixels
that is left is flipped once, and nothing but the screen changes. So what a drawing does to a pixel
depends on the drawing alone and not on the picture (`pixel_paint`): it inverts the pixel or leaves it.
Of several drawings only their number over each pixel counts, and only whether it is odd
(`pixel_paintAll`); neither their order does, nor where they overlap.
-/
import PacedChip8.Instruction.Execute
import PacedChip8.Proofs.Memory
import PacedChip8.Proofs.Screen
import PacedChip8.Proofs.Sprite

namespace PacedChip8

/-- A sprite to be drawn: the processor, the registers that hold its column and its row, and the number of
its rows. -/
structure Drawing where
  cpu : Cpu
  x : Fin 16
  y : Fin 16
  rows : UInt8

namespace Drawing

def instruction (d : Drawing) : Instruction := .draw d.x d.y d.rows

/-- The column of the left edge, which wraps. -/
def left (d : Drawing) : Nat := d.cpu.v[d.x].toNat % 64

/-- The row of the top edge, which does not. -/
def top (d : Drawing) : Nat := d.cpu.v[d.y].toNat

/-- The byte of row `k`. -/
def rowByte (d : Drawing) (k : Nat) : UInt8 := d.cpu.memory.bytes[(d.cpu.index.toNat + k) % 4096]

/-- A set bit of the sprite lies over the pixel. -/
def Hits (d : Drawing) (col row : Nat) : Prop :=
  d.top ≤ row ∧ row < d.top + d.rows.toNat ∧ d.left ≤ col ∧ col < d.left + 8 ∧
    (d.rowByte (row - d.top)).toNat.testBit (7 - (col - d.left)) = true

instance (d : Drawing) (col row : Nat) : Decidable (d.Hits col row) := inferInstanceAs (Decidable (_ ∧ _))

/-- The screen with the sprite drawn on it. -/
def paint (d : Drawing) (s : Screen) : Screen := s.run (d.instruction.drawing d.cpu)

variable {d : Drawing} {s : Screen} {col row : Nat}

/-! ## One drawing -/

def cells (d : Drawing) : List Nat := Sprite.cells d.left d.top (d.cpu.memory.read d.cpu.index d.rows.toNat)

theorem drawing_eq (d : Drawing) : d.instruction.drawing d.cpu = d.cells.map .flip ++ [.mark true] := by
  simp only [instruction, Instruction.drawing, d.cpu.reg_of_lt d.x.isLt, d.cpu.reg_of_lt d.y.isLt]
  rfl

theorem transition_eq (d : Drawing) (keys : Keys) (random : Random.Source) :
    d.instruction.transition d.cpu keys random = .ok (d.cpu, true) := by
  simp only [instruction, Instruction.transition, d.cpu.reg_of_lt d.x.isLt, d.cpu.reg_of_lt d.y.isLt]
  rfl

theorem cells_nodup (d : Drawing) : d.cells.Nodup := (Sprite.cells_ascending ..).imp Nat.ne_of_lt

theorem getElem?_bytes (d : Drawing) (k : Nat) (b : UInt8) :
    (d.cpu.memory.read d.cpu.index d.rows.toNat)[k]? = some b ↔ k < d.rows.toNat ∧ d.rowByte k = b := by
  rw [Memory.getElem?_read, Memory.get_add, Option.ite_none_right_eq_some, Option.some.injEq]
  rfl

theorem mem_cells (hcol : col < 64) (hrow : row < 32) : 64 * row + col ∈ d.cells ↔ d.Hits col row := by
  show Screen.width * row + col ∈ Sprite.cells .. ↔ _
  rw [Sprite.pixel_mem_cells hcol hrow]
  simp only [getElem?_bytes]
  constructor
  · rintro ⟨htop, hleft, hlt, b, ⟨hk, rfl⟩, hbit⟩
    exact ⟨htop, by omega, hleft, hlt, hbit⟩
  · rintro ⟨htop, hbottom, hleft, hlt, hbit⟩
    exact ⟨htop, hleft, hlt, _, ⟨by omega, rfl⟩, hbit⟩

/-- Each pixel that a set bit lies over is flipped, and that once. -/
theorem pixel_paint (hcol : col < 64) (hrow : row < 32) :
    (d.paint s).pixel col row = (s.pixel col row ^^ decide (d.Hits col row)) := by
  have hmark : (d.paint s).pixel col row = (s.run (d.cells.map .flip)).pixel col row := by
    rw [paint, drawing_eq, Screen.run, List.foldl_append]
    rfl
  have hodd : Odd (d.cells.count (64 * row + col)) ↔ d.Hits col row := by
    rw [d.cells_nodup.count, ← mem_cells hcol hrow]
    split <;> simp [*]
  rw [hmark, Screen.pixel_run_flips s d.cells hcol hrow]
  simp only [hodd]

theorem dirty_paint (d : Drawing) (s : Screen) : (d.paint s).dirty = true := by
  rw [paint, drawing_eq, Screen.run, List.foldl_append]
  rfl

/-- A drawing inverts exactly the pixels that a set bit of its sprite lies over, each of them once and
none off the screen, and marks the picture; all else stays as it was. The left edge wraps, and what lies
beyond the right edge or below the bottom is dropped. -/
theorem draws_clipped_sprite (d : Drawing) (keys : Keys) (random : Random.Source) (s : Screen) :
    let done := d.instruction.execute d.cpu keys random
    done.result = .ok (d.cpu, 22734) ∧ done.random = random ∧
      (∃ cells : List Nat, done.commands = cells.map .flip ++ [.mark true] ∧ cells.Nodup ∧ ∀ i ∈ cells, i < 2048) ∧
      (s.run done.commands).dirty = true ∧
      ∀ (col : Fin 64) (row : Fin 32),
        (s.run done.commands).pixel col row = (s.pixel col row ^^ decide (d.Hits col row)) := by
  intro done
  refine ⟨?_, rfl, ⟨d.cells, d.drawing_eq, d.cells_nodup, fun i hi => Sprite.cells_lt hi⟩, d.dirty_paint s,
    fun col row => pixel_paint col.isLt row.isLt⟩
  show (d.instruction.transition d.cpu keys random).map _ = _
  rw [d.transition_eq]
  rfl

/-- A glyph in the corner of the screen, of which the upper left part is left. -/
theorem draws_clipped_sprite_corner :
    let d : Drawing := ⟨{ Cpu.initial with v := (Cpu.initial.v.set 0 126).set 1 30 }, 0, 1, 5⟩
    let drawn := Screen.blank.run (d.instruction.execute d.cpu Keypad.idle.keys (.cycle [])).commands
    drawn.pixel 63 30 = true ∧ drawn.pixel 62 31 = true ∧ drawn.pixel 63 31 = false ∧
      drawn.pixel 0 30 = false ∧ drawn.pixel 62 0 = false ∧ drawn.dirty = true := by
  intro d drawn
  obtain ⟨-, -, -, hdirty, hpixel⟩ := draws_clipped_sprite d Keypad.idle.keys (.cycle []) .blank
  have hdark (col : Fin 64) (row : Fin 32) : drawn.pixel col row = decide (d.Hits col row) := by
    have hblank : Screen.blank.pixel col row = false := by simp [Screen.pixel, Screen.blank]
    rw [hpixel col row, hblank, Bool.false_xor]
  have hhits : d.Hits 63 30 ∧ d.Hits 62 31 ∧ ¬d.Hits 63 31 ∧ ¬d.Hits 0 30 ∧ ¬d.Hits 62 0 := by decide +kernel
  obtain ⟨h1, h2, h3, h4, h5⟩ := hhits
  exact ⟨(hdark 63 30).trans (decide_eq_true h1), (hdark 62 31).trans (decide_eq_true h2),
    (hdark 63 31).trans (decide_eq_false h3), (hdark 0 30).trans (decide_eq_false h4),
    (hdark 62 0).trans (decide_eq_false h5), hdirty⟩

/-! ## Several drawings -/

/-- The screen with the sprites drawn on it in order. -/
def paintAll (ds : List Drawing) (s : Screen) : Screen := ds.foldl (fun s d => d.paint s) s

/-- How many sprites have a set bit over the pixel. -/
def hits (ds : List Drawing) (col row : Nat) : Nat := ds.countP (·.Hits col row)

variable {ds es : List Drawing}

theorem pixel_paintAll (ds : List Drawing) (s : Screen) (hcol : col < 64) (hrow : row < 32) :
    (paintAll ds s).pixel col row = (s.pixel col row ^^ decide (Odd (hits ds col row))) := by
  induction ds generalizing s with
  | nil => simp [paintAll, hits]
  | cons d ds ih =>
    show (paintAll ds (d.paint s)).pixel col row = _
    rw [ih, pixel_paint hcol hrow, hits, hits, List.countP_cons, Bool.xor_assoc]
    congr 1
    by_cases hd : d.Hits col row
    · simp only [hd, decide_true, if_true, Nat.odd_add_one, decide_not, Bool.true_xor]
    · simp only [hd, decide_false, Bool.false_eq_true, if_false, Nat.add_zero, Bool.false_xor]

/-- Drawing sprites is an action by exclusive or: a pixel is inverted if an odd number of the sprites have
a set bit over it. So any order gives the same pixels, and the same sprites drawn again, in any order,
give back the pixels from before. -/
theorem drawings_cancel (h : ds.Perm es) (s : Screen) :
    (∀ (col : Fin 64) (row : Fin 32),
        (paintAll ds s).pixel col row = (s.pixel col row ^^ decide (Odd (hits ds col row)))) ∧
      (paintAll ds s).pixels = (paintAll es s).pixels ∧ (paintAll (ds ++ es) s).pixels = s.pixels := by
  have hsame (col row : Nat) : hits ds col row = hits es col row := h.countP_eq _
  refine ⟨fun col row => pixel_paintAll ds s col.isLt row.isLt, ?_, ?_⟩
  · refine Screen.pixels_eq_of_pixel fun col row hcol hrow => ?_
    rw [pixel_paintAll ds s hcol hrow, pixel_paintAll es s hcol hrow, hsame]
  · refine Screen.pixels_eq_of_pixel fun col row hcol hrow => ?_
    have heven : ¬Odd (hits (ds ++ es) col row) := by
      rw [hits, List.countP_append, Nat.not_odd_iff_even]
      show Even (hits ds col row + hits es col row)
      rw [hsame]
      exact Even.add_self _
    rw [pixel_paintAll _ s hcol hrow, decide_eq_false heven, Bool.xor_false]

/-- Two overlapping glyphs on a lit pixel, drawn in both orders. -/
theorem drawings_cancel_overlap :
    let d : Drawing := ⟨Cpu.initial, 0, 1, 5⟩
    let e : Drawing := ⟨{ Cpu.initial with v := Cpu.initial.v.set 0 2, index := 5 }, 0, 1, 200⟩
    let s := Screen.blank.flip 3
    [d, e].Perm [e, d] ∧ (paintAll [d, e] s).pixels = (paintAll [e, d] s).pixels ∧
      (paintAll [d, e, e, d] s).pixels = s.pixels := by
  intro d e s
  have h : [d, e].Perm [e, d] := .swap e d []
  obtain ⟨-, horder, hback⟩ := drawings_cancel h s
  exact ⟨h, horder, hback⟩

end Drawing
end PacedChip8
