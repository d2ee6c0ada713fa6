/-
Pictures are faithful. Rows, text and bytes are made of blocks of one length, so it can be said what stands at
each place of them (`getElem?_flatMap_block`), and it is always one pixel or the end of a line. So the pixels can
be read back from the text alone (`ofText_text`) and from the bytes alone (`ofRgb_rgb`), and screens that differ in
one of the pictures differ in all.
-/
import PacedChip8.Proofs.Screen
import PacedChip8.Screen.Picture

namespace PacedChip8.Screen

variable {α β : Type} {s t : Screen} {x y : Nat}

/-! ## Blocks -/

theorem length_flatMap_block {f : α → List β} {n : Nat} (hf : ∀ a, (f a).length = n) (l : List α) :
    (l.flatMap f).length = n * l.length := by
  rw [List.length_flatMap]
  simp [hf, Nat.mul_comm]

/-- If all blocks have the length `n`, place `n * i + j` is place `j` of block `i`. -/
theorem getElem?_flatMap_block {f : α → List β} {n j : Nat} (hf : ∀ a, (f a).length = n) (hj : j < n) (l : List α)
    (i : Nat) : (l.flatMap f)[n * i + j]? = l[i]?.bind fun a => (f a)[j]? := by
  induction l generalizing i with
  | nil => rfl
  | cons a l ih =>
    rw [List.flatMap_cons]
    cases i with
    | zero =>
      rw [Nat.mul_zero, Nat.zero_add, List.getElem?_append_left (by rw [hf]; exact hj)]
      rfl
    | succ i =>
      have hlt : n * (i + 1) + j - n = n * i + j := by rw [Nat.mul_succ]; omega
      rw [List.getElem?_append_right (by rw [hf, Nat.mul_succ]; omega), hf, hlt, ih]
      rfl

/-! ## Rows -/

/-- Row `y`, from left to right. -/
def row (s : Screen) (y : Nat) : List Bool := (List.range width).map fun x => s.pixel x y

theorem length_row (s : Screen) (y : Nat) : (s.row y).length = 64 := by simp [row, width]

theorem getElem?_row (hx : x < 64) (s : Screen) (y : Nat) : (s.row y)[x]? = some (s.pixel x y) := by
  have hrange : (List.range width)[x]? = some x := List.getElem?_range hx
  rw [row, List.getElem?_map, hrange, Option.map_some]

theorem rows_eq (s : Screen) : s.rows = (List.range 32).map s.row := rfl

theorem length_flatten_rows (s : Screen) : s.rows.flatten.length = 2048 := by
  rw [rows_eq, ← List.flatMap_def, length_flatMap_block s.length_row, List.length_range]

/-- In the rows laid end to end a pixel is at the index that a flip of it would name. -/
theorem getElem?_flatten_rows (hx : x < 64) (hy : y < 32) (s : Screen) :
    s.rows.flatten[64 * y + x]? = some (s.pixel x y) := by
  rw [rows_eq, ← List.flatMap_def, getElem?_flatMap_block s.length_row hx, List.getElem?_range hy, Option.bind_some,
    getElem?_row hx]

/-- The rows laid end to end are the pixels, so none is left out and none is shown twice. -/
theorem flatten_rows (s : Screen) : s.rows.flatten = s.pixels.toList := by
  refine List.ext_getElem? fun k => ?_
  by_cases hk : k < 2048
  · have hindex : 64 * (k / 64) + k % 64 = k := Nat.div_add_mod k 64
    have hrow := s.getElem?_flatten_rows (show k % 64 < 64 by omega) (show k / 64 < 32 by omega)
    rw [hindex] at hrow
    rw [hrow, pixel_eq_getElem s hk, Vector.getElem?_toList, Vector.getElem?_eq_getElem hk]
  · have hlen := s.length_flatten_rows
    rw [List.getElem?_eq_none (by omega), List.getElem?_eq_none (by rw [Vector.length_toList]; omega)]

/-! ## Text -/

/-- The characters of one row, with the end of the line. -/
def line (s : Screen) (y : Nat) : List Char := (s.row y).map symbol ++ ['\n']

theorem length_line (s : Screen) (y : Nat) : (s.line y).length = 65 := by simp [line, length_row]

theorem toList_text (s : Screen) : s.text.toList = (List.range 32).flatMap s.line := by
  rw [text, String.toList_ofList, textChars, rows_eq, List.flatMap_map]
  rfl

theorem length_text (s : Screen) : s.text.length = 2080 := by
  rw [← String.length_toList, toList_text, length_flatMap_block s.length_line, List.length_range]

theorem getElem?_text (hy : y < 32) {j : Nat} (hj : j < 65) (s : Screen) :
    s.text.toList[65 * y + j]? = (s.line y)[j]? := by
  rw [toList_text, getElem?_flatMap_block s.length_line hj, List.getElem?_range hy, Option.bind_some]

/-- Every line ends after 64 characters, the last one as well. -/
theorem text_lineEnd (s : Screen) (hy : y < 32) : s.text.toList[65 * y + 64]? = some '\n' := by
  have hlen : ((s.row y).map symbol).length = 64 := by rw [List.length_map, length_row]
  rw [getElem?_text hy (by decide), line, List.getElem?_append_right (by omega), hlen]
  rfl

theorem text_pixel (s : Screen) (hx : x < 64) (hy : y < 32) :
    s.text.toList[65 * y + x]? = some (symbol (s.pixel x y)) := by
  have hlen : ((s.row y).map symbol).length = 64 := by rw [List.length_map, length_row]
  rw [getElem?_text hy (by omega), line, List.getElem?_append_left (by omega), List.getElem?_map, getElem?_row hx,
    Option.map_some]

/-! ## Bytes -/

theorem length_rgb (s : Screen) : s.rgb.length = 6144 := by
  rw [rgb, length_flatMap_block (fun lit => List.length_replicate), Vector.length_toList]

/-- All three intensities of a lit pixel are full, and those of a dark one are zero. -/
theorem rgb_pixel (s : Screen) (hx : x < 64) (hy : y < 32) {j : Nat} (hj : j < 3) :
    s.rgb[3 * (64 * y + x) + j]? = some (if s.pixel x y then 255 else 0) := by
  rw [rgb, getElem?_flatMap_block (fun lit => List.length_replicate) hj, ← flatten_rows, getElem?_flatten_rows hx hy,
    Option.bind_some, List.getElem?_replicate, if_pos hj]

/-! ## Reading back -/

/-- The pixels that a text shows. -/
def ofText (text : String) : Vector Bool 2048 :=
  Vector.ofFn fun k => text.toList[65 * (k.val / 64) + k.val % 64]? == some '#'

/-- The pixels that bytes show. -/
def ofRgb (bytes : List UInt8) : Vector Bool 2048 := Vector.ofFn fun k => bytes[3 * k.val]? == some 255

/-- The text by itself determines the pixels, since the two symbols differ. -/
theorem ofText_text (s : Screen) : ofText s.text = s.pixels := by
  ext k hk
  rw [ofText, Vector.getElem_ofFn, s.text_pixel (by omega) (by omega), pixel_eq_getElem s hk]
  cases s.pixels[k] <;> rfl

/-- The bytes by themselves determine the pixels; the first intensity of each is enough. -/
theorem ofRgb_rgb (s : Screen) : ofRgb s.rgb = s.pixels := by
  ext k hk
  have hx : k % 64 < 64 ∧ k / 64 < 32 := by omega
  have hindex : 3 * (64 * (k / 64) + k % 64) + 0 = 3 * k := by omega
  have hj : 0 < 3 := by decide
  have hbyte := s.rgb_pixel hx.1 hx.2 hj
  rw [hindex, pixel_eq_getElem s hk] at hbyte
  rw [ofRgb, Vector.getElem_ofFn, hbyte]
  cases s.pixels[k] <;> rfl

/-- The text shows the pixels and not the mark: screens have the same text exactly if they have the same pixels. -/
theorem text_eq_iff : s.text = t.text ↔ s.pixels = t.pixels := by
  constructor
  · intro h
    rw [← ofText_text s, ← ofText_text t, h]
  · intro h
    simp only [text, textChars, rows, pixel, h]

theorem rgb_eq_iff : s.rgb = t.rgb ↔ s.pixels = t.pixels := by
  constructor
  · intro h
    rw [← ofRgb_rgb s, ← ofRgb_rgb t, h]
  · intro h
    rw [rgb, rgb, h]

/-- What stands where in the three pictures of a screen. -/
structure Depicted (s : Screen) : Prop where
  rowLengths : s.rows.map List.length = List.replicate 32 64
  rows : s.rows.flatten = s.pixels.toList
  textLength : s.text.length = 2080
  lineEnd : ∀ y : Fin 32, s.text.toList[65 * y.val + 64]? = some '\n'
  character : ∀ (x : Fin 64) (y : Fin 32), s.text.toList[65 * y.val + x.val]? = some (if s.pixel x y then '#' else '.')
  rgbLength : s.rgb.length = 6144
  intensity : ∀ (x : Fin 64) (y : Fin 32) (j : Fin 3),
    s.rgb[3 * (64 * y.val + x.val) + j.val]? = some (if s.pixel x y then 255 else 0)

theorem depicted (s : Screen) : Depicted s where
  rowLengths := by
    rw [rows_eq, List.map_map, List.eq_replicate_iff]
    simp [length_row]
  rows := s.flatten_rows
  textLength := s.length_text
  lineEnd y := s.text_lineEnd y.isLt
  character x y := s.text_pixel x.isLt y.isLt
  rgbLength := s.length_rgb
  intensity x y j := s.rgb_pixel x.isLt y.isLt j.isLt

/-- The pictures of a screen show its pixels, each in its place and nothing else. So the pixels can be read from
the text alone and from the bytes alone, and two screens have the same text exactly if they have the same bytes,
which is exactly if they have the same pixels. -/
theorem pictures_faithful (s t : Screen) :
    Depicted s ∧ ofText s.text = s.pixels ∧ ofRgb s.rgb = s.pixels ∧
      (s.text = t.text ↔ s.rgb = t.rgb) ∧ (s.rgb = t.rgb ↔ s.pixels = t.pixels) :=
  ⟨depicted s, ofText_text s, ofRgb_rgb s, text_eq_iff.trans rgb_eq_iff.symm, rgb_eq_iff⟩

end PacedChip8.Screen
