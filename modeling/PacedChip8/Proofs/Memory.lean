/-
Words that were written, and addresses that differ only above their low 12 bits. The memory cannot
tell these apart, neither for a byte nor for a word nor for a block; and a byte that no address of a
block reaches is left alone when the block is written. A block that is no longer than the memory is read
back as it was written, wherever it starts, since its bytes are all apart. One that ends within the memory
lies there in one piece (`bytes_write_of_le`), and only such a block is loaded.
-/
import PacedChip8.Memory.Basic
import Mathlib.Tactic

namespace PacedChip8.Memory

/-- Two bytes that are written one after the other are read back as a word, the first on the left. The second lands on
another byte also where the memory wraps. -/
theorem word_set_set (m : Memory) (a : UInt16) (high low : UInt8) :
    ((m.set a high).set (a + 1) low).word a = high.toUInt16 * 256 + low.toUInt16 := by
  have hne : (a + 1).toNat % 4096 ≠ a.toNat % 4096 := by
    have := a.toNat_lt
    rw [UInt16.toNat_add]
    simp only [UInt16.toNat_one]
    omega
  simp only [word, get_set, if_true, if_neg hne]

theorem toNat_word (m : Memory) (a : UInt16) : (m.word a).toNat = 256 * (m.get a).toNat + (m.get (a + 1)).toNat := by
  have hhigh := (m.get a).toNat_lt
  have hlow := (m.get (a + 1)).toNat_lt
  simp only [word, UInt16.toNat_add, UInt16.toNat_mul, UInt8.toNat_toUInt16, UInt16.reduceToNat]
  omega

theorem add_ofNat_succ (a : UInt16) (k : Nat) : a + UInt16.ofNat (k + 1) = a + 1 + UInt16.ofNat k := by
  rw [UInt16.ofNat_add, UInt16.add_assoc, UInt16.add_comm 1]
  rfl

theorem read_succ (m : Memory) (a : UInt16) (n : Nat) : m.read a (n + 1) = m.get a :: m.read (a + 1) n := by
  rw [read, List.range_succ_eq_map, List.map_cons, List.map_map]
  congr 1
  · rw [show UInt16.ofNat 0 = 0 from rfl, UInt16.add_zero]
  · exact List.map_congr_left fun k _ => by rw [Function.comp_apply, add_ofNat_succ]

theorem getElem?_read (m : Memory) (a : UInt16) (n k : Nat) :
    (m.read a n)[k]? = if k < n then some (m.get (a + UInt16.ofNat k)) else none := by
  rw [read, List.getElem?_map]
  split
  · rename_i hk
    rw [List.getElem?_range hk, Option.map_some]
  · rename_i hk
    rw [List.getElem?_eq_none (by simpa using hk), Option.map_none]

theorem length_read (m : Memory) (a : UInt16) (n : Nat) : (m.read a n).length = n := by
  simp [read]

/-- The place of an address and an offset can be found without the wrap at 65536, which is a multiple of 4096. -/
theorem get_add (m : Memory) (a : UInt16) (k : Nat) :
    m.get (a + UInt16.ofNat k) = m.bytes[(a.toNat + k) % 4096] := by
  have hmod : (a + UInt16.ofNat k).toNat % 4096 = (a.toNat + k) % 4096 := by
    rw [UInt16.toNat_add, UInt16.toNat_ofNat']
    omega
  simp only [get, hmod]

/-- The addresses reach the same byte. -/
def SameByte (a b : UInt16) : Prop := a.toNat % 4096 = b.toNat % 4096

variable {a b : UInt16}

theorem SameByte.refl (a : UInt16) : SameByte a a := rfl

theorem SameByte.add (h : SameByte a b) (n : UInt16) : SameByte (a + n) (b + n) := by
  unfold SameByte at *
  -- the sum wraps at 65536, a multiple of 4096
  rw [UInt16.toNat_add, UInt16.toNat_add]
  omega

theorem SameByte.sub (h : SameByte a b) (n : UInt16) : SameByte (a - n) (b - n) := by
  unfold SameByte at *
  rw [UInt16.toNat_sub, UInt16.toNat_sub]
  omega

theorem SameByte.get (h : SameByte a b) (m : Memory) : m.get a = m.get b := by
  unfold SameByte at h
  simp only [Memory.get, h]

theorem SameByte.set (h : SameByte a b) (m : Memory) (x : UInt8) : m.set a x = m.set b x := by
  unfold SameByte at h
  simp only [Memory.set, h]

theorem SameByte.word (h : SameByte a b) (m : Memory) : m.word a = m.word b := by
  unfold Memory.word
  rw [h.get, (h.add 1).get]

/-- Blocks that start at the same byte are the same, since the addresses stay together as they grow. -/
theorem SameByte.read (h : SameByte a b) (m : Memory) (n : Nat) : m.read a n = m.read b n := by
  unfold Memory.read
  apply List.map_congr_left
  intro k _
  exact (h.add _).get m

theorem SameByte.write (h : SameByte a b) (m : Memory) (bytes : List UInt8) : m.write a bytes = m.write b bytes := by
  induction bytes generalizing a b m with
  | nil => rfl
  | cons x bytes ih => rw [Memory.write, Memory.write, h.set, ih (h.add 1)]

/-- A block that does not reach a byte leaves it alone, of any length and from any start. -/
theorem get_write_of_not_sameByte (m : Memory) {bytes : List UInt8}
    (h : ∀ k < bytes.length, ¬SameByte (a + UInt16.ofNat k) b) : (m.write a bytes).get b = m.get b := by
  induction bytes generalizing a m with
  | nil => rfl
  | cons x bytes ih =>
    have hfirst : ¬SameByte a b := by simpa using h 0 (Nat.succ_pos _)
    have hrest : ∀ k < bytes.length, ¬SameByte (a + 1 + UInt16.ofNat k) b := by
      intro k hk
      rw [← add_ofNat_succ]
      exact h (k + 1) (Nat.succ_lt_succ hk)
    unfold SameByte at hfirst
    rw [write, ih _ hrest, get_set, if_neg hfirst]

/-- A block that is no longer than the memory does not overtake itself, so each of its bytes is there afterwards. -/
theorem get_write (m : Memory) (a : UInt16) {bytes : List UInt8} (hlen : bytes.length ≤ 4096) {k : Nat}
    (hk : k < bytes.length) : (m.write a bytes).get (a + UInt16.ofNat k) = bytes[k] := by
  induction bytes generalizing a m k with
  | nil => cases hk
  | cons x bytes ih =>
    rw [List.length_cons] at hlen hk
    cases k with
    | zero =>
      -- the rest of the block comes back to its start only after the whole memory
      have hrest : ∀ k < bytes.length, ¬SameByte (a + 1 + UInt16.ofNat k) a := by
        intro k hk
        unfold SameByte
        rw [UInt16.toNat_add, UInt16.toNat_add, UInt16.toNat_ofNat']
        simp only [UInt16.toNat_one]
        omega
      rw [show UInt16.ofNat 0 = 0 from rfl, UInt16.add_zero, write, get_write_of_not_sameByte _ hrest, get_set,
        if_pos rfl]
      rfl
    | succ k =>
      rw [write, add_ofNat_succ]
      exact ih _ _ (by omega) (by omega)

theorem bytes_write (m : Memory) (a : UInt16) {bytes : List UInt8} (hlen : bytes.length ≤ 4096) {k : Nat}
    (hk : k < bytes.length) : (m.write a bytes).bytes[(a.toNat + k) % 4096] = bytes[k] := by
  rw [← get_add]
  exact get_write m a hlen hk

theorem toNat_ofNat_mod {j : Nat} (hj : j < 4096) : (UInt16.ofNat j).toNat % 4096 = j := by
  rw [UInt16.toNat_ofNat']
  omega

theorem bytes_write_other (m : Memory) (a : UInt16) {bytes : List UInt8} {j : Nat} (hj : j < 4096)
    (h : ∀ k < bytes.length, (a.toNat + k) % 4096 ≠ j) : (m.write a bytes).bytes[j] = m.bytes[j] := by
  have hmod := toNat_ofNat_mod hj
  have hother : ∀ k < bytes.length, ¬SameByte (a + UInt16.ofNat k) (UInt16.ofNat j) := by
    intro k hk hsame
    unfold SameByte at hsame
    rw [hmod, UInt16.toNat_add, UInt16.toNat_ofNat'] at hsame
    exact h k hk (by omega)
  have hget := get_write_of_not_sameByte m hother
  simpa only [get, hmod] using hget

/-- A block that ends within the memory lies in one piece, so that a place is in it exactly if it is neither before
its start nor behind its end. -/
theorem bytes_write_of_le (m : Memory) {bytes : List UInt8} (hfit : a.toNat + bytes.length ≤ 4096) {j : Nat}
    (hj : j < 4096) :
    (m.write a bytes).bytes[j] = (if a.toNat ≤ j then bytes[j - a.toNat]? else none).getD m.bytes[j] := by
  by_cases hin : a.toNat ≤ j ∧ j < a.toNat + bytes.length
  · obtain ⟨hle, hlt⟩ := hin
    have hk : j - a.toNat < bytes.length := by omega
    have hplace : (a.toNat + (j - a.toNat)) % 4096 = j := by omega
    have hbyte := bytes_write m a (by omega) hk
    simp only [hplace] at hbyte
    rw [if_pos hle, List.getElem?_eq_getElem hk, Option.getD_some, hbyte]
  · have hout : (if a.toNat ≤ j then bytes[j - a.toNat]? else none) = none := by
      split
      · exact List.getElem?_eq_none (by omega)
      · rfl
    rw [hout, Option.getD_none]
    exact bytes_write_other m a hj fun k hk => by omega

theorem load_of_le (m : Memory) {bytes : List UInt8} (hfit : a.toNat + bytes.length ≤ 4096) :
    m.load a bytes = .ok (m.write a bytes) :=
  if_pos hfit

/-- A block that would run over the end is refused, and the refusal tells where it was to start and how long it is. -/
theorem load_of_lt (m : Memory) {bytes : List UInt8} (hrun : 4096 < a.toNat + bytes.length) :
    m.load a bytes = .error ⟨a, bytes.length⟩ :=
  if_neg (Nat.not_le.2 hrun)

/-- What was written can be read back from where it was written, also across the end of the memory. -/
theorem read_write (m : Memory) (a : UInt16) {bytes : List UInt8} (hlen : bytes.length ≤ 4096) :
    (m.write a bytes).read a bytes.length = bytes := by
  refine List.ext_getElem? fun k => ?_
  rw [getElem?_read]
  split
  · rename_i hk
    rw [get_write m a hlen hk, List.getElem?_eq_getElem hk]
  · rename_i hk
    rw [List.getElem?_eq_none (Nat.not_lt.1 hk)]

/-- Writing back what was read changes nothing, of any length: where a block overtakes itself, it does so with the
same bytes. -/
theorem write_read (m : Memory) (a : UInt16) (n : Nat) : m.write a (m.read a n) = m := by
  induction n generalizing a with
  | zero => rfl
  | succ n ih =>
    have hset : m.set a (m.get a) = m := by
      rw [set, get, Vector.set_getElem_self]
    rw [read_succ, write, hset, ih]

theorem write_write (m : Memory) (a : UInt16) {bytes : List UInt8} (hlen : bytes.length ≤ 4096) :
    (m.write a bytes).write a bytes = m.write a bytes := by
  have hback := write_read (m.write a bytes) a bytes.length
  rwa [read_write m a hlen] at hback

/-- Memories are equal if no address tells them apart. -/
theorem ext_get {m n : Memory} (h : ∀ a, m.get a = n.get a) : m = n := by
  rcases m with ⟨m⟩
  rcases n with ⟨n⟩
  congr 1
  refine Vector.ext fun k hk => ?_
  simpa only [get, toNat_ofNat_mod hk] using h (UInt16.ofNat k)

end PacedChip8.Memory
