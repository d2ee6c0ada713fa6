/-
Lines of the log that can be told apart. The line about an executed instruction holds all that it was made from
(`text_executing_inj`): its address ends at the first colon, its other numerals have fixed widths, and the
mnemonic between them is known from the word.
-/
import PacedChip8.Instruction.Decode
import PacedChip8.Log
import PacedChip8.Proofs.Numeral

namespace PacedChip8.Log

open Numeral

/-! ## Texts from parts -/

variable {s s' t t' : String} {c : Char} {width : Nat}

theorem append_inj_of_length (hlen : t.length = t'.length) (h : s ++ t = s' ++ t') : s = s' ∧ t = t' := by
  simp only [← String.toList_inj, ← String.length_toList, String.toList_append] at *
  exact List.append_inj' h hlen

theorem append_inj_of_length_left (hlen : s.length = s'.length) (h : s ++ t = s' ++ t') : s = s' ∧ t = t' := by
  simp only [← String.toList_inj, ← String.length_toList, String.toList_append] at *
  exact List.append_inj h hlen

/-- A character that is in neither of the first parts ends both at the same place. -/
theorem append_inj_of_notMem {l l' m m' : List Char} (hl : c ∉ l) (hl' : c ∉ l') (h : l ++ c :: m = l' ++ c :: m') :
    l = l' ∧ m = m' := by
  rcases List.append_eq_append_iff.1 h with ⟨d, rfl, hd⟩ | ⟨d, rfl, hd⟩
  · cases d with
    | nil => exact ⟨(List.append_nil _).symm, (List.cons.inj hd).2⟩
    | cons e d => exact absurd (by simp [(List.cons.inj hd).1]) hl'
  · cases d with
    | nil => exact ⟨List.append_nil _, (List.cons.inj hd).2.symm⟩
    | cons e d => exact absurd (by simp [(List.cons.inj hd).1]) hl

/-- An address in front of a colon can be told from what follows. -/
theorem address_colon_inj {a a' : UInt16} (h : address a ++ (": " ++ t) = address a' ++ (": " ++ t')) :
    a = a' ∧ t = t' := by
  rw [← String.toList_inj] at h
  simp only [String.toList_append] at h
  obtain ⟨ha, h⟩ := append_inj_of_notMem (colon_notMem_address a) (colon_notMem_address a') h
  exact ⟨address_inj.1 (String.toList_inj.1 ha), String.toList_inj.1 (List.cons.inj h).2⟩

/-- Parts of one length can be told apart whatever stands between them. -/
theorem intercalate_inj {sep : String} {l m : List String} (hl : ∀ s ∈ l, s.length = width)
    (hm : ∀ s ∈ m, s.length = width) (hlen : l.length = m.length) (h : sep.intercalate l = sep.intercalate m) :
    l = m := by
  induction l generalizing m with
  | nil => exact (List.eq_nil_of_length_eq_zero hlen.symm).symm
  | cons s l ih =>
    obtain ⟨t, m, rfl⟩ := List.exists_cons_of_length_eq_add_one hlen.symm
    obtain ⟨hs, hrest⟩ := List.forall_mem_cons.1 hl
    obtain ⟨ht, hrest'⟩ := List.forall_mem_cons.1 hm
    have hcount : l.length = m.length := by simpa using hlen
    by_cases hnil : l = []
    · obtain rfl : m = [] := List.eq_nil_of_length_eq_zero (by rw [← hcount, hnil, List.length_nil])
      rw [hnil, String.intercalate_singleton, String.intercalate_singleton] at h
      rw [hnil, h]
    · have hnil' : m ≠ [] := fun hm => hnil (List.eq_nil_of_length_eq_zero (by rw [hcount, hm, List.length_nil]))
      rw [String.intercalate_cons_of_ne_nil hnil, String.intercalate_cons_of_ne_nil hnil', String.append_assoc,
        String.append_assoc] at h
      obtain ⟨hst, h⟩ := append_inj_of_length_left (hs.trans ht.symm) h
      rw [hst, ih hrest hrest' hcount ((String.append_right_inj sep).1 h)]

/-! ## Lines -/

namespace Entry

/-- What stands in the log: how much it matters, and the text. -/
def line (e : Entry) : Level × String := (e.level, e.text)

/-- Whether the entry is about a word that was fetched. -/
def ofFetch : Entry → Bool
  | executing .. | unknownWord .. => true
  | _ => false

variable {pc pc' word word' index index' : UInt16} {v v' : Vector UInt8 16} {i : Instruction}

theorem text_executing : (executing pc word i v index).text =
    address pc ++ ": " ++ hexUpper 4 word.toNat ++ " " ++ i.text ++ " v" ++ registersText v ++ " i" ++
      hexUpper 4 index.toNat := rfl

theorem line_emptyReturn : (emptyReturn pc).line = (.debug, "return with an empty stack at " ++ address pc) := rfl

theorem line_fullCall : (fullCall pc).line = (.debug, "call to " ++ address pc ++ " with a full stack") := rfl

theorem line_fullCall_inj : (fullCall pc).line = (fullCall pc').line ↔ pc = pc' := by
  rw [line_fullCall, line_fullCall, Prod.mk.injEq, String.append_left_inj, String.append_right_inj, address_inj]
  exact and_iff_right rfl

theorem line_emptyReturn_ne (pc pc' : UInt16) : (emptyReturn pc).line ≠ (fullCall pc').line := by
  intro h
  have hfirst := congrArg (fun l => l.2.toList.head?) h
  simp only [line_emptyReturn, line_fullCall, String.toList_append] at hfirst
  have hchar : 'r' = 'c' := Option.some.inj hfirst
  exact absurd hchar (by decide)

/-- The registers can be read from their text, two digits each. -/
theorem registersText_inj (h : registersText v = registersText v') : v = v' := by
  unfold registersText at h
  rw [String.append_left_inj, String.append_right_inj] at h
  have hwidth (v : Vector UInt8 16) : ∀ s ∈ v.toList.map fun b => hexUpper 2 b.toNat, s.length = 2 := by
    intro s hs
    obtain ⟨b, -, rfl⟩ := List.mem_map.1 hs
    exact length_hexUpper (by decide) b.toNat_lt
  have hparts := intercalate_inj (hwidth v) (hwidth v') (by simp) h
  have hinj : Function.Injective fun b : UInt8 => hexUpper 2 b.toNat :=
    fun _ _ hb => UInt8.toNat_inj.1 (hexUpper_inj.1 hb)
  exact Vector.toList_inj.1 (List.map_injective_iff.2 hinj hparts)

/-- Everything that the line about an executed instruction is made from can be read off its text. -/
theorem text_executing_inj :
    (executing pc word (.decode word) v index).text = (executing pc' word' (.decode word') v' index').text ↔
      pc = pc' ∧ word = word' ∧ v = v' ∧ index = index' := by
  constructor
  · intro h
    have hwidth (w w' : UInt16) : (hexUpper 4 w.toNat).length = (hexUpper 4 w'.toNat).length := by
      rw [length_hexUpper (by decide) w.toNat_lt, length_hexUpper (by decide) w'.toNat_lt]
    rw [text_executing, text_executing] at h
    -- from the right, the index register
    obtain ⟨h, hindex⟩ := append_inj_of_length (hwidth index index') h
    rw [String.append_left_inj] at h
    -- from the left, the address up to its colon, and the word, which gives the instruction
    simp only [String.append_assoc] at h
    obtain ⟨hpc, h⟩ := address_colon_inj h
    obtain ⟨hword, h⟩ := append_inj_of_length_left (hwidth word word') h
    obtain rfl : word = word' := UInt16.toNat_inj.1 (hexUpper_inj.1 hword)
    simp only [String.append_right_inj] at h
    exact ⟨hpc, rfl, registersText_inj h, UInt16.toNat_inj.1 (hexUpper_inj.1 hindex)⟩
  · rintro ⟨rfl, rfl, rfl, rfl⟩
    rfl

end Entry
end PacedChip8.Log
