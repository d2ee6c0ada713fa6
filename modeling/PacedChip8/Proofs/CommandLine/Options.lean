/-
What a command line asks for. Arguments without `--` are spelled items: settings, each in one argument or in two, the
wish for no window, and operands (`Spells`). They are accepted exactly if there is one operand and no setting more
than once, all of them with values that can be read, and then every part of the options is what the item for it says,
or its default (`ofArguments_eq_ok_iff`). Neither the order of the items nor their spelling is part of that.
-/
import PacedChip8.CommandLine.Options
import PacedChip8.Proofs.Fault
import Mathlib.Data.List.Perm.Basic
import Mathlib.Data.List.TakeWhile
import Mathlib.Tactic

namespace PacedChip8.CommandLine

/-! ## Items -/

def Setting.name : Setting → String
  | scale => "scale"
  | frameBudget => "frame-budget"
  | frames => "frames"
  | seed => "seed"

/-- What a command line consists of. -/
inductive Item where
  | setting (s : Setting) (value : String)
  | headless
  | operand (path : String)
  deriving DecidableEq

/-- The text can stand by itself without being taken for an option. -/
def Plain (text : String) : Prop := text = "-" ∨ text.toList.head? ≠ some '-'

instance (text : String) : Decidable (Plain text) := inferInstanceAs (Decidable (_ ∨ _))

/-- The arguments are a spelling of the items. -/
inductive Spells : List Item → List String → Prop
  | nil : Spells [] []
  | apart {s : Setting} {value : String} {items : List Item} {args : List String} :
      Plain value → Spells items args → Spells (.setting s value :: items) (("--" ++ s.name) :: value :: args)
  | joined {s : Setting} {value : String} {items : List Item} {args : List String} :
      Spells items args → Spells (.setting s value :: items) (("--" ++ s.name ++ "=" ++ value) :: args)
  | headless {items : List Item} {args : List String} :
      Spells items args → Spells (.headless :: items) ("--headless" :: args)
  | operand {path : String} {items : List Item} {args : List String} :
      Plain path → Spells items args → Spells (.operand path :: items) (path :: args)

/-- The values of a setting. -/
def values (s : Setting) (items : List Item) : List String :=
  items.filterMap fun
    | .setting t value => if t = s then some value else none
    | _ => none

def operands (items : List Item) : List String :=
  items.filterMap fun
    | .operand path => some path
    | _ => none

/-- A path that a program can have. -/
def path? (text : String) : Option String := if text = "" then none else some text

/-- There is no value and no result, or there is one value, and the result is what is read from it. -/
def Once {α : Type} (read? : String → Option α) (values : List String) (result : Option α) : Prop :=
  values.map read? = result.toList.map some

/-- What the items say of the options. -/
structure Asks (items : List Item) (o : Options) : Prop where
  rom : Once path? (operands items) (some o.rom)
  scale : ∃ scale, Once number32? (values .scale items) scale ∧ o.scale = scale.getD Window.defaultScale
  budget : ∃ budget, Once number32? (values .frameBudget items) budget ∧ o.config.budget = budget.getD standardBudget
  frames : ∃ frames, Once number32? (values .frames items) frames ∧ o.frames = frames.getD standardFrames
  seed : Once number64? (values .seed items) o.config.seed
  headless : items.count .headless = o.headless.toNat

variable {items items' : List Item} {args args' : List String} {arg value : String} {s : Setting} {i : Item}
  {g g' : Given} {o : Options} {r : Refusal} {rest : List Char} {α β ε : Type}

@[simp] theorem values_setting (t : Setting) : values s (.setting t value :: items) =
    if t = s then value :: values s items else values s items := by
  unfold values
  rw [List.filterMap_cons]
  split <;> simp_all

@[simp] theorem values_headless : values s (.headless :: items) = values s items := rfl

@[simp] theorem values_operand : values s (.operand value :: items) = values s items := rfl

@[simp] theorem operands_setting : operands (.setting s value :: items) = operands items := rfl

@[simp] theorem operands_headless : operands (.headless :: items) = operands items := rfl

@[simp] theorem operands_operand : operands (.operand value :: items) = value :: operands items := rfl

/-! ## Single arguments -/

namespace Argument

theorem ofName?_eq_some_iff {name : String} : Setting.ofName? name = some s ↔ name = s.name := by
  constructor
  · intro h
    unfold Setting.ofName? at h
    split at h <;> cases h <;> rfl
  · rintro rfl
    cases s <;> rfl

theorem equals_notMem_name (s : Setting) : '=' ∉ s.name.toList := by
  cases s <;> decide

theorem ofLong_name (h : '=' ∉ rest) : ofLong rest = ofName (String.ofList rest) := by
  have hall : ∀ c ∈ rest, (c != '=') = true := fun c hc => bne_iff_ne.2 fun hc' => h (hc' ▸ hc)
  rw [ofLong, List.takeWhile_eq_self_iff.2 hall, List.dropWhile_eq_nil_iff.2 hall]

/-- The first equals sign separates the name from the value, which may have others in it. -/
theorem ofLong_assignment {name : List Char} (h : '=' ∉ name) (value : List Char) :
    ofLong (name ++ '=' :: value) = ofAssignment (String.ofList name) (String.ofList value) := by
  have hall : ∀ c ∈ name, (c != '=') = true := fun c hc => bne_iff_ne.2 fun hc' => h (hc' ▸ hc)
  have htake : (name ++ '=' :: value).takeWhile (· != '=') = name := by
    rw [List.takeWhile_append_of_pos hall, List.takeWhile_cons_of_neg (by decide), List.append_nil]
  have hdrop : (name ++ '=' :: value).dropWhile (· != '=') = '=' :: value := by
    rw [List.dropWhile_append_of_pos hall, List.dropWhile_cons_of_neg (by decide)]
  rw [ofLong, htake, hdrop]

theorem ofString_long (h : arg.toList = '-' :: '-' :: rest) (hne : rest ≠ []) : ofString arg = ofLong rest := by
  unfold ofString
  rw [h]
  cases rest with
  | nil => exact absurd rfl hne
  | cons => rfl

theorem ofString_plain (h : Plain arg) : ofString arg = .operand arg := by
  rcases h with rfl | h
  · decide
  · unfold ofString
    split
    case h_6 => rfl
    all_goals
      rename_i hl
      rw [hl] at h
      exact absurd rfl h

theorem ofString_name (s : Setting) : ofString ("--" ++ s.name) = .setting s := by
  cases s <;> decide

/-- A joined value is taken as it is, also if it starts with a dash. -/
theorem ofString_assignment (s : Setting) (value : String) :
    ofString ("--" ++ s.name ++ "=" ++ value) = .assigned s value := by
  have h : ("--" ++ s.name ++ "=" ++ value).toList = '-' :: '-' :: (s.name.toList ++ '=' :: value.toList) := by
    simp only [String.toList_append, List.append_assoc]
    rfl
  rw [ofString_long h (by simp), ofLong_assignment (equals_notMem_name s), String.ofList_toList, String.ofList_toList,
    ofAssignment, ofName?_eq_some_iff.2 rfl]

/-- What an argument can be. -/
inductive Shape (arg : String) : Argument → Prop
  | endOfOptions : arg = "--" → Shape arg .endOfOptions
  | headless : arg = "--headless" → Shape arg .headless
  | setting {s : Setting} : arg = "--" ++ s.name → Shape arg (.setting s)
  | assigned {s : Setting} {value : String} : arg = "--" ++ s.name ++ "=" ++ value → Shape arg (.assigned s value)
  | operand : Plain arg → Shape arg (.operand arg)
  | version : Shape arg .version
  | help : Shape arg .help
  | unknown : Shape arg .unknown

theorem shape_ofName {name : String} (h : arg = "--" ++ name) : Shape arg (ofName name) := by
  unfold ofName
  split
  · exact .headless h
  · exact .version
  · exact .help
  · split
    · rename_i s hs
      exact .setting (ofName?_eq_some_iff.1 hs ▸ h)
    · exact .unknown

theorem shape_ofAssignment {name : String} (h : arg = "--" ++ name ++ "=" ++ value) :
    Shape arg (ofAssignment name value) := by
  unfold ofAssignment
  split
  · rename_i s hs
    exact .assigned (ofName?_eq_some_iff.1 hs ▸ h)
  · exact .unknown

theorem shape_ofLong (h : arg.toList = '-' :: '-' :: rest) : Shape arg (ofLong rest) := by
  by_cases heq : '=' ∈ rest
  · obtain ⟨name, value, rfl, hname⟩ := List.eq_append_cons_of_mem heq
    rw [ofLong_assignment hname]
    refine shape_ofAssignment ?_
    rw [← String.toList_inj, h]
    simp
  · rw [ofLong_name heq]
    refine shape_ofName ?_
    rw [← String.toList_inj, h]
    simp

/-- An argument has the text that its reading tells; of one that is refused nothing is said. -/
theorem shape_ofString (arg : String) : Shape arg (ofString arg) := by
  unfold ofString
  split
  case h_1 h => exact .endOfOptions (String.toList_inj.1 h)
  case h_2 h => exact shape_ofLong h
  case h_3 => exact .version
  case h_4 => exact .help
  case h_5 => exact .unknown
  case h_6 hmore =>
    refine .operand (or_iff_not_imp_right.2 fun hdash => ?_)
    obtain ⟨text, hl⟩ := List.head?_eq_some_iff.1 (not_not.1 hdash)
    cases text with
    | nil => exact String.toList_inj.1 hl
    | cons c text => exact absurd hl (hmore c text)

end Argument

/-! ## Lists of arguments -/

namespace Given

/-- Takes down an item. -/
def note (g : Given) : Item → Except Refusal Given
  | .setting s value => g.set s value
  | .headless => g.setHeadless
  | .operand path => g.setRom path

theorem setRom_eq (g : Given) (path : String) :
    g.setRom path = (fill g.rom (path? path)).map fun a => { g with rom := a } := rfl

/-- Which way the items are spelled makes no difference to the reading, nor to what is read after them. -/
theorem read_append (h : Spells items args) (g : Given) (later : List String) :
    g.read (args ++ later) = (items.foldlM note g).bind (·.read later) := by
  induction h generalizing g with
  | nil => rfl
  | @apart s value items args hplain _ ih =>
    rw [List.cons_append, List.cons_append, read, Argument.ofString_name, List.foldlM_cons]
    simp only [Argument.ofString_plain hplain, ih]
    exact (bind_assoc (g.set s value) _ _).symm
  | @joined s value items args _ ih =>
    rw [List.cons_append, read, Argument.ofString_assignment, List.foldlM_cons]
    simp only [ih]
    exact (bind_assoc (g.set s value) _ _).symm
  | headless _ ih =>
    rw [List.cons_append, read, List.foldlM_cons]
    simp only [show Argument.ofString "--headless" = .headless by decide, ih]
    exact (bind_assoc g.setHeadless _ _).symm
  | @operand path items args hplain _ ih =>
    rw [List.cons_append, read, Argument.ofString_plain hplain, List.foldlM_cons]
    simp only [ih]
    exact (bind_assoc (g.setRom path) _ _).symm

theorem read_spelled (h : Spells items args) (g : Given) : g.read args = items.foldlM note g := by
  have happend := read_append h g []
  rw [List.append_nil] at happend
  rw [happend]
  cases items.foldlM note g <;> rfl

/-- An argument that could be an option is not taken for the value of the setting before it. -/
theorem read_dashed (hdash : ¬Plain value) (s : Setting) (g : Given) (later : List String) :
    g.read (("--" ++ s.name) :: value :: later) = .error .misuse := by
  have hshape := Argument.shape_ofString value
  rw [read, Argument.ofString_name]
  simp only
  generalize Argument.ofString value = a at hshape
  cases hshape with
  | operand hplain => exact absurd hplain hdash
  | _ => rfl

/-- Without an end of options, arguments that can be read are a spelling of some items. -/
theorem exists_spelled (h : g.read args = .ok g') (hend : "--" ∉ args) : ∃ items, Spells items args := by
  have later {x : Except Refusal Given} {rest : List String} (hx : (x.bind fun g => g.read rest) = .ok g')
      (hend : "--" ∉ rest) (ih : ∀ g : Given, g.read rest = .ok g' → "--" ∉ rest → ∃ items, Spells items rest) :
      ∃ items, Spells items rest := by
    obtain ⟨g₁, -, hx⟩ := bind_eq_ok.1 hx
    exact ih g₁ hx hend
  fun_induction read g args
  case case1 => exact ⟨[], .nil⟩
  case case2 arg rest harg =>
    have hshape := harg ▸ Argument.shape_ofString arg
    cases hshape with
    | endOfOptions harg => exact absurd (harg ▸ List.mem_cons_self) hend
  case case6 arg rest harg ih =>
    obtain ⟨items, hitems⟩ := later h (List.not_mem_of_not_mem_cons hend) ih
    have hshape := harg ▸ Argument.shape_ofString arg
    cases hshape with
    | headless harg =>
      subst harg
      exact ⟨_, .headless hitems⟩
  case case7 arg rest path harg ih =>
    obtain ⟨items, hitems⟩ := later h (List.not_mem_of_not_mem_cons hend) ih
    have hshape := harg ▸ Argument.shape_ofString arg
    cases hshape with
    | operand hplain => exact ⟨_, .operand hplain hitems⟩
  case case8 arg rest s value harg ih =>
    obtain ⟨items, hitems⟩ := later h (List.not_mem_of_not_mem_cons hend) ih
    have hshape := harg ▸ Argument.shape_ofString arg
    cases hshape with
    | assigned harg =>
      subst harg
      exact ⟨_, .joined hitems⟩
  case case10 arg s harg next rest value hnext ih =>
    obtain ⟨items, hitems⟩ := later h (List.not_mem_of_not_mem_cons (List.not_mem_of_not_mem_cons hend)) ih
    have hshape := harg ▸ Argument.shape_ofString arg
    have hshape' := hnext ▸ Argument.shape_ofString next
    cases hshape with
    | setting harg =>
      subst harg
      cases hshape' with
      | operand hplain => exact ⟨_, .apart hplain hitems⟩
  all_goals cases h

/-- One value at most was given, in the place already or now, and the result is what is read from it. -/
def Adds (read? : String → Option α) (place : Option α) (values : List String) (result : Option α) : Prop :=
  place.toList.map some ++ values.map read? = result.toList.map some

theorem adds_nil {read? : String → Option α} {place result : Option α} :
    Adds read? place [] result ↔ place = result := by
  cases place <;> cases result <;> simp [Adds]

theorem adds_cons {read? : String → Option α} {place result : Option α} {values : List String} :
    Adds read? place (value :: values) result ↔
      ∃ a, fill place (read? value) = .ok a ∧ Adds read? a values result := by
  cases place with
  | some b => cases result <;> simp [Adds, fill]
  | none => cases hv : read? value <;> cases result <;> simp [Adds, fill, hv]

theorem exists_map_eq_ok {x : Except ε α} {f : α → β} {P : β → Prop} :
    (∃ b, x.map f = .ok b ∧ P b) ↔ ∃ a, x = .ok a ∧ P (f a) := by
  cases x <;> simp [Except.map]

/-- What the items make of what was given before. -/
@[mk_iff]
structure Notes (g : Given) (items : List Item) (g' : Given) : Prop where
  rom : Adds path? g.rom (operands items) g'.rom
  scale : Adds number32? g.scale (values .scale items) g'.scale
  frameBudget : Adds number32? g.frameBudget (values .frameBudget items) g'.frameBudget
  frames : Adds number32? g.frames (values .frames items) g'.frames
  seed : Adds number64? g.seed (values .seed items) g'.seed
  headless : g.headless.toNat + items.count .headless = g'.headless.toNat

theorem notes_nil : Notes g [] g' ↔ g = g' := by
  rcases g with ⟨_, _, _, _, _, a⟩
  rcases g' with ⟨_, _, _, _, _, b⟩
  have htoNat : a.toNat = b.toNat ↔ a = b := by cases a <;> cases b <;> decide
  simp [notes_iff, values, operands, adds_nil, htoNat]

/-- One item at a time: the first is taken down, and the others are read from there. -/
theorem notes_cons : Notes g (i :: items) g' ↔ ∃ g₁, g.note i = .ok g₁ ∧ Notes g₁ items g' := by
  cases i with
  | headless =>
    rcases g with ⟨_, _, _, _, _, _ | _⟩
    · simp [note, setHeadless, notes_iff, Nat.add_comm]
    · -- the items cannot ask for this twice
      have htwice (n : Nat) (b : Bool) : 1 + (n + 1) ≠ b.toNat := by cases b <;> simp
      simp [note, setHeadless, notes_iff, htwice]
  | operand path =>
    simp only [note, setRom_eq, exists_map_eq_ok, notes_iff, operands_operand, values_operand, adds_cons, reduceCtorEq,
      not_false_eq_true, List.count_cons_of_ne, ne_eq]
    grind
  | setting s value =>
    cases s
    all_goals
      simp only [note, set, exists_map_eq_ok, notes_iff, operands_setting, values_setting, adds_cons, reduceCtorEq,
        if_false, if_true, not_false_eq_true, List.count_cons_of_ne, ne_eq]
      grind

/-- Items can be taken down exactly if they give every part at most once, and then that part is what they say. -/
theorem notes_spec : items.foldlM note g = .ok g' ↔ Notes g items g' := by
  induction items generalizing g with
  | nil => exact Except.ok.injEq g g' ▸ notes_nil.symm
  | cons i items ih =>
    rw [List.foldlM_cons, notes_cons]
    simp only [← ih]
    exact bind_eq_ok

theorem fill_error {place value : Option α} (h : fill place value = .error r) : r = .misuse := by
  unfold fill at h
  split at h <;> cases h
  rfl

theorem note_error (h : g.note i = .error r) : r = .misuse := by
  have hmap {α : Type} {place value : Option α} {f : Option α → Given} (hf : (fill place value).map f = .error r) :
      r = .misuse := by
    cases hp : fill place value <;> rw [hp] at hf <;> cases hf
    exact fill_error hp
  cases i with
  | headless =>
    simp only [note, setHeadless] at h
    split at h <;> cases h
    rfl
  | operand path => exact hmap h
  | setting s value => cases s <;> exact hmap h

theorem notes_error (h : items.foldlM note g = .error r) : r = .misuse := by
  induction items generalizing g with
  | nil => cases h
  | cons i items ih =>
    rw [List.foldlM_cons] at h
    rcases hi : g.note i with e | g₁
    · rw [hi] at h
      cases h
      exact note_error hi
    · rw [hi] at h
      exact ih h

/-- Options need an operand, and anything else may be missing. -/
theorem options_eq_ok (h : g.options = .ok o) : g.rom = some o.rom ∧ o.scale = g.scale.getD Window.defaultScale ∧
    o.config.budget = g.frameBudget.getD standardBudget ∧ o.frames = g.frames.getD standardFrames ∧
    o.config.seed = g.seed ∧ o.headless = g.headless := by
  unfold options at h
  split at h <;> cases h
  exact ⟨‹_›, rfl, rfl, rfl, rfl, rfl⟩

end Given

/-! ## Options -/

/-- Arguments are accepted exactly if their items say what the options are. -/
theorem ofArguments_eq_ok_iff (h : Spells items args) : Options.ofArguments args = .ok o ↔ Asks items o := by
  have hread : Options.ofArguments args = .ok o ↔ ∃ g, Given.Notes .nothing items g ∧ g.options = .ok o := by
    simp only [← Given.notes_spec, ← Given.read_spelled h]
    exact bind_eq_ok
  rw [hread]
  constructor
  · rintro ⟨g, hg, hoptions⟩
    obtain ⟨hrom, hscale, hbudget, hframes, hseed, hheadless⟩ := Given.options_eq_ok hoptions
    exact {
      rom := hrom ▸ hg.rom
      scale := ⟨_, hg.scale, hscale⟩
      budget := ⟨_, hg.frameBudget, hbudget⟩
      frames := ⟨_, hg.frames, hframes⟩
      seed := hseed ▸ hg.seed
      headless := by rw [hheadless, ← hg.headless]; exact (Nat.zero_add _).symm }
  · rintro ⟨hrom, ⟨scale, hscale, hscale'⟩, ⟨budget, hbudget, hbudget'⟩, ⟨frames, hframes, hframes'⟩, hseed, hheadless⟩
    refine ⟨⟨some o.rom, scale, budget, frames, o.config.seed, o.headless⟩,
      ⟨hrom, hscale, hbudget, hframes, hseed, (Nat.zero_add _).trans hheadless⟩, ?_⟩
    rw [Given.options, ← hscale', ← hbudget', ← hframes']

/-- Spelled items ask neither for help nor for the version, so a refusal of them is a misuse. -/
theorem ofArguments_error (h : Spells items args) (hr : Options.ofArguments args = .error r) : r = .misuse := by
  rw [Options.ofArguments, Given.read_spelled h] at hr
  rcases hg : items.foldlM Given.note Given.nothing with e | g
  · rw [hg] at hr
    cases hr
    exact Given.notes_error hg
  · rw [hg] at hr
    have hoptions : g.options = .error r := hr
    unfold Given.options at hoptions
    split at hoptions <;> cases hoptions
    rfl

/-- After items a value that could be an option has to be joined to its setting. -/
theorem ofArguments_dashed (h : Spells items args) (hdash : ¬Plain value) (s : Setting) (later : List String) :
    Options.ofArguments (args ++ ("--" ++ s.name) :: value :: later) = .error .misuse := by
  rw [Options.ofArguments, Given.read_append h]
  rcases hnotes : items.foldlM Given.note Given.nothing with e | g
  · rw [Given.notes_error hnotes]
    rfl
  · show ((g.read _).bind _) = _
    rw [Given.read_dashed hdash]
    rfl

theorem Once.perm {read? : String → Option α} {values values' : List String} {result : Option α}
    (h : Once read? values result) (hp : values.Perm values') : Once read? values' result := by
  have hmap := hp.map read?
  rw [show values.map read? = _ from h] at hmap
  cases result with
  | none => exact List.perm_nil.1 hmap.symm
  | some a => exact List.perm_singleton.1 hmap.symm

/-- The order of the items makes no difference. -/
theorem Asks.perm (h : Asks items o) (hp : items.Perm items') : Asks items' o where
  rom := h.rom.perm (hp.filterMap _)
  scale := h.scale.imp fun _ hs => ⟨hs.1.perm (hp.filterMap _), hs.2⟩
  budget := h.budget.imp fun _ hs => ⟨hs.1.perm (hp.filterMap _), hs.2⟩
  frames := h.frames.imp fun _ hs => ⟨hs.1.perm (hp.filterMap _), hs.2⟩
  seed := h.seed.perm (hp.filterMap _)
  headless := by rw [← h.headless, hp.count_eq]

/-- Neither the order of the items nor their spelling makes a difference. -/
theorem ofArguments_perm (h : Spells items args) (h' : Spells items' args') (hp : items.Perm items') :
    Options.ofArguments args = Options.ofArguments args' := by
  rcases ho : Options.ofArguments args with e | o
  · rcases ho' : Options.ofArguments args' with e' | o'
    · rw [ofArguments_error h ho, ofArguments_error h' ho']
    · have hasks := ((ofArguments_eq_ok_iff h').1 ho').perm hp.symm
      rw [(ofArguments_eq_ok_iff h).2 hasks] at ho
      cases ho
  · exact ((ofArguments_eq_ok_iff h').2 (((ofArguments_eq_ok_iff h).1 ho).perm hp)).symm

end PacedChip8.CommandLine
