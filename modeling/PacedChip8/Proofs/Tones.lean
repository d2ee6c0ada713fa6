/-
Tones and their families of handles. Copies of one handle, and copies of these, are a family, which is the handles
that refer to one tone (`Describes.family_iff`). What a handle tells is what the last switch of its family has set,
also if the handle is younger than that; switches of other families do not count. Handles refer to a tone for good,
so a history can be read with the owners that it ends with (`last?_about_concat`).
-/
import Mathlib.Logic.Relation
import PacedChip8.Proofs.History
import PacedChip8.Proofs.Log
import PacedChip8.Tones

namespace PacedChip8.Tones

open Log (Entry Level)

/-- What can happen to tones: a new one, another handle, a switch. -/
inductive Event where
  | create
  | copy (h : Nat)
  | switch (h : Nat) (sounding : Bool)
  deriving DecidableEq

namespace Event

/-- The handle that the event goes through. -/
def through? : Event → Option Nat
  | create => none
  | copy h | switch h _ => some h

/-- Whether a handle comes up. -/
def adds : Event → Bool
  | create | copy _ => true
  | switch .. => false

/-- What a switch should leave in the log. -/
def line? : Event → Option (Level × String)
  | switch _ sounding => some (.debug, if sounding then "tone on" else "tone off")
  | _ => none

/-- What the event sets a tone to, if it is about that tone. -/
def about? (owners : List Nat) (tone : Nat) : Event → Option Bool
  | switch h sounding => if owners[h]? = some tone then some sounding else none
  | _ => none

end Event

/-- The event, and what it leaves in the log, if its handle exists. -/
def handle? (t : Tones) : Event → Option (Tones × List Entry)
  | .create => some (t.create, [])
  | .copy h => (t.copy? h).map fun t => (t, [])
  | .switch h sounding => (t.switch? h sounding).map fun r => (r.1, [r.2])

/-- The tones after a history, and the log, if all handles exist when they are used. -/
def after? (history : List Event) : Option (Tones × List Entry) :=
  history.foldlM (fun r e => (r.1.handle? e).map fun s => (s.1, r.2 ++ s.2)) (empty, [])

/-- How many handles a history has brought up. -/
def handles (history : List Event) : Nat := history.countP Event.adds

/-- Every handle exists when it is used. -/
def Admissible (history : List Event) : Prop :=
  ∀ past e future, history = past ++ e :: future → ∀ h ∈ e.through?, h < handles past

/-- The handle `k` is a copy that was made of `p`. -/
def Copied (history : List Event) (p k : Nat) : Prop :=
  ∃ past future, history = past ++ .copy p :: future ∧ handles past = k

/-- The handles come from the same tone by copying, one from the other or both from others. -/
def Family (history : List Event) : Nat → Nat → Prop := Relation.EqvGen (Copied history)

/-- The last switch of the family of `h` was to `sounding`. -/
def LastSwitch (history : List Event) (h : Nat) (sounding : Bool) : Prop :=
  ∃ past k future, history = past ++ .switch k sounding :: future ∧ Family history k h ∧
    ∀ j other, .switch j other ∈ future → ¬Family history j h

variable {t u : Tones} {history : List Event} {e : Event} {log new : List Entry} {h j k p tone n : Nat}
  {owners : List Nat} {sounding : Bool} {r : Tones × List Entry}

/-! ## Histories -/

theorem handles_concat (history : List Event) (e : Event) :
    handles (history ++ [e]) = handles history + if e.adds then 1 else 0 := by
  rw [handles, List.countP_append, List.countP_singleton, handles]

theorem admissible_concat_iff :
    Admissible (history ++ [e]) ↔ Admissible history ∧ ∀ h ∈ e.through?, h < handles history := by
  constructor
  · intro h
    refine ⟨fun past f future hsplit => h past f (future ++ [e]) ?_, h history e [] rfl⟩
    rw [hsplit, List.append_assoc, List.cons_append]
  · rintro ⟨ha, he⟩ past f future hsplit
    rcases History.concat_eq_split_iff.1 hsplit with ⟨-, rfl, rfl⟩ | ⟨rest, -, hsplit⟩
    · exact he
    · exact ha past f rest hsplit

theorem copied_concat_iff : Copied (history ++ [e]) p k ↔ Copied history p k ∨ e = .copy p ∧ handles history = k := by
  constructor
  · rintro ⟨past, future, hsplit, rfl⟩
    rcases History.concat_eq_split_iff.1 hsplit with ⟨-, rfl, rfl⟩ | ⟨rest, -, hsplit⟩
    · exact .inr ⟨rfl, rfl⟩
    · exact .inl ⟨past, rest, hsplit, rfl⟩
  · rintro (⟨past, future, rfl, rfl⟩ | ⟨rfl, rfl⟩)
    · exact ⟨past, future ++ [e], by rw [List.append_assoc, List.cons_append], rfl⟩
    · exact ⟨history, [], rfl, rfl⟩

theorem Family.concat (h : Family history j k) (e : Event) : Family (history ++ [e]) j k :=
  h.mono fun _ _ hcopied => copied_concat_iff.2 (.inl hcopied)

theorem after?_concat (history : List Event) (e : Event) :
    after? (history ++ [e]) =
      (after? history).bind fun r => (r.1.handle? e).map fun s => (s.1, r.2 ++ s.2) := by
  rw [after?, List.foldlM_append]
  simp only [List.foldlM_cons, List.foldlM_nil, bind_pure]
  rfl

/-! ## Owners and sounds -/

theorem getElem?_concat_eq_some_iff : (owners ++ [n])[h]? = some tone ↔
    owners[h]? = some tone ∨ h = owners.length ∧ n = tone := by
  rcases Nat.lt_trichotomy h owners.length with hlt | rfl | hgt
  · rw [List.getElem?_append_left hlt]
    exact (or_iff_left fun hlast => Nat.ne_of_lt hlt hlast.1).symm
  · simp
  · rw [List.getElem?_eq_none (Nat.le_of_lt hgt), List.getElem?_eq_none (by rw [List.length_append]; exact hgt)]
    simp [Nat.ne_of_gt hgt]

theorem getD_concat_false (l : List Bool) : (l ++ [false])[n]?.getD false = l[n]?.getD false := by
  rcases Nat.lt_trichotomy n l.length with hn | rfl | hn
  · rw [List.getElem?_append_left hn]
  · simp
  · rw [List.getElem?_eq_none (Nat.le_of_lt hn), List.getElem?_eq_none]
    rw [List.length_append]
    exact hn

theorem isPlaying_of_owner (ho : t.owners[h]? = some tone) : t.isPlaying h = t.playing[tone]?.getD false := by
  rw [isPlaying, ho, Option.bind_some]

/-- A handle that comes up later is not in the history, so its owner does not matter there. -/
theorem last?_about_concat (hh : ∀ k sounding, .switch k sounding ∈ history → k < owners.length) (m : Nat) :
    History.last? (Event.about? (owners ++ [m]) tone) history = History.last? (Event.about? owners tone) history := by
  refine History.last?_congr fun e he => ?_
  cases e with
  | create | copy => rfl
  | switch k sounding => rw [Event.about?, List.getElem?_append_left (hh k sounding he), Event.about?]

/-- What the tones owe to their history. -/
structure Describes (history : List Event) (t : Tones) : Prop where
  count : t.owners.length = handles history
  owned : ∀ tone ∈ t.owners, tone < t.playing.length
  copied : ∀ p k, Copied history p k → ∃ tone, t.owners[p]? = some tone ∧ t.owners[k]? = some tone
  family : ∀ j k tone, t.owners[j]? = some tone → t.owners[k]? = some tone → Family history j k
  used : ∀ k sounding, .switch k sounding ∈ history → k < t.owners.length
  sounds : ∀ tone, t.playing[tone]?.getD false = (History.last? (Event.about? t.owners tone) history).getD false

namespace Describes

theorem exists_owner (d : Describes history t) (hh : h < handles history) : ∃ tone, t.owners[h]? = some tone :=
  ⟨_, List.getElem?_eq_getElem (d.count ▸ hh)⟩

/-- A family is the handles that refer to one tone. -/
theorem family_iff (d : Describes history t) (hk : t.owners[k]? = some tone) :
    Family history j k ↔ t.owners[j]? = some tone := by
  refine ⟨fun hfamily => ?_, fun hj => d.family j k tone hj hk⟩
  have hsame : Equivalence (Function.onFun Eq fun k : Nat => t.owners[k]?) := eq_equivalence.comap _
  rw [← hk]
  refine hsame.eqvGen_iff.1 (hfamily.mono fun p k hcopied => ?_)
  obtain ⟨tone, hp, hk⟩ := d.copied p k hcopied
  exact hp.trans hk.symm

theorem about?_eq_some_iff (d : Describes history t) (hh : t.owners[h]? = some tone) :
    e.about? t.owners tone = some sounding ↔ ∃ k, e = .switch k sounding ∧ Family history k h := by
  cases e with
  | create | copy => simp [Event.about?]
  | switch k other =>
    simp only [Event.about?, Event.switch.injEq, d.family_iff hh, Option.ite_none_right_eq_some, Option.some.injEq]
    constructor
    · rintro ⟨hk, rfl⟩
      exact ⟨k, ⟨rfl, rfl⟩, hk⟩
    · rintro ⟨_, ⟨rfl, rfl⟩, hk⟩
      exact ⟨hk, rfl⟩

theorem about?_eq_none_iff (d : Describes history t) (hh : t.owners[h]? = some tone) :
    e.about? t.owners tone = none ↔ ∀ k sounding, e = .switch k sounding → ¬Family history k h := by
  simp only [Option.eq_none_iff_forall_ne_some, ne_eq, d.about?_eq_some_iff hh, not_exists, not_and]
  exact forall_comm

theorem isPlaying_eq (d : Describes history t) (hh : t.owners[h]? = some tone) :
    t.isPlaying h = (History.last? (Event.about? t.owners tone) history).getD false := by
  rw [isPlaying_of_owner hh, d.sounds]

theorem isPlaying_iff (d : Describes history t) (hh : h < handles history) :
    t.isPlaying h = true ↔ LastSwitch history h true := by
  obtain ⟨tone, hh⟩ := d.exists_owner hh
  rw [d.isPlaying_eq hh, Option.getD_eq_iff]
  simp only [Bool.false_eq_true, and_false, or_false, History.last?_eq_some_iff, d.about?_eq_some_iff hh,
    d.about?_eq_none_iff hh]
  constructor
  · rintro ⟨past, _, future, rfl, ⟨k, rfl, hk⟩, hfuture⟩
    exact ⟨past, k, future, rfl, hk, fun j other hj => hfuture _ hj j other rfl⟩
  · rintro ⟨past, k, future, rfl, hk, hfuture⟩
    exact ⟨past, _, future, rfl, ⟨k, rfl, hk⟩, fun e he j other hj => hfuture j other (hj ▸ he)⟩

/-! ## Steps -/

theorem nil : Describes [] empty where
  count := rfl
  owned _ h := nomatch h
  copied := by
    rintro p k ⟨past, future, hsplit, -⟩
    simp at hsplit
  family _ _ _ h := nomatch h
  used _ _ h := nomatch h
  sounds _ := rfl

/-- A new handle for the tone `n` is of the family of the handles that this tone has already. -/
theorem extend (d : Describes history t) (hadds : e.adds = true) (hu : u.owners = t.owners ++ [n])
    (hn : n < u.playing.length) (hlen : t.playing.length ≤ u.playing.length)
    (hsounds : ∀ tone : Nat, u.playing[tone]?.getD false = t.playing[tone]?.getD false)
    (hcopy : ∀ p, e = .copy p → t.owners[p]? = some n)
    (hfamily : ∀ j, t.owners[j]? = some n → Family (history ++ [e]) j (handles history)) :
    Describes (history ++ [e]) u where
  count := by rw [hu, List.length_append, List.length_singleton, handles_concat, if_pos hadds, d.count]
  owned tone htone := by
    rw [hu, List.mem_append, List.mem_singleton] at htone
    rcases htone with htone | rfl
    · exact Nat.lt_of_lt_of_le (d.owned tone htone) hlen
    · exact hn
  copied p k hcopied := by
    rw [hu]
    simp only [getElem?_concat_eq_some_iff]
    rcases copied_concat_iff.1 hcopied with hcopied | ⟨he, hk⟩
    · obtain ⟨tone, hp, hk⟩ := d.copied p k hcopied
      exact ⟨tone, .inl hp, .inl hk⟩
    · exact ⟨n, .inl (hcopy p he), .inr ⟨hk.symm.trans d.count.symm, rfl⟩⟩
  family j k tone hj hk := by
    rw [hu, getElem?_concat_eq_some_iff, d.count] at hj hk
    rcases hj with hj | ⟨rfl, rfl⟩ <;> rcases hk with hk | ⟨rfl, hk'⟩
    · exact (d.family j k tone hj hk).concat e
    · exact hfamily j (hk' ▸ hj)
    · exact (hfamily k hk).symm
    · exact .refl _
  used k sounding hmem := by
    rw [hu, List.length_append]
    rcases List.mem_append.1 hmem with hmem | hmem
    · exact Nat.lt_add_right 1 (d.used k sounding hmem)
    · rw [← List.mem_singleton.1 hmem] at hadds
      cases hadds
  sounds tone := by
    have hnone : e.about? u.owners tone = none := by
      cases e with
      | create | copy => rfl
      | switch => cases hadds
    rw [hsounds, d.sounds, History.last?_concat, hnone, Option.none_or, hu, last?_about_concat d.used]

/-- A new handle has a tone of its own, which is silent, and is in the family of no other handle. -/
theorem create (d : Describes history t) : Describes (history ++ [.create]) t.create := by
  have hlen : t.create.playing.length = t.playing.length + 1 := List.length_append
  refine d.extend rfl rfl (hlen ▸ Nat.lt_succ_self _) (hlen ▸ Nat.le_succ _) (fun _ => getD_concat_false _)
    (fun p h => nomatch h) fun j hj => ?_
  exact absurd (d.owned _ (List.mem_of_getElem? hj)) (Nat.lt_irrefl _)

/-- A copy joins the family of the handle that it was made of, and tells from then on what this one tells. -/
theorem copy (d : Describes history t) (hp : t.owners[p]? = some tone) :
    Describes (history ++ [.copy p]) { t with owners := t.owners ++ [tone] } := by
  refine d.extend rfl rfl (d.owned _ (List.mem_of_getElem? hp)) (Nat.le_refl _) (fun _ => rfl) ?_ fun j hj => ?_
  · rintro _ ⟨⟩
    exact hp
  · refine ((d.family j p tone hj hp).concat _).trans _ _ _ (.rel _ _ ?_)
    exact copied_concat_iff.2 (.inr ⟨rfl, rfl⟩)

theorem switch (d : Describes history t) (hh : t.owners[h]? = some tone) (sounding : Bool) :
    Describes (history ++ [.switch h sounding]) { t with playing := t.playing.set tone sounding } where
  count := by
    rw [handles_concat, d.count]
    rfl
  owned n hn := by
    rw [List.length_set]
    exact d.owned n hn
  copied p k hcopied := by
    rcases copied_concat_iff.1 hcopied with hcopied | ⟨he, -⟩
    · exact d.copied p k hcopied
    · cases he
  family j k n hj hk := (d.family j k n hj hk).concat _
  used k other hmem := by
    rcases List.mem_append.1 hmem with hmem | hmem
    · exact d.used k other hmem
    · cases List.mem_singleton.1 hmem
      exact (List.getElem?_eq_some_iff.1 hh).1
  sounds n := by
    rw [History.last?_concat, Event.about?, hh]
    by_cases hn : tone = n
    · subst hn
      rw [List.getElem?_set_self (d.owned _ (List.mem_of_getElem? hh)), if_pos rfl, Option.some_or]
    · rw [List.getElem?_set_ne hn, d.sounds, if_neg (fun h => hn (Option.some.inj h)), Option.none_or]

end Describes

/-- One event: if its handle exists it goes through, the description holds again, and a switch leaves its line in the
log. -/
theorem handle?_describes (d : Describes history t) (he : ∀ h ∈ e.through?, h < handles history) :
    ∃ u new, t.handle? e = some (u, new) ∧ Describes (history ++ [e]) u ∧ new.map Entry.line = e.line?.toList := by
  cases e with
  | create => exact ⟨_, _, rfl, d.create, rfl⟩
  | copy p =>
    obtain ⟨tone, hp⟩ := d.exists_owner (he p rfl)
    refine ⟨_, [], ?_, d.copy hp, rfl⟩
    rw [handle?, copy?, hp]
    rfl
  | switch k sounding =>
    obtain ⟨tone, hk⟩ := d.exists_owner (he k rfl)
    refine ⟨_, [if sounding then .toneOn else .toneOff], ?_, d.switch hk sounding, ?_⟩
    · rw [handle?, switch?, hk]
      rfl
    · cases sounding <;> rfl

/-- An admissible history goes through, and its log is the lines of its switches in their order. -/
theorem after?_describes (ha : Admissible history) :
    ∃ t log, after? history = some (t, log) ∧ Describes history t ∧
      log.map Entry.line = history.filterMap Event.line? := by
  induction history using List.reverseRecOn with
  | nil => exact ⟨_, _, rfl, .nil, rfl⟩
  | append_singleton history e ih =>
    obtain ⟨ha, he⟩ := admissible_concat_iff.1 ha
    obtain ⟨t, log, ht, d, hlog⟩ := ih ha
    obtain ⟨u, new, hu, d, hnew⟩ := handle?_describes d he
    refine ⟨u, log ++ new, ?_, d, ?_⟩
    · rw [after?_concat, ht, Option.bind_some, hu]
      rfl
    · rw [List.map_append, hlog, hnew, List.filterMap_append]
      cases e <;> rfl

theorem through?_lt (d : Describes history t) (hu : t.handle? e = some r) :
    ∀ h ∈ e.through?, h < handles history := by
  have hsome {α : Type} {h : Nat} {f : Nat → α} {x : α} (hx : t.owners[h]?.map f = some x) : h < handles history := by
    obtain ⟨tone, hh, -⟩ := Option.map_eq_some_iff.1 hx
    rw [← d.count]
    exact (List.getElem?_eq_some_iff.1 hh).1
  cases e with
  | create => exact fun _ h => nomatch h
  | copy p | switch p sounding =>
    rintro _ ⟨⟩
    obtain ⟨u, hu, -⟩ := Option.map_eq_some_iff.1 hu
    exact hsome hu

/-- All goes through exactly if every handle exists when it is used. -/
theorem admissible_iff : Admissible history ↔ (after? history).isSome := by
  constructor
  · intro ha
    obtain ⟨t, log, ht, -⟩ := after?_describes ha
    rw [ht, Option.isSome_some]
  · intro h
    induction history using List.reverseRecOn with
    | nil => exact fun _ _ _ hsplit => by simp at hsplit
    | append_singleton history e ih =>
      rw [after?_concat, Option.isSome_bind, Option.any_eq_true] at h
      obtain ⟨r, hr, h⟩ := h
      have ha := ih (by rw [hr, Option.isSome_some])
      obtain ⟨t, log, ht, d, -⟩ := after?_describes ha
      obtain rfl : r = (t, log) := Option.some.inj (hr.symm.trans ht)
      obtain ⟨s, hs⟩ := Option.isSome_iff_exists.1 (Option.isSome_map ▸ h)
      exact admissible_concat_iff.2 ⟨ha, through?_lt d hs⟩

instance (history : List Event) : Decidable (Admissible history) := decidable_of_iff _ admissible_iff.symm

/-- Only a switch of its own family changes what a handle tells. -/
theorem isPlaying_handle? (d : Describes history t) (hu : t.handle? e = some (u, new)) (hh : h < handles history)
    (hothers : ∀ k sounding, e = .switch k sounding → ¬Family history k h) : u.isPlaying h = t.isPlaying h := by
  obtain ⟨tone, hh⟩ := d.exists_owner hh
  rw [isPlaying_of_owner hh]
  cases e with
  | create =>
    cases hu
    rw [isPlaying_of_owner (getElem?_concat_eq_some_iff.2 (.inl hh)), create, getD_concat_false]
  | copy p =>
    obtain ⟨u, hu, h⟩ := Option.map_eq_some_iff.1 hu
    obtain ⟨n, hn, rfl⟩ := Option.map_eq_some_iff.1 hu
    cases h
    rw [isPlaying_of_owner (getElem?_concat_eq_some_iff.2 (.inl hh))]
  | switch k sounding =>
    obtain ⟨r, hr, h⟩ := Option.map_eq_some_iff.1 hu
    obtain ⟨n, hn, rfl⟩ := Option.map_eq_some_iff.1 hr
    cases h
    have hne : n ≠ tone := fun hnt => hothers k sounding rfl ((d.family_iff hh).2 (hnt ▸ hn))
    rw [isPlaying_of_owner (t := { t with playing := t.playing.set n sounding }) hh, List.getElem?_set_ne hne]

/-! ## Families -/

/-- What the tones and their log tell of a history. -/
structure Follows (history : List Event) (t : Tones) (log : List Entry) : Prop where
  isPlaying : ∀ h < handles history, t.isPlaying h = true ↔ LastSwitch history h true
  others : ∀ e u new h, t.handle? e = some (u, new) → h < handles history →
    (∀ k sounding, e = .switch k sounding → ¬Family history k h) → u.isPlaying h = t.isPlaying h
  lines : log.map Entry.line = history.filterMap Event.line?

/-- Whatever handles are made, copied and switched, a handle tells that its tone sounds exactly if the last switch of
its family was to that. Nothing else that can happen changes what it tells, and each switch leaves a line in the log,
also if it changes nothing. -/
theorem handles_follow_families (ha : Admissible history) :
    ∃ t log, after? history = some (t, log) ∧ Follows history t log := by
  obtain ⟨t, log, ht, d, hlog⟩ := after?_describes ha
  exact ⟨t, log, ht, fun h => d.isPlaying_iff, fun e u new h => isPlaying_handle? d, hlog⟩

/-- A copy of a copy, made after the switch that it tells of, and another tone that has been switched since. -/
theorem handles_follow_families_late_copy :
    let history : List Event := [.create, .switch 0 true, .create, .copy 0, .copy 2, .switch 1 false]
    Admissible history ∧ ∃ t log, after? history = some (t, log) ∧ t.isPlaying 3 = true ∧
      LastSwitch history 3 true ∧ log.map Entry.line = [(.debug, "tone on"), (.debug, "tone off")] := by
  intro history
  have ha : Admissible history := by decide
  obtain ⟨t, log, ht, hfollows⟩ := handles_follow_families ha
  have hplaying : t.isPlaying 3 = true := by
    cases ht
    rfl
  exact ⟨ha, t, log, ht, hplaying, (hfollows.isPlaying 3 (by decide)).1 hplaying, hfollows.lines⟩

end PacedChip8.Tones
