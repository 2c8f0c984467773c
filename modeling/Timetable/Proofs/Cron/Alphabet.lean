import Mathlib.Data.List.TakeDrop
import Mathlib.Data.Option.Basic
import Timetable.Schedule.Repeat

/-!
# The alphabet of cron expressions

A colon stands between the parts of queue identifiers. No expression that is accepted holds one
(`colon_not_mem_of_parseExpression`), so the end of an expression can be told inside an identifier.

A reader is followed through the text by `Passes`: it takes a front part without colons and leaves the rest.
-/

namespace Timetable

open Text

namespace Cron

/-- `rest` is what is left of `cs` behind a front part without colons. -/
def Passes (cs rest : List Char) : Prop := ∃ front, front ++ rest = cs ∧ ':' ∉ front

namespace Passes

theorem refl (cs : List Char) : Passes cs cs := ⟨[], rfl, by simp⟩

theorem trans {cs ds es : List Char} (h : Passes cs ds) (h' : Passes ds es) : Passes cs es := by
  obtain ⟨front, rfl, hf⟩ := h
  obtain ⟨front', rfl, hf'⟩ := h'
  exact ⟨front ++ front', by simp, by simp [hf, hf']⟩

theorem cons {c : Char} {cs rest : List Char} (hc : c ≠ ':') (h : Passes cs rest) :
    Passes (c :: cs) rest := by
  obtain ⟨front, rfl, hf⟩ := h
  exact ⟨c :: front, rfl, by simp [hc.symm, hf]⟩

/-- What is passed to the end holds no colon. -/
theorem not_mem {cs : List Char} (h : Passes cs []) : ':' ∉ cs := by
  obtain ⟨front, rfl, hf⟩ := h
  simpa using hf

theorem dropWhile {p : Char → Bool} (hp : p ':' = false) (cs : List Char) :
    Passes cs (cs.dropWhile p) := by
  refine ⟨cs.takeWhile p, List.takeWhile_append_dropWhile, fun hm => ?_⟩
  have := List.all_eq_true.mp List.all_takeWhile _ hm
  simp [hp] at this

end Passes

/-! ## Readers -/

/-- A reader never takes a colon. -/
def Skips {α : Type} (read : List Char → Option (α × List Char)) : Prop :=
  ∀ ⦃cs a rest⦄, read cs = some (a, rest) → Passes cs rest

theorem skipBlanks_passes (cs : List Char) : Passes cs (skipBlanks cs) :=
  Passes.dropWhile (by decide) cs

theorem spanDigits_passes {limit : Nat} {cs ds rest : List Char}
    (h : spanDigits limit cs = (ds, rest)) : Passes cs rest := by
  induction limit generalizing cs ds with
  | zero =>
    simp only [spanDigits, Prod.mk.injEq] at h
    exact h.2 ▸ .refl cs
  | succ limit ih =>
    cases cs with
    | nil =>
      simp only [spanDigits, Prod.mk.injEq] at h
      exact h.2 ▸ .refl _
    | cons c cs =>
      simp only [spanDigits] at h
      split at h
      · next hc =>
        simp only [Prod.mk.injEq] at h
        have ne : c ≠ ':' := by rintro rfl; exact absurd hc (by decide)
        exact .cons ne (ih (Prod.ext rfl h.2))
      · simp only [Prod.mk.injEq] at h
        exact h.2 ▸ .refl _

theorem readNat_skips (limit : Nat) : Skips (readNat limit) := by
  intro cs n rest h
  unfold readNat at h
  split at h
  · cases h
  · next hs =>
    cases h
    exact spanDigits_passes hs

theorem number?_skips : Skips number? := by
  intro cs n rest h
  simp only [number?, Option.bind_eq_bind, Option.bind_eq_some_iff, Prod.exists] at h
  obtain ⟨m, mid, hr, h⟩ := h
  split at h
  · cases h
    exact ((skipBlanks_passes cs).trans (readNat_skips _ hr)).trans (skipBlanks_passes mid)
  · cases h

theorem name?_skips : Skips name? := by
  intro cs word rest h
  unfold name? at h
  rw [List.span_eq_takeWhile_dropWhile] at h
  split at h
  · cases h
  · next hs =>
    cases h
    have hd := (Prod.mk.inj hs).2
    have alpha : Passes (skipBlanks cs) ((skipBlanks cs).dropWhile Char.isAlpha) :=
      .dropWhile (by decide) _
    rw [hd] at alpha
    exact ((skipBlanks_passes cs).trans alpha).trans (skipBlanks_passes _)

theorem mark?_passes {mark : Char} {cs rest : List Char} (hm : mark ≠ ':')
    (h : mark? mark cs = some rest) : Passes cs rest := by
  cases cs with
  | nil => cases h
  | cons c cs =>
    simp only [mark?] at h
    split at h
    · next hc =>
      cases h
      exact .cons (hc ▸ hm) (.refl _)
    · cases h

theorem range?_skips : Skips range? := by
  intro cs s rest h
  simp only [range?, Option.bind_eq_bind, Option.bind_eq_some_iff, Option.some.injEq, Prod.mk.injEq,
    Prod.exists] at h
  obtain ⟨a, mid, ha, dash, hd, b, last, hb, _, rfl⟩ := h
  exact ((number?_skips ha).trans (mark?_passes (by decide) hd)).trans (number?_skips hb)

theorem one?_skips : Skips one? := by
  intro cs s rest h
  simp only [one?, Option.bind_eq_bind, Option.bind_eq_some_iff, Option.some.injEq, Prod.mk.injEq,
    Prod.exists] at h
  obtain ⟨a, mid, ha, _, rfl⟩ := h
  exact number?_skips ha

theorem named?_skips : Skips named? := by
  intro cs s rest h
  simp only [named?, Option.bind_eq_bind, Option.bind_eq_some_iff, Option.some.injEq, Prod.mk.injEq,
    Prod.exists] at h
  obtain ⟨a, mid, ha, dash, hd, b, last, hb, _, rfl⟩ := h
  exact ((name?_skips ha).trans (mark?_passes (by decide) hd)).trans (name?_skips hb)

theorem all?_skips {mark : Char} (hm : mark ≠ ':') : Skips (all? mark) := by
  intro cs s rest h
  simp only [all?, Option.bind_eq_bind, Option.bind_eq_some_iff, Option.some.injEq,
    Prod.mk.injEq] at h
  obtain ⟨last, hl, _, rfl⟩ := h
  exact mark?_passes hm hl

theorem Skips.orElse {α : Type} {read other : List Char → Option (α × List Char)} (h : Skips read)
    (h' : Skips other) : Skips fun cs => read cs <|> other cs := by
  intro cs a rest hr
  rcases (Option.orElse_eq_some _ _ _).mp hr with hr | ⟨_, hr⟩
  · exact h hr
  · exact h' hr

theorem Skips.map {α β : Type} {read : List Char → Option (α × List Char)} (h : Skips read)
    (f : α → β) : Skips fun cs => (read cs).bind fun p => some (f p.1, p.2) := by
  intro cs b rest hr
  simp only [Option.bind_eq_some_iff, Option.some.injEq, Prod.mk.injEq, Prod.exists] at hr
  obtain ⟨a, mid, ha, _, rfl⟩ := hr
  exact h ha

theorem Skips.none {α : Type} : Skips fun _ => (Option.none : Option (α × List Char)) := by
  intro cs a rest h
  cases h

theorem span?_skips (f : Field) : Skips (span? f) := by
  have mark : Skips fun cs => if f.questionMark then all? '?' cs else Option.none := by
    cases f.questionMark
    · exact .none
    · exact all?_skips (by decide)
  exact mark.orElse ((all?_skips (by decide)).orElse
    (range?_skips.orElse (one?_skips.orElse named?_skips)))

theorem stepped?_skips (f : Field) : Skips (stepped? f) := by
  intro cs s rest h
  simp only [stepped?, Option.bind_eq_bind, Option.bind_eq_some_iff, Option.some.injEq,
    Prod.mk.injEq, Prod.exists] at h
  obtain ⟨a, mid, ha, slash, hd, b, last, hb, _, rfl⟩ := h
  exact ((span?_skips f ha).trans (mark?_passes (by decide) hd)).trans (number?_skips hb)

theorem item?_skips (f : Field) : Skips (item? f) :=
  (stepped?_skips f).orElse (((span?_skips f).map Item.span).orElse (name?_skips.map Item.name))

theorem moreItems_passes (f : Field) (steps : Nat) (cs : List Char) :
    Passes cs (moreItems f steps cs).2 := by
  induction steps generalizing cs with
  | zero => exact .refl cs
  | succ steps ih =>
    simp only [moreItems]
    split
    · next item rest h =>
      simp only [Option.bind_eq_bind, Option.bind_eq_some_iff] at h
      obtain ⟨mid, hm, hi⟩ := h
      exact ((mark?_passes (by decide) hm).trans (item?_skips f hi)).trans (ih rest)
    · exact .refl cs

theorem field?_skips (f : Field) : Skips (field? f) := by
  intro cs ns rest h
  simp only [field?, Option.bind_eq_bind, Option.bind_eq_some_iff, Option.some.injEq,
    Prod.mk.injEq, Prod.exists] at h
  obtain ⟨item, mid, hi, _, _, _, rfl⟩ := h
  exact (((skipBlanks_passes cs).trans (item?_skips f hi)).trans (moreItems_passes f _ mid)).trans
    (skipBlanks_passes _)

/-! ## Expressions -/

theorem colon_not_mem_of_ofWord? {cs : List Char} {p : Pattern} (h : Pattern.ofWord? cs = some p) :
    ':' ∉ cs := by
  simp only [Pattern.ofWord?, Option.map_eq_some_iff] at h
  obtain ⟨w, hw, _⟩ := h
  have hmem := List.mem_of_find?_eq_some hw
  have hp := List.find?_some hw
  simp only [Bool.and_eq_true, beq_iff_eq] at hp
  obtain ⟨hpre, hend⟩ := hp
  have plain : ':' ∉ w.1.toList :=
    (by decide : ∀ w ∈ Pattern.words, ':' ∉ w.1.toList) w hmem
  obtain ⟨tail, ht⟩ := List.isPrefixOf_iff_prefix.mp hpre
  have word : Passes (skipBlanks cs) ((skipBlanks cs).drop w.1.length) := by
    refine ⟨w.1.toList, ?_, plain⟩
    rw [← ht, ← String.length_toList, List.drop_left]
  have last := skipBlanks_passes ((skipBlanks cs).drop w.1.length)
  rw [hend] at last
  exact (((skipBlanks_passes cs).trans word).trans last).not_mem

theorem colon_not_mem_of_ofFields? {cs : List Char} {p : Pattern}
    (h : Pattern.ofFields? cs = some p) : ':' ∉ cs := by
  simp only [Pattern.ofFields?, Option.bind_eq_bind, Option.bind_eq_some_iff, Prod.exists] at h
  obtain ⟨_, c₁, h₁, _, c₂, h₂, _, c₃, h₃, _, c₄, h₄, _, c₅, h₅, _, c₆, h₆, h⟩ := h
  have six : Passes cs c₆ :=
    (((((field?_skips _ h₁).trans (field?_skips _ h₂)).trans (field?_skips _ h₃)).trans
      (field?_skips _ h₄)).trans (field?_skips _ h₅)).trans (field?_skips _ h₆)
  have years : Passes c₆ ((field? .years c₆).getD (Field.years.all, c₆)).2 := by
    cases h₇ : field? .years c₆ with
    | none => exact .refl c₆
    | some r => exact field?_skips _ h₇
  split at h
  · next hend =>
    rw [hend] at years
    exact (six.trans years).not_mem
  · cases h

theorem colon_not_mem_of_ofChars? {cs : List Char} {p : Pattern} (h : Pattern.ofChars? cs = some p) :
    ':' ∉ cs := by
  rcases (Option.orElse_eq_some _ _ _).mp h with h | ⟨_, h⟩
  · exact colon_not_mem_of_ofWord? h
  · exact colon_not_mem_of_ofFields? h

end Cron

namespace Text

theorem mem_trim_of_not_isBlank {c : Char} {cs : List Char} (hc : isBlank c = false) (h : c ∈ cs) :
    c ∈ trim cs := by
  have kept : ∀ {ds : List Char}, c ∈ ds → c ∈ ds.dropWhile isBlank := by
    intro ds hd
    rw [← List.takeWhile_append_dropWhile (p := isBlank) (l := ds), List.mem_append] at hd
    refine hd.resolve_left fun hm => ?_
    have := List.all_eq_true.mp List.all_takeWhile _ hm
    simp [hc] at this
  simp only [trim, trimEnd, trimStart, List.mem_reverse]
  exact kept (List.mem_reverse.mpr (kept h))

end Text

theorem colon_not_mem_of_parseExpression {expression : String} {p : Cron.Pattern}
    (h : parseExpression expression = .ok p) : ':' ∉ expression.toList := by
  unfold parseExpression at h
  split at h
  · next pattern hp =>
    have absent := Cron.colon_not_mem_of_ofChars? hp
    intro hm
    have inside := mem_trim_of_not_isBlank (by decide) hm
    apply absent
    simp only [normalizeExpression, String.toList_ofList]
    split
    · simp [inside]
    · exact inside
  · cases h

end Timetable
