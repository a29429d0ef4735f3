import Mathlib.Data.List.Basic

/-!
# What the lines of a text begin with

A text is a list, and some of its elements end a line. A word that holds no line end
begins a line of the text (`Begins`) when it stands at the start of the text or behind a
line end. For a text put together from pieces that end their last line (`Ended`), the
words that begin a line are those of the pieces (`begins_append`); of a piece without a
line end, they are its prefixes (`begins_iff_prefix`).
-/

namespace Lib

universe u

variable {α : Type u} (eol : α → Bool)

/-- No element of the list ends a line. -/
def Unended (s : List α) : Prop := ∀ c ∈ s, eol c = false

/-- The text is empty or its last line is ended. -/
def Ended (s : List α) : Prop := ∀ c, s.getLast? = some c → eol c = true

/-- `w` begins a line of `s`. -/
def Begins (w s : List α) : Prop := ∃ pre post, s = pre ++ (w ++ post) ∧ Ended eol pre

variable {eol} {w s t : List α}

@[simp] theorem ended_nil : Ended eol ([] : List α) := fun _ h => (nomatch h)

theorem Ended.append (hs : Ended eol s) (ht : Ended eol t) : Ended eol (s ++ t) := by
  intro c hc
  rw [List.getLast?_append] at hc
  cases h : t.getLast? with
  | none =>
    rw [h] at hc
    exact hs c hc
  | some d =>
    rw [h] at hc
    exact ht c (h.trans hc)

/-- A text is ended by a line end. -/
theorem ended_concat {c : α} (hc : eol c = true) (s : List α) : Ended eol (s ++ [c]) := by
  intro d hd
  rw [List.getLast?_concat] at hd
  exact Option.some.inj hd ▸ hc

/-- What stands behind ended lines ends as they do. -/
theorem Ended.of_append (h : Ended eol (s ++ t)) : Ended eol t := by
  intro c hc
  exact h c (by rw [List.getLast?_append, hc, Option.some_or])

/-- In a text without a line end nothing but the empty text is ended. -/
theorem Unended.eq_nil (h : Unended eol s) (he : Ended eol s) : s = [] := by
  rcases List.eq_nil_or_concat s with rfl | ⟨pre, c, rfl⟩
  · rfl
  · rw [List.concat_eq_append] at h he
    have hc := he c (by rw [List.getLast?_concat])
    rw [h c (by simp)] at hc
    cases hc

theorem begins_of_prefix (h : w <+: s) : Begins eol w s := by
  obtain ⟨post, rfl⟩ := h
  exact ⟨[], post, rfl, ended_nil⟩

/-- The words that begin a line of a text without a line end are its prefixes. -/
theorem begins_iff_prefix (hs : Unended eol s) : Begins eol w s ↔ w <+: s := by
  constructor
  · rintro ⟨pre, post, rfl, he⟩
    have hpre : Unended eol pre := fun c hc => hs c (List.mem_append_left _ hc)
    rw [hpre.eq_nil he]
    exact List.prefix_append _ _
  · exact begins_of_prefix

/-- A line begins the same however it goes on. -/
theorem Begins.append_right (h : Begins eol w s) (t : List α) : Begins eol w (s ++ t) := by
  obtain ⟨pre, post, rfl, he⟩ := h
  exact ⟨pre, post ++ t, by simp, he⟩

/-- Ended lines in front leave the lines behind them as they are. -/
theorem Begins.append_left (h : Begins eol w t) (hs : Ended eol s) : Begins eol w (s ++ t) := by
  obtain ⟨pre, post, rfl, he⟩ := h
  exact ⟨s ++ pre, post, by simp, hs.append he⟩

/-- **The words that begin a line of two pieces begin one of a piece**, when the first
piece is ended: a word without a line end cannot stand across the end of a line. -/
theorem begins_append (hw : Unended eol w) (hs : Ended eol s) :
    Begins eol w (s ++ t) ↔ Begins eol w s ∨ Begins eol w t := by
  refine ⟨?_, fun h => h.elim (·.append_right t) (·.append_left hs)⟩
  rintro ⟨pre, post, heq, he⟩
  rcases List.append_eq_append_iff.mp heq with ⟨mid, rfl, rfl⟩ | ⟨mid, rfl, hmid⟩
  · -- the word stands in the second piece
    exact .inr ⟨mid, post, rfl, he.of_append⟩
  · rcases List.append_eq_append_iff.mp hmid with ⟨post', rfl, rfl⟩ | ⟨w', rfl, rfl⟩
    · exact .inl ⟨pre, post', rfl, he⟩
    · -- what the word has in the first piece ends a line, and so is nothing
      have hmid : Unended eol mid := fun c hc => hw c (List.mem_append_left _ hc)
      obtain rfl := hmid.eq_nil hs.of_append
      exact .inr ⟨[], post, rfl, ended_nil⟩

theorem begins_nil (hne : w ≠ []) : ¬ Begins eol w [] := by
  rintro ⟨pre, post, h, -⟩
  exact hne (List.append_eq_nil_iff.mp (List.append_eq_nil_iff.mp h.symm).2).1

theorem unended_append : Unended eol (s ++ t) ↔ Unended eol s ∧ Unended eol t := by
  simp only [Unended, List.mem_append]
  exact ⟨fun h => ⟨fun c hc => h c (.inl hc), fun c hc => h c (.inr hc)⟩,
    fun h c hc => hc.elim (h.1 c) (h.2 c)⟩

/-- The words that begin a line of a line and its end are those it begins with. -/
theorem begins_concat {c : α} (hw : Unended eol w) (hne : w ≠ []) (hs : Unended eol s)
    (hc : eol c = true) : Begins eol w (s ++ [c]) ↔ w <+: s := by
  constructor
  · rintro ⟨pre, post, heq, he⟩
    rcases List.append_eq_append_iff.mp heq with ⟨mid, rfl, hmid⟩ | ⟨mid, rfl, hmid⟩
    · -- nothing is left for the word but the end of the line
      rcases List.append_eq_singleton_iff.mp hmid.symm with ⟨rfl, hwp⟩ | ⟨-, hwp⟩
      · rcases List.append_eq_singleton_iff.mp hwp with ⟨rfl, -⟩ | ⟨rfl, -⟩
        · exact absurd rfl hne
        · have hcw := hw c (List.mem_singleton_self c)
          rw [hc] at hcw
          cases hcw
      · exact absurd (List.append_eq_nil_iff.mp hwp).1 hne
    · rw [(unended_append.mp hs).1.eq_nil he, List.nil_append]
      rcases List.append_eq_append_iff.mp hmid with ⟨post', rfl, -⟩ | ⟨w', rfl, hw'⟩
      · exact List.prefix_append _ _
      · rcases List.append_eq_singleton_iff.mp hw'.symm with ⟨rfl, -⟩ | ⟨rfl, -⟩
        · simp
        · have hcw := hw c (by simp)
          rw [hc] at hcw
          cases hcw
  · rintro ⟨post, rfl⟩
    exact ⟨[], post ++ [c], by simp, ended_nil⟩

/-- The words that begin a line of a line and what follows it. -/
theorem begins_line {c : α} (hw : Unended eol w) (hne : w ≠ []) (hs : Unended eol s)
    (hc : eol c = true) : Begins eol w (s ++ c :: t) ↔ w <+: s ∨ Begins eol w t := by
  rw [List.append_cons, begins_append hw (ended_concat hc s), begins_concat hw hne hs hc]

end Lib
