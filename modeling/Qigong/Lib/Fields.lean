import Mathlib.Data.List.Basic

/-!
# Fields of a text

A text can be put together from parts, with a separator between each two of them
(`joined`). Where no part is empty or holds the separator the parts are the fields of the
text (`Fielded`), and the text determines them: a text that was put together from `n`
parts has `n` fields only when each of the parts is one (`fielded_joined_iff`).
-/

namespace Lib

universe u

variable {α : Type u} {sep : α} {n m : Nat} {text : List α} {fs : List (List α)}

/-- The parts one after the other, a separator between each two. -/
def joined (sep : α) (fs : List (List α)) : List α := [sep].intercalate fs

/-- What can be a field: not empty, and free of the separator. -/
def IsField (sep : α) (f : List α) : Prop := f ≠ [] ∧ sep ∉ f

instance [DecidableEq α] (sep : α) (f : List α) : Decidable (IsField sep f) :=
  inferInstanceAs (Decidable (_ ∧ _))

/-- The text is made of exactly `n` fields. -/
def Fielded (sep : α) (n : Nat) (text : List α) : Prop :=
  ∃ fs, fs.length = n ∧ (∀ f ∈ fs, IsField sep f) ∧ joined sep fs = text

theorem joined_cons (f : List α) (hne : fs ≠ []) :
    joined sep (f :: fs) = f ++ sep :: joined sep fs := by
  rw [joined, List.intercalate_cons_of_ne_nil hne]
  simp [joined]

theorem fielded_joined (h : ∀ f ∈ fs, IsField sep f) : Fielded sep fs.length (joined sep fs) :=
  ⟨fs, rfl, h, rfl⟩

theorem joined_ne_nil (hne : fs ≠ []) (h : ∀ f ∈ fs, IsField sep f) : joined sep fs ≠ [] := by
  obtain ⟨f, fs, rfl⟩ := List.exists_cons_of_ne_nil hne
  have hf := (h f List.mem_cons_self).1
  by_cases hfs : fs = []
  · subst hfs
    rwa [joined, List.intercalate_singleton]
  · rw [joined_cons f hfs]
    exact List.append_ne_nil_of_left_ne_nil hf _

/-! ## Cutting a text at the separators -/

variable [DecidableEq α]

/-- A text put together is cut into the pieces of its parts. -/
theorem splitOn_joined (hne : fs ≠ []) :
    (joined sep fs).splitOn sep = fs.flatMap fun f => f.splitOn sep := by
  induction fs with
  | nil => exact absurd rfl hne
  | cons f fs ih =>
    by_cases hfs : fs = []
    · subst hfs
      simp [joined]
    · rw [joined_cons f hfs, List.splitOn_append_cons_self, ih hfs, List.flatMap_cons]

theorem length_le_pieces (fs : List (List α)) :
    fs.length ≤ (fs.flatMap fun f => f.splitOn sep).length := by
  induction fs with
  | nil => exact Nat.le_refl _
  | cons f fs ih =>
    have hpos := List.length_pos_iff.mpr (List.splitOn_ne_nil sep f)
    rw [List.flatMap_cons, List.length_append, List.length_cons]
    omega

/-- Parts with no more pieces than there are parts are their own pieces. -/
theorem pieces_eq (h : (fs.flatMap fun f => f.splitOn sep).length = fs.length) :
    (fs.flatMap fun f => f.splitOn sep) = fs := by
  induction fs with
  | nil => rfl
  | cons f fs ih =>
    have hpos := List.length_pos_iff.mpr (List.splitOn_ne_nil sep f)
    have hle : fs.length ≤ (fs.flatMap fun f => f.splitOn sep).length := length_le_pieces fs
    rw [List.flatMap_cons, List.length_append, List.length_cons] at h
    obtain ⟨g, hg⟩ := List.length_eq_one_iff.mp (show (f.splitOn sep).length = 1 by omega)
    have hf : f = g := by
      have hpieces : [sep].intercalate (f.splitOn sep) = f := List.intercalate_splitOn sep
      rw [← hpieces, hg, List.intercalate_singleton]
    rw [List.flatMap_cons, ih (by omega), hg, hf]
    rfl

/-- The fields of a text are its pieces. -/
theorem splitOn_of_fields (hne : fs ≠ []) (h : ∀ f ∈ fs, IsField sep f) :
    (joined sep fs).splitOn sep = fs :=
  List.splitOn_intercalate sep (fun f hf => (h f hf).2) hne

/-! ## Fields -/

/-- A text has one number of fields. -/
theorem Fielded.unique (hn : Fielded sep n text) (hm : Fielded sep m text) : n = m := by
  obtain ⟨fs, rfl, hfs, rfl⟩ := hn
  obtain ⟨gs, rfl, hgs, heq⟩ := hm
  by_cases hf : fs = []
  · subst hf
    by_cases hg : gs = []
    · rw [hg]
    · exact absurd heq (joined_ne_nil hg hgs)
  by_cases hg : gs = []
  · subst hg
    exact absurd heq.symm (joined_ne_nil hf hfs)
  · rw [← splitOn_of_fields hf hfs, ← heq, splitOn_of_fields hg hgs]

/-- **A text put together from parts has as many fields only if each part is one.** -/
theorem fielded_joined_iff : Fielded sep fs.length (joined sep fs) ↔ ∀ f ∈ fs, IsField sep f := by
  refine ⟨fun ⟨gs, hlen, hgs, heq⟩ => ?_, fielded_joined⟩
  by_cases hfs : fs = []
  · subst hfs
    exact fun f hf => absurd hf List.not_mem_nil
  have hgs' : gs ≠ [] := by
    rintro rfl
    exact hfs (List.length_eq_zero_iff.mp hlen.symm)
  -- the pieces of the parts are the fields, as many as there are parts
  have hpieces : (fs.flatMap fun f => f.splitOn sep) = gs := by
    rw [← splitOn_joined hfs, ← heq, splitOn_of_fields hgs' hgs]
  have hparts : fs = gs := (pieces_eq (hpieces ▸ hlen)).symm.trans hpieces
  exact hparts ▸ hgs

theorem fielded_one_iff : Fielded sep 1 text ↔ IsField sep text := by
  have h : Fielded sep [text].length (joined sep [text]) ↔ _ := fielded_joined_iff
  simpa [joined] using h

/-- Where each part is the expected one or holds no separator: the text is cut into the
expected ones, and maybe more behind them, exactly where the parts are these. -/
theorem prefix_pieces_iff {es : List (List α)}
    (h : List.Forall₂ (fun f e => f = e ∨ sep ∉ f) fs es) :
    es <+: (fs.flatMap fun f => f.splitOn sep) ↔
      List.Forall₂ (fun f e => f = e ∧ sep ∉ f) fs es := by
  induction h with
  | nil => exact iff_of_true (List.nil_prefix) .nil
  | @cons f e fs es hfe _ ih =>
    rw [List.flatMap_cons, List.forall₂_cons, ← ih]
    by_cases hsep : sep ∈ f
    · -- a part with a separator does not come out as it is
      refine iff_of_false (fun hpre => ?_) fun hboth => hboth.1.2 hsep
      obtain rfl := hfe.resolve_right fun hno => hno hsep
      obtain ⟨pre, post, hf, hfree⟩ := List.eq_append_cons_of_mem hsep
      rw [hf, List.splitOn_append_cons_self_of_not_mem hfree] at hpre
      have hlen := congrArg List.length (List.cons_prefix_cons.mp hpre).1
      rw [List.length_append, List.length_cons] at hlen
      omega
    · rw [List.splitOn_eq_singleton hsep, List.singleton_append, List.cons_prefix_cons, eq_comm]
      exact and_congr_left fun _ => (and_iff_left hsep).symm

/-- **What the fields begin with** are the expected ones exactly where they were put
together, and hold no separator. -/
theorem prefix_splitOn_joined_iff {es : List (List α)}
    (h : List.Forall₂ (fun f e => f = e ∨ sep ∉ f) fs es) :
    es <+: (joined sep fs).splitOn sep ↔ List.Forall₂ (fun f e => f = e ∧ sep ∉ f) fs es := by
  by_cases hfs : fs = []
  · subst hfs
    cases h
    exact iff_of_true List.nil_prefix .nil
  · rw [splitOn_joined hfs, prefix_pieces_iff h]

end Lib
