import Mathlib.Data.List.Forall2
import Mathlib.Data.List.Induction
import Mathlib.Order.Lattice

/-!
# Lists, and what reads them

- `lastGreatest`: what a loop over a list ends with that keeps the greatest so far, and the last
  one of equals. `lastGreatest_split` tells it by what stands in front of it and behind it.
- `rises`: what a filter keeps that compares each element with the one just before it. What is
  kept need not increase, as after a fall it starts again from the lower element:
  `rises_pairwise_iff` tells when it does (`Unbroken`).
- `drawn_append`, `drawn_of_sublist`, `drawn_imp`: lists whose elements come from those of
  another list, in their order and none of those used twice (`List.SublistForall₂`).
- `Arrives`: readings of a queue by a reader who may be given blanks besides, anywhere between
  two items, as a transport does that cuts its stream into records and sometimes sees an empty
  one. Blanks apart, what is read is what was sent (`Arrives.conserved`).
- `Transducer`: a reader with a state, fed in blocks. One that forgets part of its state at the
  end of a block still emits what it would on the whole stream, as long as what it forgets would
  not have mattered (`Transducer.feedBlocks_eq`).
-/

namespace Lib

universe u v w

/-! ## The last of the greatest -/

section greatest

variable {α : Type u} {κ : Type v} [LinearOrder κ] {key : α → κ} {l : List α} {x y : α}

/-- One turn of the loop. -/
def keepGreatest (key : α → κ) (best : Option α) (x : α) : Option α :=
  match best with
  | none => some x
  | some b => if key b ≤ key x then some x else some b

/-- The element of the greatest key, the last one of equals. -/
def lastGreatest (key : α → κ) (l : List α) : Option α := l.foldl (keepGreatest key) none

/-- One turn more at the end. -/
theorem lastGreatest_append (l : List α) (x : α) :
    lastGreatest key (l ++ [x]) = keepGreatest key (lastGreatest key l) x := by
  rw [lastGreatest, List.foldl_append]
  rfl

/-- There is one in every list but the empty one. -/
theorem lastGreatest_eq_none_iff : lastGreatest key l = none ↔ l = [] := by
  induction l using List.reverseRecOn with
  | nil => exact iff_of_true rfl rfl
  | append_singleton l x =>
    rw [lastGreatest_append]
    refine iff_of_false (fun h => ?_) (by simp)
    cases hb : lastGreatest key l with
    | none => rw [hb] at h; cases h
    | some b =>
      rw [hb, keepGreatest] at h
      split at h <;> cases h

/-- It is no smaller than what stands in front of it, and greater than what stands behind. -/
theorem lastGreatest_split (h : lastGreatest key l = some x) :
    ∃ pre post, l = pre ++ x :: post ∧ (∀ y ∈ pre, key y ≤ key x) ∧
      ∀ y ∈ post, key y < key x := by
  induction l using List.reverseRecOn generalizing x with
  | nil => cases h
  | append_singleton l z ih =>
    rw [lastGreatest_append] at h
    cases hb : lastGreatest key l with
    | none =>
      rw [hb] at h
      obtain rfl := Option.some.inj h
      rw [lastGreatest_eq_none_iff.mp hb]
      exact ⟨[], [], rfl, fun _ h => (nomatch h), fun _ h => (nomatch h)⟩
    | some b =>
      obtain ⟨pre, post, rfl, hpre, hpost⟩ := ih hb
      rw [hb, keepGreatest] at h
      split at h
      case isTrue hle =>
        obtain rfl := Option.some.inj h
        refine ⟨pre ++ b :: post, [], rfl, fun y hy => ?_, fun _ h => (nomatch h)⟩
        rcases List.mem_append.mp hy with hy | hy
        · exact le_trans (hpre y hy) hle
        · rcases List.mem_cons.mp hy with rfl | hy
          · exact hle
          · exact le_trans (le_of_lt (hpost y hy)) hle
      case isFalse hlt =>
        obtain rfl := Option.some.inj h
        refine ⟨pre, post ++ [z], by simp, hpre, fun y hy => ?_⟩
        rcases List.mem_append.mp hy with hy | hy
        · exact hpost y hy
        · rw [List.mem_singleton.mp hy]
          exact not_le.mp hlt

theorem lastGreatest_mem (h : lastGreatest key l = some x) : x ∈ l := by
  obtain ⟨pre, post, rfl, -⟩ := lastGreatest_split h
  exact List.mem_append_right _ List.mem_cons_self

/-- Nothing in the list is greater. -/
theorem le_lastGreatest (h : lastGreatest key l = some x) (hy : y ∈ l) : key y ≤ key x := by
  obtain ⟨pre, post, rfl, hpre, hpost⟩ := lastGreatest_split h
  rcases List.mem_append.mp hy with hy | hy
  · exact hpre y hy
  · rcases List.mem_cons.mp hy with rfl | hy
    · exact le_rfl
    · exact le_of_lt (hpost y hy)

end greatest

/-! ## The rises of a sequence -/

section rises

variable {α : Type u} [LinearOrder α]

/-- `t` is above what is remembered, if anything is. -/
def Above (last : Option α) (t : α) : Prop := ∀ a, last = some a → a < t

instance (last : Option α) (t : α) : Decidable (Above last t) :=
  match last with
  | none => .isTrue fun _ h => (nomatch h)
  | some a => decidable_of_iff (a < t) ⟨fun h _ ha => Option.some.inj ha ▸ h, fun h => h a rfl⟩

/-- The elements above the one before them, `last` standing before the first. -/
def rises (last : Option α) : List α → List α
  | [] => []
  | t :: ts => if Above last t then t :: rises (some t) ts else rises (some t) ts

/-- No element rises above its predecessor without rising above all before it. -/
def Unbroken (l : List α) : Prop :=
  ∀ pre last t post, l = pre ++ last :: t :: post → last < t → ∀ e ∈ pre, e < t

/-- What is kept is of the list. -/
theorem mem_of_mem_rises {last : Option α} {l : List α} {x : α} (h : x ∈ rises last l) :
    x ∈ l := by
  induction l generalizing last with
  | nil => exact h
  | cons t ts ih =>
    rw [rises] at h
    by_cases ht : Above last t
    · rw [if_pos ht] at h
      rcases List.mem_cons.mp h with rfl | h
      · exact List.mem_cons_self
      · exact List.mem_cons_of_mem _ (ih h)
    · rw [if_neg ht] at h
      exact List.mem_cons_of_mem _ (ih h)

/-- What is remembered behind a list. -/
def lastOf (last : Option α) (l : List α) : Option α := l.getLast?.or last

omit [LinearOrder α] in
theorem lastOf_cons (last : Option α) (t : α) (ts : List α) :
    lastOf last (t :: ts) = lastOf (some t) ts := by
  cases ts with
  | nil => rfl
  | cons s ss => simp [lastOf, List.getLast?_cons]

/-- What is kept of two lists in a row: the second is compared from the end of the first. -/
theorem rises_append (last : Option α) (l ts : List α) :
    rises last (l ++ ts) = rises last l ++ rises (lastOf last l) ts := by
  induction l generalizing last with
  | nil => rfl
  | cons s l ih =>
    rw [List.cons_append, rises, rises, ih, lastOf_cons]
    split <;> rfl

/-- Nothing is above both what is remembered and all that is kept. -/
theorem exists_rise_ge {last : Option α} {l : List α} {x : α} (hx : x ∈ l) :
    (∃ a, last = some a ∧ x ≤ a) ∨ ∃ y ∈ rises last l, x ≤ y := by
  induction l generalizing last with
  | nil => cases hx
  | cons t ts ih =>
    -- `t` itself is kept, or is not above what is remembered
    have htop : (∃ a, last = some a ∧ t ≤ a) ∨ ∃ y ∈ rises last (t :: ts), t ≤ y := by
      by_cases ht : Above last t
      · refine .inr ⟨t, ?_, le_refl t⟩
        rw [rises, if_pos ht]
        exact List.mem_cons_self
      · simp only [Above, not_forall] at ht
        obtain ⟨a, ha, hlt⟩ := ht
        exact .inl ⟨a, ha, not_lt.mp hlt⟩
    rcases List.mem_cons.mp hx with rfl | hx
    · exact htop
    · have hrest : (∃ a, some t = some a ∧ x ≤ a) ∨ ∃ y ∈ rises (some t) ts, x ≤ y := ih hx
      rcases hrest with ⟨a, ha, hle⟩ | ⟨y, hy, hle⟩
      · obtain rfl := Option.some.inj ha
        rcases htop with ⟨b, hb, hle'⟩ | ⟨y, hy, hle'⟩
        · exact .inl ⟨b, hb, hle.trans hle'⟩
        · exact .inr ⟨y, hy, hle.trans hle'⟩
      · refine .inr ⟨y, ?_, hle⟩
        rw [rises]
        split
        · exact List.mem_cons_of_mem _ hy
        · exact hy

theorem Unbroken.of_append {l : List α} {t : α} (h : Unbroken (l ++ [t])) : Unbroken l := by
  rintro pre last s post rfl
  exact h pre last s (post ++ [t]) (by simp)

/-- **What is kept increases exactly where the sequence is unbroken.** -/
theorem rises_pairwise_iff (l : List α) : (rises none l).Pairwise (· < ·) ↔ Unbroken l := by
  constructor
  · rintro h pre last t post rfl hlt e he
    -- something kept before `t` is not below `e`, and `t` is kept
    have hsplit : rises none (pre ++ last :: t :: post)
        = rises none (pre ++ [last]) ++ rises (some last) (t :: post) := by
      rw [show pre ++ last :: t :: post = (pre ++ [last]) ++ (t :: post) by simp, rises_append]
      simp [lastOf]
    rw [hsplit, List.pairwise_append] at h
    have ht : t ∈ rises (some last) (t :: post) := by
      have habove : Above (some last) t := fun a ha => by rwa [← Option.some.inj ha]
      rw [rises, if_pos habove]
      exact List.mem_cons_self
    have hkept : (∃ a, none = some a ∧ e ≤ a) ∨ ∃ y ∈ rises none (pre ++ [last]), e ≤ y :=
      exists_rise_ge (List.mem_append_left [last] he)
    rcases hkept with ⟨a, ha, -⟩ | ⟨y, hy, hle⟩
    · cases ha
    · exact hle.trans_lt (h.2.2 y hy t ht)
  · induction l using List.reverseRecOn with
    | nil => intro _; exact .nil
    | append_singleton l t ih =>
      intro h
      rw [rises_append, List.pairwise_append]
      refine ⟨ih h.of_append, ?_, fun y hy s hs => ?_⟩
      · rw [rises, rises]
        split
        · exact List.pairwise_singleton _ _
        · exact .nil
      · -- the only element at the end is `t`, where it rises
        rw [rises, rises] at hs
        by_cases habove : Above (lastOf none l) t
        · rw [if_pos habove] at hs
          rw [List.mem_singleton.mp hs]
          have hyl := mem_of_mem_rises hy
          rcases List.eq_nil_or_concat l with rfl | ⟨pre, last, rfl⟩
          · cases hyl
          · rw [List.concat_eq_append] at hyl habove h
            have hlt : last < t := habove last (by simp [lastOf])
            rcases List.mem_append.mp hyl with hpre | hlast
            · exact h pre last t [] (by simp) hlt y hpre
            · rwa [List.mem_singleton.mp hlast]
        · rw [if_neg habove] at hs
          cases hs

end rises

/-! ## Lists drawn from another one -/

section drawn

variable {α : Type u} {β : Type v} {R R' : α → β → Prop} {as as' : List α} {bs bs' : List β}

open List

/-- Lists drawn from two lists in a row. -/
theorem drawn_append (h : SublistForall₂ R as bs) (h' : SublistForall₂ R as' bs') :
    SublistForall₂ R (as ++ as') (bs ++ bs') := by
  obtain ⟨cs, hcs, hsub⟩ := sublistForall₂_iff.mp h
  obtain ⟨cs', hcs', hsub'⟩ := sublistForall₂_iff.mp h'
  exact sublistForall₂_iff.mpr ⟨cs ++ cs', rel_append hcs hcs', hsub.append hsub'⟩

/-- There may be more to draw from. -/
theorem drawn_of_sublist (h : SublistForall₂ R as bs) (hsub : bs <+ bs') :
    SublistForall₂ R as bs' := by
  obtain ⟨cs, hcs, hsub'⟩ := sublistForall₂_iff.mp h
  exact sublistForall₂_iff.mpr ⟨cs, hcs, hsub'.trans hsub⟩

/-- What holds of all there is to draw from may be used of what is drawn. -/
theorem drawn_imp (h : SublistForall₂ R as bs) (himp : ∀ a, ∀ b ∈ bs, R a b → R' a b) :
    SublistForall₂ R' as bs := by
  induction h with
  | nil => exact .nil
  | cons hr _ ih =>
    exact .cons (himp _ _ mem_cons_self hr) (ih fun a b hb => himp a b (mem_cons_of_mem _ hb))
  | cons_right _ ih => exact .cons_right (ih fun a b hb => himp a b (mem_cons_of_mem _ hb))

end drawn

/-! ## A queue whose reader also sees blanks -/

section arrivals

variable {α : Type u} {β : Type v}

/-- A reading of `got` leaves `rest` of the queue `queue`. -/
inductive Arrives (blank : β) (f : α → List β) :
    (queue : List α) → (got : List β) → (rest : List α) → Prop where
  | done (q : List α) : Arrives blank f q [] q
  | next {a : α} {q rest : List α} {got : List β} :
      Arrives blank f q got rest → Arrives blank f (a :: q) (f a ++ got) rest
  | extra {q rest : List α} {got : List β} :
      Arrives blank f q got rest → Arrives blank f q (blank :: got) rest

namespace Arrives

variable {blank : β} {f : α → List β} {q r s : List α} {got more : List β}

/-- One reading after another. -/
theorem trans (h : Arrives blank f q got r) (h' : Arrives blank f r more s) :
    Arrives blank f q (got ++ more) s := by
  induction h with
  | done => exact h'
  | @next a q rest got _ ih =>
    rw [List.append_assoc]
    exact .next (ih h')
  | extra _ ih => exact .extra (ih h')

/-- What is sent meanwhile stays behind what is left. -/
theorem append (h : Arrives blank f q got r) (sent : List α) :
    Arrives blank f (q ++ sent) got (r ++ sent) := by
  induction h with
  | done q => exact .done _
  | next _ ih => exact .next ih
  | extra _ ih => exact .extra ih

/-- What holds of the items holds of those that are left. -/
theorem suffix (h : Arrives blank f q got r) : r <:+ q := by
  induction h with
  | done q => exact List.suffix_rfl
  | @next a q rest got _ ih => exact ih.trans (List.suffix_cons a q)
  | extra _ ih => exact ih

/-- A reading of items that stand for themselves, taken apart. -/
theorem split {blank : α} {q r ls ms : List α} (h : Arrives blank (fun a => [a]) q (ls ++ ms) r) :
    ∃ p, Arrives blank (fun a => [a]) q ls p ∧ Arrives blank (fun a => [a]) p ms r := by
  generalize hgot : ls ++ ms = got at h
  induction h generalizing ls with
  | done q =>
    obtain ⟨rfl, rfl⟩ := List.append_eq_nil_iff.mp hgot
    exact ⟨q, .done q, .done q⟩
  | @next a q rest got hrest ih =>
    cases ls with
    | nil =>
      rw [List.nil_append] at hgot
      exact ⟨a :: q, .done _, hgot ▸ .next (f := fun a => [a]) hrest⟩
    | cons l ls =>
      obtain ⟨rfl, htail⟩ := List.cons_eq_cons.mp hgot
      obtain ⟨p, hp, hp'⟩ := ih htail
      exact ⟨p, .next (f := fun a => [a]) hp, hp'⟩
  | @extra q rest got hrest ih =>
    cases ls with
    | nil =>
      rw [List.nil_append] at hgot
      exact ⟨q, .done _, hgot ▸ .extra hrest⟩
    | cons l ls =>
      obtain ⟨rfl, htail⟩ := List.cons_eq_cons.mp hgot
      obtain ⟨p, hp, hp'⟩ := ih htail
      exact ⟨p, .extra hp, hp'⟩

/-- **Conservation**: the items taken off the queue are the first ones; all they stand for
is read, in order; and what else is read is blank. -/
theorem conserved [DecidableEq β] (h : Arrives blank f q got r) :
    ∃ taken, q = taken ++ r ∧ (taken.flatMap f).Sublist got ∧
      got.filter (· ≠ blank) = (taken.flatMap f).filter (· ≠ blank) := by
  induction h with
  | done q => exact ⟨[], rfl, List.nil_sublist _, rfl⟩
  | @next a q rest got _ ih =>
    obtain ⟨taken, rfl, hsub, hfilter⟩ := ih
    refine ⟨a :: taken, rfl, ?_, ?_⟩
    · rw [List.flatMap_cons]
      exact hsub.append_left (f a)
    · rw [List.flatMap_cons, List.filter_append, List.filter_append, hfilter]
  | @extra q rest got _ ih =>
    obtain ⟨taken, rfl, hsub, hfilter⟩ := ih
    exact ⟨taken, rfl, hsub.cons blank, by rw [List.filter_cons_of_neg (by simp), hfilter]⟩

end Arrives

end arrivals

/-! ## Transducers fed in blocks -/

/-- A deterministic transducer. -/
structure Transducer (σ : Type u) (α : Type v) (β : Type w) where
  step : σ → α → σ × List β

namespace Transducer

variable {σ : Type u} {α : Type v} {β : Type w} (T : Transducer σ α β)

/-- Feed a list of elements: the state behind it and what is emitted. -/
def feed : σ → List α → σ × List β
  | s, [] => (s, [])
  | s, a :: as =>
    let r := T.step s a
    let t := feed r.1 as
    (t.1, r.2 ++ t.2)

/-- Feed a stream block by block, forgetting part of the state before each. -/
def feedBlocks (forget : σ → σ) : σ → List (List α) → σ × List β
  | s, [] => (s, [])
  | s, b :: bs =>
    let r := T.feed (forget s) b
    let t := feedBlocks forget r.1 bs
    (t.1, r.2 ++ t.2)

/-- What is forgotten before a block does not matter to the block. -/
def Seamless (forget : σ → σ) : σ → List (List α) → Prop
  | _, [] => True
  | s, b :: bs => T.feed (forget s) b = T.feed s b ∧ Seamless forget (T.feed s b).1 bs

variable {T}

@[simp] theorem feed_nil (s : σ) : T.feed s [] = (s, []) := rfl

theorem feed_cons (s : σ) (a : α) (as : List α) :
    T.feed s (a :: as)
      = ((T.feed (T.step s a).1 as).1, (T.step s a).2 ++ (T.feed (T.step s a).1 as).2) := rfl

/-- Feeding two lists in a row. -/
theorem feed_append (s : σ) (as bs : List α) :
    T.feed s (as ++ bs)
      = ((T.feed (T.feed s as).1 bs).1, (T.feed s as).2 ++ (T.feed (T.feed s as).1 bs).2) := by
  induction as generalizing s with
  | nil => rfl
  | cons a as ih =>
    rw [List.cons_append, feed_cons, ih, feed_cons, List.append_assoc]

@[simp] theorem feedBlocks_nil (forget : σ → σ) (s : σ) : T.feedBlocks forget s [] = (s, []) := rfl

theorem feedBlocks_cons (forget : σ → σ) (s : σ) (b : List α) (bs : List (List α)) :
    T.feedBlocks forget s (b :: bs)
      = ((T.feedBlocks forget (T.feed (forget s) b).1 bs).1,
        (T.feed (forget s) b).2 ++ (T.feedBlocks forget (T.feed (forget s) b).1 bs).2) := rfl

/-- **Blocks do not matter** when what is forgotten between them does not. -/
theorem feedBlocks_eq {forget : σ → σ} {s : σ} {bs : List (List α)}
    (h : T.Seamless forget s bs) : T.feedBlocks forget s bs = T.feed s bs.flatten := by
  induction bs generalizing s with
  | nil => rfl
  | cons b bs ih => rw [feedBlocks_cons, h.1, ih h.2, List.flatten_cons, feed_append]

/-- Blocks, and then more of them. -/
theorem feedBlocks_append (forget : σ → σ) (s : σ) (bs cs : List (List α)) :
    T.feedBlocks forget s (bs ++ cs)
      = ((T.feedBlocks forget (T.feedBlocks forget s bs).1 cs).1,
        (T.feedBlocks forget s bs).2 ++ (T.feedBlocks forget (T.feedBlocks forget s bs).1 cs).2) := by
  induction bs generalizing s with
  | nil => rfl
  | cons b bs ih => rw [List.cons_append, feedBlocks_cons, ih, feedBlocks_cons, List.append_assoc]

end Transducer

end Lib
