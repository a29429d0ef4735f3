import Mathlib.Order.Lattice

/-!
# Ordered maps

A map with ordered keys, iterated in increasing key order: what `std::map` is to
its users. It is a list of entries together with the proof that the keys strictly
increase, so that no key occurs twice and the list is the iteration order.

- `find?`, `insert`, `erase`, `modify`, `mapVals`;
- `find?_eq_some_iff`: finding a key is having its entry;
- `find?_insert`, `find?_erase`, `find?_modify`: the effect of each operation on
  every key;
- `Numbers`: a table that gives each new key the next number is a bijection with the places of
  the list of the keys by number, so that a key has one number and no number has two keys.
-/

namespace Lib

universe u v

/-- A map with strictly increasing keys. -/
structure OrdMap (κ : Type u) (ν : Type v) [LinearOrder κ] where
  entries : List (κ × ν)
  sorted : entries.Pairwise fun a b => a.1 < b.1

namespace OrdMap

variable {κ : Type u} {ν : Type v} [LinearOrder κ]

theorem ext {m m' : OrdMap κ ν} (h : m.entries = m'.entries) : m = m' := by
  cases m
  cases m'
  cases h
  rfl

/-- The map without entries. -/
def empty : OrdMap κ ν := ⟨[], .nil⟩

instance : Inhabited (OrdMap κ ν) := ⟨empty⟩

/-- The keys, in order. -/
def keys (m : OrdMap κ ν) : List κ := m.entries.map Prod.fst

/-! ## Looking a key up -/

/-- The value of the first entry of `k`. -/
def findIn (k : κ) : List (κ × ν) → Option ν
  | [] => none
  | e :: es => if k = e.1 then some e.2 else findIn k es

/-- `m.find (k)`, `none` being `m.end ()`. -/
def find? (m : OrdMap κ ν) (k : κ) : Option ν := findIn k m.entries

/-- `k` has an entry. -/
def contains (m : OrdMap κ ν) (k : κ) : Bool := (m.find? k).isSome

/-- What is found is there. -/
theorem findIn_mem {k : κ} {v : ν} : ∀ {es : List (κ × ν)}, findIn k es = some v → (k, v) ∈ es
  | e :: es, h => by
    unfold findIn at h
    by_cases hk : k = e.1
    · rw [if_pos hk] at h
      cases Option.some.inj h
      rw [hk]
      exact List.mem_cons_self
    · rw [if_neg hk] at h
      exact List.mem_cons_of_mem _ (findIn_mem h)

/-- And what is there is found, as no smaller key hides it. -/
theorem findIn_of_mem {k : κ} {v : ν} :
    ∀ {es : List (κ × ν)}, es.Pairwise (fun a b => a.1 < b.1) → (k, v) ∈ es →
      findIn k es = some v
  | e :: es, hs, h => by
    unfold findIn
    rcases List.mem_cons.mp h with rfl | h
    · exact if_pos rfl
    · have hlt : e.1 < k := List.rel_of_pairwise_cons hs h
      rw [if_neg (ne_of_gt hlt)]
      exact findIn_of_mem hs.of_cons h

/-- Finding a key is having its entry. -/
theorem find?_eq_some_iff {m : OrdMap κ ν} {k : κ} {v : ν} :
    m.find? k = some v ↔ (k, v) ∈ m.entries :=
  ⟨findIn_mem, findIn_of_mem m.sorted⟩

/-- A key is not found where it has no entry. -/
theorem find?_eq_none_iff {m : OrdMap κ ν} {k : κ} : m.find? k = none ↔ k ∉ m.keys := by
  constructor
  · intro h hk
    obtain ⟨⟨k', v⟩, hmem, rfl⟩ := List.mem_map.mp hk
    rw [find?_eq_some_iff.mpr hmem] at h
    cases h
  · intro h
    cases hf : m.find? k with
    | none => rfl
    | some v => exact absurd (List.mem_map.mpr ⟨(k, v), find?_eq_some_iff.mp hf, rfl⟩) h

@[simp] theorem find?_empty (k : κ) : (empty : OrdMap κ ν).find? k = none := rfl

theorem contains_iff {m : OrdMap κ ν} {k : κ} : m.contains k = true ↔ ∃ v, m.find? k = some v :=
  Option.isSome_iff_exists

theorem mem_keys_iff {m : OrdMap κ ν} {k : κ} : k ∈ m.keys ↔ m.contains k = true := by
  rw [contains, Option.isSome_iff_ne_none, ne_eq, find?_eq_none_iff, Decidable.not_not]

/-- Maps that agree on every key are equal. -/
theorem ext_find? {m m' : OrdMap κ ν} (h : ∀ k, m.find? k = m'.find? k) : m = m' := by
  refine ext (List.Perm.eq_of_pairwise ?_ m.sorted m'.sorted ?_)
  · intro a b _ _ hab hba
    exact absurd hab (lt_asymm hba)
  · have hnodup : ∀ x : OrdMap κ ν, x.entries.Nodup := fun x =>
      x.sorted.imp fun {a b} hlt heq => absurd (congrArg Prod.fst heq) (ne_of_lt hlt)
    refine (List.perm_ext_iff_of_nodup (hnodup m) (hnodup m')).mpr ?_
    rintro ⟨k, v⟩
    rw [← find?_eq_some_iff, ← find?_eq_some_iff, h]

/-! ## `insert` -/

/-- Put an entry in its place, instead of the one its key may have. -/
def insertIn (k : κ) (v : ν) : List (κ × ν) → List (κ × ν)
  | [] => [(k, v)]
  | e :: es =>
    if k < e.1 then (k, v) :: e :: es
    else if k = e.1 then (k, v) :: es
    else e :: insertIn k v es

theorem mem_insertIn {k : κ} {v : ν} {x : κ × ν} :
    ∀ {es : List (κ × ν)}, x ∈ insertIn k v es → x = (k, v) ∨ x ∈ es
  | [], h => .inl (List.mem_singleton.mp h)
  | e :: es, h => by
    unfold insertIn at h
    by_cases hlt : k < e.1
    · rw [if_pos hlt] at h
      exact List.mem_cons.mp h
    · rw [if_neg hlt] at h
      by_cases heq : k = e.1
      · rw [if_pos heq] at h
        exact (List.mem_cons.mp h).imp_right (List.mem_cons_of_mem _)
      · rw [if_neg heq] at h
        rcases List.mem_cons.mp h with rfl | h
        · exact .inr List.mem_cons_self
        · exact (mem_insertIn h).imp_right (List.mem_cons_of_mem _)

/-- Inserting keeps the order. -/
theorem sorted_insertIn (k : κ) (v : ν) :
    ∀ {es : List (κ × ν)}, es.Pairwise (fun a b => a.1 < b.1) →
      (insertIn k v es).Pairwise fun a b => a.1 < b.1
  | [], _ => List.pairwise_singleton _ _
  | e :: es, hs => by
    unfold insertIn
    by_cases hlt : k < e.1
    · rw [if_pos hlt]
      refine List.pairwise_cons.mpr ⟨fun x hx => ?_, hs⟩
      rcases List.mem_cons.mp hx with rfl | hx
      · exact hlt
      · exact lt_trans hlt (List.rel_of_pairwise_cons hs hx)
    · rw [if_neg hlt]
      by_cases heq : k = e.1
      · rw [if_pos heq]
        refine List.pairwise_cons.mpr ⟨fun x hx => ?_, hs.of_cons⟩
        show k < x.1
        rw [heq]
        exact List.rel_of_pairwise_cons hs hx
      · rw [if_neg heq]
        refine List.pairwise_cons.mpr ⟨fun x hx => ?_, sorted_insertIn k v hs.of_cons⟩
        rcases mem_insertIn hx with rfl | hx
        · exact lt_of_le_of_ne (not_lt.mp hlt) (Ne.symm heq)
        · exact List.rel_of_pairwise_cons hs hx

/-- `m [k] = v`. -/
def insert (m : OrdMap κ ν) (k : κ) (v : ν) : OrdMap κ ν :=
  ⟨insertIn k v m.entries, sorted_insertIn k v m.sorted⟩

/-- An insertion changes the value of its key only. -/
theorem findIn_insertIn (k k' : κ) (v : ν) :
    ∀ es : List (κ × ν),
      findIn k' (insertIn k v es) = if k' = k then some v else findIn k' es
  | [] => rfl
  | e :: es => by
    unfold insertIn
    by_cases hlt : k < e.1
    · rw [if_pos hlt]
      rfl
    · rw [if_neg hlt]
      by_cases heq : k = e.1
      · rw [if_pos heq]
        unfold findIn
        by_cases hk : k' = k
        · rw [if_pos hk, if_pos hk]
        · rw [if_neg hk, if_neg hk, if_neg (heq ▸ hk)]
      · rw [if_neg heq, findIn, findIn_insertIn k k' v es, findIn]
        by_cases hk : k' = k
        · rw [if_pos hk, if_pos hk, if_neg (by rw [hk]; exact heq)]
        · rw [if_neg hk, if_neg hk]

/-- **Insertion**: the new value under its key, the old ones under all others. -/
theorem find?_insert (m : OrdMap κ ν) (k k' : κ) (v : ν) :
    (m.insert k v).find? k' = if k' = k then some v else m.find? k' :=
  findIn_insertIn k k' v m.entries

@[simp] theorem find?_insert_self (m : OrdMap κ ν) (k : κ) (v : ν) :
    (m.insert k v).find? k = some v := by
  rw [find?_insert, if_pos rfl]

theorem find?_insert_other {m : OrdMap κ ν} {k k' : κ} (v : ν) (h : k' ≠ k) :
    (m.insert k v).find? k' = m.find? k' := by
  rw [find?_insert, if_neg h]

theorem mem_keys_insert {m : OrdMap κ ν} {k k' : κ} {v : ν} :
    k' ∈ (m.insert k v).keys ↔ k' = k ∨ k' ∈ m.keys := by
  have hmem : ∀ n : OrdMap κ ν, k' ∈ n.keys ↔ n.find? k' ≠ none := fun n => by
    rw [ne_eq, find?_eq_none_iff, Decidable.not_not]
  rw [hmem, hmem, find?_insert]
  by_cases h : k' = k
  · simp [h]
  · simp [h]

theorem contains_insert {m : OrdMap κ ν} {k k' : κ} {v : ν} :
    (m.insert k v).contains k' = true ↔ k' = k ∨ m.contains k' = true := by
  rw [← mem_keys_iff, ← mem_keys_iff, mem_keys_insert]

/-! ## `erase` -/

/-- `m.erase (k)`. -/
def erase (m : OrdMap κ ν) (k : κ) : OrdMap κ ν :=
  ⟨m.entries.filter fun e => e.1 ≠ k, m.sorted.filter _⟩

/-- **Erasure**: nothing under its key, the old values under all others. -/
theorem find?_erase (m : OrdMap κ ν) (k k' : κ) :
    (m.erase k).find? k' = if k' = k then none else m.find? k' := by
  by_cases hk : k' = k
  · rw [if_pos hk, find?_eq_none_iff]
    intro hmem
    obtain ⟨e, he, rfl⟩ := List.mem_map.mp hmem
    have hne := (List.mem_filter.mp he).2
    simp [hk] at hne
  · rw [if_neg hk]
    cases hf : m.find? k' with
    | none =>
      rw [find?_eq_none_iff] at hf ⊢
      intro hmem
      obtain ⟨e, he, rfl⟩ := List.mem_map.mp hmem
      exact hf (List.mem_map_of_mem (List.mem_filter.mp he).1)
    | some v =>
      rw [find?_eq_some_iff] at hf ⊢
      exact List.mem_filter.mpr ⟨hf, by simpa using hk⟩

theorem contains_erase {m : OrdMap κ ν} {k k' : κ} :
    (m.erase k).contains k' = true ↔ k' ≠ k ∧ m.contains k' = true := by
  rw [contains, contains, find?_erase]
  by_cases h : k' = k
  · simp [h]
  · simp [h]

/-! ## `modify` and `mapVals` -/

/-- Every value by a function of its key and itself. -/
def mapVals {ν' : Type*} (m : OrdMap κ ν) (f : κ → ν → ν') : OrdMap κ ν' :=
  ⟨m.entries.map fun e => (e.1, f e.1 e.2), List.pairwise_map.mpr m.sorted⟩

/-- The value of `k`, if it has one, by a function of itself. -/
def modify (m : OrdMap κ ν) (k : κ) (f : ν → ν) : OrdMap κ ν :=
  m.mapVals fun k' v => if k' = k then f v else v

theorem findIn_map {ν' : Type*} (f : κ → ν → ν') (k : κ) :
    ∀ es : List (κ × ν),
      findIn k (es.map fun e => (e.1, f e.1 e.2)) = (findIn k es).map (f k)
  | [] => rfl
  | e :: es => by
    rw [List.map_cons]
    unfold findIn
    by_cases hk : k = e.1
    · rw [if_pos hk, if_pos hk, hk]
      rfl
    · rw [if_neg hk, if_neg hk]
      exact findIn_map f k es

/-- A map over the values keeps the keys. -/
theorem find?_mapVals {ν' : Type*} (m : OrdMap κ ν) (f : κ → ν → ν') (k : κ) :
    (m.mapVals f).find? k = (m.find? k).map (f k) := findIn_map f k m.entries

/-- **Modification**: at its key, if there is an entry. -/
theorem find?_modify (m : OrdMap κ ν) (k k' : κ) (f : ν → ν) :
    (m.modify k f).find? k' = (m.find? k').map fun v => if k' = k then f v else v :=
  find?_mapVals m _ k'

@[simp] theorem keys_mapVals {ν' : Type*} (m : OrdMap κ ν) (f : κ → ν → ν') :
    (m.mapVals f).keys = m.keys := by
  simp [keys, mapVals]

@[simp] theorem contains_modify (m : OrdMap κ ν) (k k' : κ) (f : ν → ν) :
    (m.modify k f).contains k' = m.contains k' := by
  rw [contains, contains, find?_modify, Option.isSome_map]

@[simp] theorem keys_modify (m : OrdMap κ ν) (k : κ) (f : ν → ν) :
    (m.modify k f).keys = m.keys := keys_mapVals m _

/-- A value modified twice. -/
theorem modify_modify (m : OrdMap κ ν) (k : κ) (f g : ν → ν) :
    (m.modify k f).modify k g = m.modify k fun v => g (f v) := by
  refine ext_find? fun k' => ?_
  rw [find?_modify, find?_modify, find?_modify, Option.map_map]
  refine congrArg (Option.map · _) (funext fun v => ?_)
  by_cases hk : k' = k
  · simp only [Function.comp, if_pos hk]
  · simp only [Function.comp, if_neg hk]

/-- One value modified, in its place. -/
theorem entries_modify {m : OrdMap κ ν} {k : κ} {v : ν} {pre post : List (κ × ν)}
    (h : m.entries = pre ++ (k, v) :: post) (f : ν → ν) :
    (m.modify k f).entries = pre ++ (k, f v) :: post := by
  have hs := m.sorted
  rw [h, List.pairwise_append, List.pairwise_cons] at hs
  obtain ⟨-, ⟨hpost, -⟩, hpre⟩ := hs
  have hsame : ∀ es : List (κ × ν), (∀ e ∈ es, e.1 ≠ k) →
      es.map (fun e => (e.1, if e.1 = k then f e.2 else e.2)) = es := by
    intro es hes
    refine (List.map_congr_left fun e he => ?_).trans (List.map_id es)
    rw [if_neg (hes e he)]
    rfl
  show m.entries.map (fun e => (e.1, if e.1 = k then f e.2 else e.2)) = _
  rw [h, List.map_append, List.map_cons,
    hsame pre fun e he => ne_of_lt (hpre e he (k, v) List.mem_cons_self),
    hsame post fun e he => ne_of_gt (hpost e he), if_pos rfl]

/-- Inserting under a key that has a value changes the value. -/
theorem insert_eq_modify {m : OrdMap κ ν} {k : κ} (h : m.contains k = true) (v : ν) :
    m.insert k v = m.modify k fun _ => v := by
  refine ext_find? fun k' => ?_
  rw [find?_insert, find?_modify]
  obtain ⟨v₀, hv₀⟩ := contains_iff.mp h
  by_cases hk : k' = k
  · subst hk
    simp [hv₀]
  · simp [hk]

/-- An insertion under a key that is there adds none. -/
theorem keys_insert {m : OrdMap κ ν} {k : κ} (h : m.contains k = true) (v : ν) :
    (m.insert k v).keys = m.keys := by
  rw [insert_eq_modify h, keys_modify]

/-- The keys behind a loop of insertions. -/
theorem mem_keys_foldl_insert {kvs : List (κ × ν)} {m : OrdMap κ ν} {k : κ} :
    k ∈ (kvs.foldl (fun m kv => m.insert kv.1 kv.2) m).keys ↔ k ∈ kvs.map Prod.fst ∨ k ∈ m.keys := by
  induction kvs generalizing m with
  | nil => simp
  | cons kv kvs ih =>
    rw [List.foldl_cons, ih, mem_keys_insert, List.map_cons, List.mem_cons, or_left_comm,
      ← or_assoc]

/-- The values, in the order of the keys. -/
theorem values_eq (m : OrdMap κ ν) (d : ν) :
    m.entries.map Prod.snd = m.keys.map fun k => (m.find? k).getD d := by
  rw [keys, List.map_map]
  refine List.map_congr_left fun e he => ?_
  rw [Function.comp_apply, find?_eq_some_iff.mpr he]
  rfl

/-- The keys come in order, each once. -/
theorem keys_sorted (m : OrdMap κ ν) : m.keys.Pairwise (· < ·) := List.pairwise_map.mpr m.sorted

theorem keys_nodup (m : OrdMap κ ν) : m.keys.Nodup :=
  m.keys_sorted.imp fun h => ne_of_lt h

/-- Maps with the same keys have them in the same order. -/
theorem keys_eq_of_mem {ν' : Type*} {m : OrdMap κ ν} {m' : OrdMap κ ν'}
    (h : ∀ k, k ∈ m.keys ↔ k ∈ m'.keys) : m.keys = m'.keys := by
  refine List.Perm.eq_of_pairwise ?_ m.keys_sorted m'.keys_sorted
    ((List.perm_ext_iff_of_nodup m.keys_nodup m'.keys_nodup).mpr h)
  exact fun a b _ _ hab hba => absurd hab (lt_asymm hba)

/-- The values, by number. -/
theorem values_getElem? (m : OrdMap κ ν) (n : Nat) :
    (m.entries.map Prod.snd)[n]? = m.keys[n]?.bind m.find? := by
  rw [keys, List.getElem?_map, List.getElem?_map]
  cases he : m.entries[n]? with
  | none => rfl
  | some e => exact (find?_eq_some_iff.mpr (List.mem_of_getElem? he)).symm

end OrdMap

/-! ## Numbers given to keys as they first come -/

section numbering

variable {κ : Type u} [LinearOrder κ] {m : OrdMap κ Nat} {ks : List κ} {k k' : κ} {i : Nat}

/-- The map gives the keys of the list their places. -/
def Numbers (m : OrdMap κ Nat) (ks : List κ) : Prop := ∀ k i, m.find? k = some i ↔ ks[i]? = some k

namespace Numbers

theorem empty : Numbers (.empty : OrdMap κ Nat) [] := fun _ _ =>
  ⟨fun h => (nomatch h), fun h => (nomatch h)⟩

/-- A key has a number exactly where it has come. -/
theorem mem_iff (h : Numbers m ks) : k ∈ ks ↔ ∃ i, m.find? k = some i := by
  rw [List.mem_iff_getElem?]
  exact exists_congr fun i => (h k i).symm

theorem not_mem (h : Numbers m ks) (hk : m.find? k = none) : k ∉ ks := fun hmem => by
  obtain ⟨i, hi⟩ := h.mem_iff.mp hmem
  rw [hk] at hi
  cases hi

/-- Its number is below the count of keys. -/
theorem lt_length (h : Numbers m ks) (hk : m.find? k = some i) : i < ks.length :=
  (List.getElem?_eq_some_iff.mp ((h k i).mp hk)).1

/-- No key has two places. -/
theorem nodup (h : Numbers m ks) : ks.Nodup := by
  -- a key at two places would have two numbers
  refine List.pairwise_iff_getElem.mpr fun i j hi hj hlt heq => ?_
  have hfi := (h ks[i] i).mpr (List.getElem?_eq_getElem hi)
  have hfj := (h ks[j] j).mpr (List.getElem?_eq_getElem hj)
  rw [heq, hfj] at hfi
  exact absurd (Option.some.inj hfi) (Nat.ne_of_gt hlt)

/-- A new key gets the next number. -/
theorem push (h : Numbers m ks) (hk : m.find? k = none) :
    Numbers (m.insert k ks.length) (ks ++ [k]) := by
  intro k' i
  rw [OrdMap.find?_insert, List.getElem?_append]
  -- the new key, or one that keeps its place
  by_cases heq : k' = k
  · subst heq
    rw [if_pos rfl, Option.some.injEq]
    constructor
    · rintro rfl
      rw [if_neg (Nat.lt_irrefl _), Nat.sub_self, List.getElem?_cons_zero]
    · intro hi
      split at hi
      · exact absurd (List.mem_of_getElem? hi) (h.not_mem hk)
      · have hlt := (List.getElem?_eq_some_iff.mp hi).1
        simp only [List.length_singleton] at hlt
        omega
  · rw [if_neg heq, h]
    split
    · exact .rfl
    case isFalse hge =>
      refine ⟨fun hi => absurd (List.getElem?_eq_some_iff.mp hi).1 hge, fun hi => ?_⟩
      exact absurd (List.mem_singleton.mp (List.mem_of_getElem? hi)) heq

end Numbers

end numbering

end Lib
