import Mathlib.Data.List.Nodup
import Qigong.Measure.Variables

/-!
# The names of the data sources of variables (qimeasure.cpp:715–750, 800–818, 1008–1018)

A name is cut to twelve characters, and gets a digit where what is left is taken. What is
looked up there are the names of the variables, though, and not what they were cut to: two
names that are cut to the same are told apart only where the list of the variables happens
to have this itself (`tags_distinct_iff`).
-/

namespace Qigong.Measure

namespace MMySQLGStatus

variable {param name name' r : Bytes} {taken taken' : List Bytes}

/-! ## What is kept of a name -/

theorem kept_eq_self {sup nbsup : Int} (h : sup ≤ nbsup) (cs : Bytes) : kept sup nbsup cs = cs := by
  induction cs with
  | nil => rfl
  | cons c cs ih => rw [kept, if_neg (fun hc => absurd hc.1 (Int.not_lt.mpr h)), ih]

/-- No more characters go than are to be suppressed. -/
theorem length_kept {sup nbsup : Int} (h : nbsup ≤ sup) (cs : Bytes) :
    (cs.length : Int) ≤ (kept sup nbsup cs).length + (sup - nbsup) := by
  induction cs generalizing nbsup with
  | nil =>
    show (0 : Int) ≤ 0 + (sup - nbsup)
    omega
  | cons c cs ih =>
    rw [kept]
    split
    case isTrue hc =>
      have hcs := ih (Int.add_one_le_of_lt hc.1)
      rw [List.length_cons]
      omega
    case isFalse =>
      have hcs := ih h
      rw [List.length_cons, List.length_cons]
      omega

/-- A short name is kept as it is. -/
theorem cut_of_short (h : name.length ≤ 12) : cut name = name := by
  rw [cut, kept_eq_self (by omega), List.reverse_reverse, List.take_of_length_le h]

/-- Of a long name twelve characters are left. -/
theorem length_cut_of_long (h : 12 ≤ name.length) : (cut name).length = 12 := by
  have hkept : (name.reverse.length : Int)
      ≤ (kept (name.length - 12) 0 name.reverse).length + (name.length - 12 - 0) :=
    length_kept (by omega) _
  rw [List.length_reverse] at hkept
  rw [cut, List.length_take, List.length_reverse]
  omega

theorem length_cut_le : (cut name).length ≤ 12 := List.length_take_le _ _

/-- What a name is cut to is taken by another name only where the name is long. -/
theorem length_cut_of_taken (hcut : cut name ∈ taken) (hname : name ∉ taken) :
    (cut name).length = 12 := by
  apply length_cut_of_long
  by_contra hshort
  have hself : cut name = name := cut_of_short (by omega)
  exact hname (hself ▸ hcut)

/-! ## Digits -/

/-- Where a search of fewer gives something else, what the search of more gives is not
among the fewer. -/
theorem find?_ne_iff {α : Type*} {p q : α → Bool} (h : ∀ a, q a = true → p a = true) (l : List α) :
    l.find? p ≠ l.find? q ↔ ∃ a, l.find? p = some a ∧ q a = false := by
  induction l with
  | nil => simp
  | cons a l ih =>
    rw [List.find?_cons, List.find?_cons]
    cases hp : p a with
    | false =>
      have hq : q a = false := Bool.eq_false_iff.mpr fun hq => absurd (h a hq) (by simp [hp])
      rw [hq]
      exact ih
    | true =>
      cases hq : q a with
      | true => simp [hq]
      | false =>
        refine iff_of_true (fun heq => ?_) ⟨a, rfl, hq⟩
        have hqa := List.find?_some heq.symm
        exact absurd (hq.symm.trans hqa) Bool.false_ne_true

/-- The digit changes where it has been taken meanwhile. -/
theorem freeDigit_ne_iff (h : taken ⊆ taken') :
    freeDigit taken r ≠ freeDigit taken' r ↔
      ∃ d, freeDigit taken r = some d ∧ r ++ [d] ∈ taken' := by
  unfold freeDigit
  rw [find?_ne_iff]
  · simp only [decide_eq_false_iff_not, not_not]
  · intro d hd
    exact decide_eq_true fun hmem => of_decide_eq_true hd (h hmem)

/-! ## Two names -/

/-- Two names that are cut to `r` are told apart, these being taken before the one and these
before the other: `r` is taken before the other; and where it is taken before the one
already, the first free digit there is taken before the other, else there is a free digit. -/
def Apart (taken taken' : List Bytes) (r : Bytes) : Prop :=
  r ∈ taken' ∧ (r ∈ taken → ∃ d, freeDigit taken r = some d ∧ r ++ [d] ∈ taken') ∧
    (r ∉ taken → freeDigit taken' r ≠ none)

/-- An abbreviation is what is left of a name, and a digit behind twelve characters at most. -/
theorem abbreviated_eq (hname : name ∉ taken) :
    ∃ t, abbreviated taken name = cut name ++ t ∧ (t = [] ∨ (cut name).length = 12) := by
  unfold abbreviated
  split
  case isTrue hcut => exact ⟨_, rfl, .inr (length_cut_of_taken hcut hname)⟩
  case isFalse => exact ⟨[], (List.append_nil _).symm, .inl rfl⟩

/-- Names that are abbreviated alike are cut alike. -/
theorem cut_eq_of_abbreviated (hname : name ∉ taken) (hname' : name' ∉ taken')
    (h : abbreviated taken name = abbreviated taken' name') : cut name = cut name' := by
  obtain ⟨t, ht, hlen⟩ := abbreviated_eq hname
  obtain ⟨t', ht', hlen'⟩ := abbreviated_eq hname'
  rw [ht, ht'] at h
  apply List.append_inj_left h
  have hle : (cut name).length ≤ 12 := length_cut_le
  have hle' : (cut name').length ≤ 12 := length_cut_le
  have hsum := congrArg List.length h
  rw [List.length_append, List.length_append] at hsum
  rw [← List.length_eq_zero_iff] at hlen hlen'
  omega

theorem abbreviated_ne_iff (h : taken ⊆ taken') (hcut : cut name = cut name') :
    abbreviated taken name ≠ abbreviated taken' name' ↔ Apart taken taken' (cut name) := by
  unfold abbreviated Apart
  rw [← hcut]
  by_cases htaken : cut name ∈ taken
  · have hlist : ∀ o o' : Option UInt8, o.toList = o'.toList ↔ o = o' := by
      intro o o'
      cases o <;> cases o' <;> simp
    rw [if_pos htaken, if_pos (h htaken), ne_eq, List.append_cancel_left_eq, hlist,
      ← ne_eq, freeDigit_ne_iff h]
    exact ⟨fun hd => ⟨h htaken, fun _ => hd, fun hno => absurd htaken hno⟩,
      fun hapart => hapart.2.1 htaken⟩
  · rw [if_neg htaken]
    by_cases htaken' : cut name ∈ taken'
    · rw [if_pos htaken', ne_eq, List.self_eq_append_right, Option.toList_eq_nil_iff]
      exact ⟨fun hd => ⟨htaken', fun hmem => absurd hmem htaken, fun _ => hd⟩,
        fun hapart => hapart.2.2 htaken⟩
    · rw [if_neg htaken']
      exact iff_of_false (fun hne => hne rfl) fun hapart => htaken' hapart.1

/-! ## All names of a point -/

/-- All of these names that are cut alike are told apart. -/
def Distinguished (ns : List Bytes) : Prop :=
  ∀ as n bs m cs, ns = as ++ n :: (bs ++ m :: cs) → cut n = cut m →
    Apart as (as ++ n :: bs) (cut n)

/-- The abbreviation of a variable that is mentioned once. -/
theorem find?_make {as bs : List Bytes} (hnodup : (names param).Nodup)
    (h : names param = as ++ name :: bs) :
    (make param).gvar.find? name = some (abbreviated as name) := by
  have hmem : name ∈ names param := h ▸ List.mem_append_right as List.mem_cons_self
  obtain ⟨before, htype, behind, hwords, hbehind⟩ := exists_lastMention hmem
  have hnames : names param = named before ++ name :: named behind := by
    rw [names, hwords, named, List.filter_append, List.filter_cons_of_pos (by simpa using htype)]
    rfl
  have hfree : name ∉ as ∧ name ∉ bs := by
    rw [h, List.nodup_middle, List.nodup_cons, List.mem_append, not_or] at hnodup
    exact hnodup.1
  obtain ⟨rfl, -, -⟩ := (List.append_cons_inj_of_notMem hfree.1 hfree.2).mp (h.symm.trans hnames)
  have hfind := (find?_readwords before htype hbehind).1
  rw [← hwords] at hfind
  exact hfind

/-- The abbreviations of two variables differ exactly where they are told apart. -/
theorem find?_make_ne_iff {as bs cs : List Bytes} (hnodup : (names param).Nodup)
    (h : names param = as ++ name :: (bs ++ name' :: cs)) :
    (make param).gvar.find? name ≠ (make param).gvar.find? name' ↔
      (cut name = cut name' → Apart as (as ++ name :: bs) (cut name)) := by
  have h' : names param = (as ++ name :: bs) ++ name' :: cs := by
    rw [h, List.append_assoc, List.cons_append]
  have hsub : as ⊆ as ++ name :: bs := List.subset_append_left _ _
  rw [find?_make hnodup h, find?_make hnodup h', ne_eq, Option.some.injEq]
  constructor
  · exact fun hne hcut => (abbreviated_ne_iff hsub hcut).mp hne
  · intro hapart heq
    have hname : name ∉ as := fun hmem =>
      (List.nodup_append.mp (h ▸ hnodup)).2.2 name hmem name List.mem_cons_self rfl
    have hname' : name' ∉ as ++ name :: bs := fun hmem =>
      (List.nodup_append.mp (h' ▸ hnodup)).2.2 name' hmem name' List.mem_cons_self rfl
    have hcut := cut_eq_of_abbreviated hname hname' heq
    exact (abbreviated_ne_iff hsub hcut).mpr (hapart hcut) heq

/-- The suffixes are the values of the map. -/
theorem map_get_tagsub (m : MMySQLGStatus) :
    (List.range m.get_nbpoints).map (fun (n : Nat) => m.get_tagsub n)
      = m.gvar.entries.map Prod.snd := by
  refine List.ext_getElem ?_ fun n hn hn' => ?_
  · rw [List.length_map, List.length_range, List.length_map]
    rfl
  · have hpos : (0 : Int) ≤ n := Int.natCast_nonneg n
    rw [List.getElem_map, List.getElem_range, get_tagsub, nth, if_pos hpos, Int.toNat_natCast,
      List.getElem?_eq_getElem hn', Option.getD_some]

/-- The suffixes are distinct exactly where the names are told apart. -/
theorem nodup_tagsub_iff (hnodup : (names param).Nodup) :
    ((List.range (make param).get_nbpoints).map
      fun (n : Nat) => (make param).get_tagsub n).Nodup ↔ Distinguished (names param) := by
  have hvalue : ∀ {name}, name ∈ (make param).gvar.keys →
      ∃ v, (make param).gvar.find? name = some v := fun h =>
    Lib.OrdMap.contains_iff.mp (Lib.OrdMap.mem_keys_iff.mp h)
  have hkeys : ∀ {name}, name ∈ (make param).gvar.keys ↔ name ∈ names param := mem_keys_readwords
  rw [map_get_tagsub, Lib.OrdMap.values_eq _ [],
    List.nodup_map_iff_inj_on (Lib.OrdMap.keys_nodup _)]
  constructor
  · intro hinj as n bs m cs h hcut
    refine (find?_make_ne_iff hnodup h).mp (fun heq => ?_) hcut
    have hn : n ∈ names param := h ▸ List.mem_append_right _ List.mem_cons_self
    have hm : m ∈ names param := by
      rw [h]
      simp
    obtain rfl := hinj n (hkeys.mpr hn) m (hkeys.mpr hm) (congrArg (Option.getD · []) heq)
    have hbehind := (List.nodup_cons.mp (List.nodup_append.mp (h ▸ hnodup)).2.1).1
    exact hbehind (List.mem_append_right _ List.mem_cons_self)
  · intro hall x hx y hy heq
    by_contra hne
    have hfind : (make param).gvar.find? x = (make param).gvar.find? y := by
      obtain ⟨v, hv⟩ := hvalue hx
      obtain ⟨w, hw⟩ := hvalue hy
      rw [hv, hw] at heq ⊢
      exact congrArg some heq
    -- one of the two comes first
    obtain ⟨s, t, h⟩ := List.append_of_mem (hkeys.mp hx)
    rcases List.mem_append.mp (h ▸ hkeys.mp hy) with hs | ht
    · obtain ⟨as, bs, rfl⟩ := List.append_of_mem hs
      rw [List.append_assoc, List.cons_append] at h
      exact (find?_make_ne_iff hnodup h).mpr (hall as y bs x t h) hfind.symm
    · obtain ⟨bs, cs, rfl⟩ := List.append_of_mem ((List.mem_cons.mp ht).resolve_left (Ne.symm hne))
      exact (find?_make_ne_iff hnodup h).mpr (hall s x bs y cs h) hfind

end MMySQLGStatus

namespace MeasurePoint

/-- The names of the data sources of a point. -/
def sourceNames (pmp : MeasurePoint) (tagname : Bytes) : List Bytes :=
  if pmp.get_nbpoints = 1 then [tagname]
  else (List.range pmp.get_nbpoints).map fun (i : Nat) => tagname ++ str "_" ++ pmp.get_tagsub i

end MeasurePoint

namespace MMySQLGStatus

variable {param : Bytes}

/-- Distinct suffixes make distinct names. -/
theorem nodup_sourceNames {m : MMySQLGStatus}
    (h : ((List.range m.get_nbpoints).map fun (n : Nat) => m.get_tagsub n).Nodup)
    (tagname : Bytes) : ((MeasurePoint.mysqlgstatus m).sourceNames tagname).Nodup := by
  unfold MeasurePoint.sourceNames
  split
  · exact List.nodup_singleton _
  · have hmap := h.map (f := fun sub => tagname ++ str "_" ++ sub) fun a b hab =>
      List.append_cancel_left hab
    rw [List.map_map] at hmap
    exact hmap

/-- **When the data sources of a point have names of their own**: where all its names that
are cut alike are told apart. -/
theorem tags_distinct_iff (hnodup : (names param).Nodup) :
    (((List.range (make param).get_nbpoints).map
        fun (n : Nat) => (make param).get_tagsub n).Nodup ∧
      ∀ env tagname, ((Kind.mysqlgstatus.creator env param).sourceNames tagname).Nodup) ↔
    Distinguished (names param) := by
  rw [← nodup_tagsub_iff hnodup]
  exact ⟨fun h => h.1, fun h => ⟨h, fun _ tagname => nodup_sourceNames h tagname⟩⟩

/-- Three variables, the first of which is what the second is cut to. -/
def takenParam : Bytes := str ",Inndbbffrplr,Innodb_buffer_pool_reads,Uptime"

theorem tags_distinct_iff_taken :
    Distinguished [str "Inndbbffrplr", str "Innodb_buffer_pool_reads", str "Uptime"] := by
  have hnames : names takenParam
      = [str "Inndbbffrplr", str "Innodb_buffer_pool_reads", str "Uptime"] := by decide +kernel
  have hnodup : ((List.range (make takenParam).get_nbpoints).map
      fun (n : Nat) => (make takenParam).get_tagsub n).Nodup := by decide +kernel
  rw [← hnames]
  exact (tags_distinct_iff (by rw [hnames]; decide +kernel)).mp
    ⟨hnodup, fun _ tagname => nodup_sourceNames hnodup tagname⟩

/-- Two variables of a server are both cut to `Inndbbffrplr`. -/
theorem alike_names_share_tag :
    ¬ ∀ param : Bytes, (names param).Nodup →
      (∀ r, ((names param).filter fun name => cut name = r).length ≤ 11) →
      ((List.range (make param).get_nbpoints).map
        fun (n : Nat) => (make param).get_tagsub n).Nodup := by
  intro h
  have hnodup := h (str ",Innodb_buffer_pool_reads,Innodb_buffer_pool_read_requests")
    (by decide +kernel) fun r => (List.length_filter_le _ _).trans (by decide +kernel)
  exact absurd hnodup (by decide +kernel)

end MMySQLGStatus

end Qigong.Measure
