import Mathlib.Data.List.TakeWhile
import Qigong.Crypt.Base64
import Qigong.Crypt.Key

/-!
# Key files (qigenkey.cpp, qicrypt.cpp:186–345)

`qigenkey` writes a key, an IV and an ID, a line of base64 each, with a checksum of them
behind. The constructor of `QiCrKey` gathers the base64 of all lines (`rawkey`), leaving out
comments, and decodes it one run after the other.

What a line gives to `rawkey` depends on the line alone, and blank lines and comments give
nothing: so they may stand anywhere (`rawkey_texts`, `Inserted.flatMap_eq`), and the rest is
about the four runs.
-/

namespace Qigong.Crypt

/-! ## The checksum -/

/-- The `switch` of `nekchecksum`. The products may overflow an `int`; their low 16 bits are
what is kept. -/
def nekswitch (p : Nat) (v a b : UInt16) : UInt16 × UInt16 :=
  match p % 4 with
  | 0 => (a + v * (v * (v * a + 13) + 71), b + v * (v * (v * b + 23) + 2))
  | 1 => (a + v * (v * (v * a + 3) + 11), b + v * (v * (v * b + 73) + 13))
  | 2 => (a + v * (v * (v * a + 7) + 12), b + v * (v * (v * b + 52) + 5))
  | _ => (a + v * (v * (v * a + 61) + 40), b + v * (v * (v * b + 10) + 3))

/-- The loop of `nekchecksum`, at position `p` behind the byte `v1`. -/
def nekloop : (s : Bytes) → (p : Nat) → (v1 a b : UInt16) → UInt16 × UInt16
  | [], _, _, a, b => (a, b)
  | c :: s, p, v2, a, b =>
    let v1 := c.toUInt16
    let r := nekswitch p ((v2 <<< 8) + v1) a b
    nekloop s (p + 1) v1 r.1 r.2

/-- `nekchecksum` (qicrypt.cpp:202–226). -/
def nekchecksum (s : Bytes) : Bytes :=
  let r := nekloop s 0 0 24 42
  [(r.1 &&& 0xff).toUInt8, ((r.1 &&& 0xff00) >>> 8).toUInt8,
    (r.2 &&& 0xff).toUInt8, ((r.2 &&& 0xff00) >>> 8).toUInt8]

/-! ## `qigenkey` -/

/-- What `qigenkey` finds: whether the key file is there already and whether it can be
written, the size of an IV where the module opens, and what `/dev/random` gives where it
opens. -/
structure Genkey where
  fcheck : Bool
  fout : Bool
  iv_size : Option Nat
  frandom : Option Bytes

/-- A loop that draws `n` bytes of `frandom`, `none` being a stream that has failed: what is
drawn and the stream behind, `none` where there was not enough. At the end of the stream
`get ()` gives `EOF`, which is added as a byte like any other. -/
def draw : (n : Nat) → (frandom : Option Bytes) → (drawn : Bytes) → Option (Bytes × Option Bytes)
  | 0, frandom, drawn => some (drawn, frandom)
  | n + 1, some (b :: frandom), drawn => draw n (some frandom) (drawn ++ [b])
  | n + 1, some [], drawn => draw n none (drawn ++ [0xff])
  | _ + 1, none, _ => none

/-- The lines that `qigenkey` puts in `wack`. -/
def wackLines (fqdn key iv keyid : Bytes) : List Bytes :=
  [str "; " ++ fqdn, base64_encode key, base64_encode iv, base64_encode keyid,
    base64_encode (nekchecksum (key ++ iv ++ keyid))]

/-- `wack`, each line ended by `endl`. -/
def wack (fqdn key iv keyid : Bytes) : Bytes :=
  (wackLines fqdn key iv keyid).flatMap fun line => line ++ [10]

theorem wack_eq (fqdn key iv keyid : Bytes) : wack fqdn key iv keyid
    = str "; " ++ fqdn ++ [10] ++ base64_encode key ++ [10] ++ base64_encode iv ++ [10] ++
      base64_encode keyid ++ [10] ++ base64_encode (nekchecksum (key ++ iv ++ keyid)) ++ [10] := by
  simp only [wack, wackLines, List.flatMap_cons, List.flatMap_nil, List.append_assoc,
    List.append_nil]

/-- `main` of qigenkey (qigenkey.cpp:18–153) with the arguments behind its name: what it
writes in the key file, `none` where it returns 1. -/
def qigenkey (cmde : List Bytes) (o : Genkey) : Option Bytes :=
  match cmde with
  | [fqdn] =>
    if fqdn = [] then none
    else if o.fcheck = true then none   -- refuses to overwrite it
    else if o.fout = false then none
    else
      o.iv_size.bind fun ivsize =>
      o.frandom.bind fun frandom =>
      (draw 32 (some frandom) []).bind fun key =>
      (draw ivsize key.2 []).bind fun iv =>
      (draw 4 iv.2 []).bind fun salt =>
      some (wack fqdn key.1 iv.1 (salt.1 ++ fqdn))
  | _ => none

theorem draw_append (bytes rest drawn : Bytes) :
    draw bytes.length (some (bytes ++ rest)) drawn = some (drawn ++ bytes, some rest) := by
  induction bytes generalizing drawn with
  | nil => simp [draw]
  | cons b bytes ih =>
    rw [List.length_cons, List.cons_append, draw, ih, List.append_assoc]
    rfl

/-- `qigenkey` writes a key file from the bytes it draws. -/
theorem qigenkey_eq {key iv salt fqdn : Bytes} (hkey : key.length = 32) (hsalt : salt.length = 4)
    (hfqdn : fqdn ≠ []) (rest : Bytes) :
    qigenkey [fqdn] ⟨false, true, some iv.length, some (key ++ (iv ++ (salt ++ rest)))⟩
      = some (wack fqdn key iv (salt ++ fqdn)) := by
  have hdraw := draw_append key (iv ++ (salt ++ rest)) []
  rw [hkey] at hdraw
  have hdraw' := draw_append salt rest []
  rw [hsalt] at hdraw'
  simp [qigenkey, hfqdn, hdraw, hdraw', draw_append]

/-! ## The constructor of `QiCrKey` -/

/-- `isbase64 (c)`, or the padding. -/
def inBase64 (c : UInt8) : Bool := decoding_table c != -1 || c == pad

/-- The line ends of a key file. -/
def endsLine (c : UInt8) : Bool := c == 10 || c == 13

/-- One turn of the loop over a line (qicrypt.cpp:269–277): what it adds to `rawkey`, and
the rest of the line where the loop goes on. -/
def lineTurn (line : Bytes) : Bytes × Option Bytes :=
  match line.dropWhile isSpace with
  | [] => ([], none)
  | c :: t =>
    if c = 35 ∨ c = 59 then ([], none)   -- a comment
    else
      ((c :: t).takeWhile inBase64 ++ [32],
        match (c :: t).dropWhile inBase64 with
        | [] => none
        | d :: rest => if isSpace d = true then some (d :: rest) else none)

theorem not_isSpace_of_dropWhile {line t : Bytes} {c : UInt8}
    (h : line.dropWhile isSpace = c :: t) : isSpace c = false := by
  have hhead := List.head?_dropWhile_not isSpace line
  rwa [h] at hhead

/-- The loop goes on only behind what it has taken of the line. -/
theorem lineTurn_lt {line rest : Bytes} (h : (lineTurn line).2 = some rest) :
    rest.length < line.length := by
  unfold lineTurn at h
  split at h
  case h_1 => cases h
  case h_2 c t ht =>
  have hle := (List.dropWhile_suffix (l := line) isSpace).length_le
  rw [ht, List.length_cons] at hle
  split at h
  case isTrue => cases h
  case isFalse =>
  dsimp only at h
  split at h
  case h_1 => cases h
  case h_2 d rest' heq =>
  split at h
  case isFalse => cases h
  case isTrue hd =>
  cases h
  by_cases hin : inBase64 c = true
  · rw [List.dropWhile_cons_of_pos hin] at heq
    have hrest := (List.dropWhile_suffix (l := t) inBase64).length_le
    rw [heq] at hrest
    omega
  · -- nothing is taken, and no space stands here
    rw [List.dropWhile_cons_of_neg hin] at heq
    cases heq
    rw [not_isSpace_of_dropWhile ht] at hd
    cases hd

/-- What a line adds to `rawkey`. -/
def lineTokens (line : Bytes) : Bytes :=
  match _h : (lineTurn line).2 with
  | none => (lineTurn line).1
  | some rest => (lineTurn line).1 ++ lineTokens rest
termination_by line.length
decreasing_by exact lineTurn_lt _h

/-- `rawkey` of a key file (qicrypt.cpp:257–279). -/
def rawkey (fkey : Bytes) : Bytes := (fkey.splitOnP endsLine).flatMap lineTokens

/-- `base64_seekanddecode` (qicrypt.cpp:190–200): the position behind, and what is decoded;
`none` for `npos`. -/
def base64_seekanddecode (s : Bytes) (start : Nat) : Option (Nat × Bytes) :=
  let p := start + ((s.drop start).takeWhile isSpace).length
  let word := ((s.drop start).dropWhile isSpace).takeWhile inBase64
  if word = [] then some (p, [])
  else if (base64_decode word).1 = true then some (p + word.length, (base64_decode word).2)
  else none

/-- The constructor of `QiCrKey` (qicrypt.cpp:228–345), of the file where it can be read:
`none` where the key is not valid. -/
def QiCrKey.make (fkey : Option Bytes) : Option QiCrKey :=
  fkey.bind fun fkey =>
  let rawkey := rawkey fkey
  (base64_seekanddecode rawkey 0).bind fun key =>
  (base64_seekanddecode rawkey key.1).bind fun iv =>
  (base64_seekanddecode rawkey iv.1).bind fun keyid =>
  (base64_seekanddecode rawkey keyid.1).bind fun t =>
  if t.2 = nekchecksum (key.2 ++ iv.2 ++ keyid.2) then some ⟨key.2, iv.2, keyid.2⟩ else none

/-! ## Runs of base64 -/

/-- The characters of a run end no line, are no spaces and begin no comment. -/
theorem inBase64_plain : ∀ c : UInt8, inBase64 c = true →
    endsLine c = false ∧ isSpace c = false ∧ c ≠ 35 ∧ c ≠ 59 :=
  forall_byte (by decide +kernel)

theorem inBase64_sextet (tr k : Nat) : inBase64 (sextet tr k) = true := by
  rw [inBase64, decoding_sextet, Bool.or_eq_true, bne_iff_ne]
  left
  omega

/-- The characters of an encoded text all stand in runs. -/
theorem inBase64_encode (s : Bytes) : ∀ c ∈ base64_encode s, inBase64 c = true := by
  have hpad : inBase64 pad = true := rfl
  rw [← List.all_eq_true]
  induction s using base64_encode.induct with
  | case1 => rfl
  | case2 a => simp [base64_encode, inBase64_sextet, hpad]
  | case3 a b => simp [base64_encode, inBase64_sextet, hpad]
  | case4 a b c s ih => simpa [base64_encode, inBase64_sextet] using ih

theorem base64_encode_ne_nil {s : Bytes} (h : s ≠ []) : base64_encode s ≠ [] := by
  intro hnil
  have hdecode := base64_decode_encode s
  rw [hnil] at hdecode
  exact h (congrArg Prod.snd hdecode).symm

/-- A run behind spaces is decoded, up to the space behind it. -/
theorem seekanddecode_at (pre skip rest : Bytes) {s : Bytes} (hs : s ≠ [])
    (hskip : ∀ c ∈ skip, isSpace c = true) :
    base64_seekanddecode (pre ++ (skip ++ (base64_encode s ++ 32 :: rest))) pre.length
      = some (pre.length + skip.length + (base64_encode s).length, s) := by
  have hrun := inBase64_encode s
  have hne := base64_encode_ne_nil hs
  -- a run begins with no space, so that the spaces skipped are those of `skip`
  have hhead : ∀ t : Bytes, (base64_encode s ++ t).takeWhile isSpace = [] ∧
      (base64_encode s ++ t).dropWhile isSpace = base64_encode s ++ t := by
    intro t
    cases he : base64_encode s with
    | nil => exact absurd he hne
    | cons c cs =>
      have hc := (inBase64_plain c (hrun c (he ▸ List.mem_cons_self))).2.1
      rw [List.cons_append, List.takeWhile_cons, List.dropWhile_cons, hc]
      exact ⟨rfl, rfl⟩
  have hword : (base64_encode s ++ 32 :: rest).takeWhile inBase64 = base64_encode s := by
    rw [List.takeWhile_append_of_pos hrun]
    exact List.append_nil _
  simp only [base64_seekanddecode, List.drop_left, List.takeWhile_append_of_pos hskip,
    List.dropWhile_append_of_pos hskip, hhead, hword, List.append_nil, if_neg hne,
    base64_decode_encode, if_true]

/-- What a run is in `rawkey`. -/
def run (s : Bytes) : Bytes := base64_encode s ++ [32]

/-- Each call decodes the run behind those that were decoded, and leaves the position at the
space behind it. -/
theorem seekanddecode_next (done rest : List Bytes) {s : Bytes} (hs : s ≠ []) :
    base64_seekanddecode ((done ++ s :: rest).flatMap run) ((done.flatMap run).length - 1)
      = some (((done ++ [s]).flatMap run).length - 1, s) := by
  have hspace : ∀ c ∈ ([32] : Bytes), isSpace c = true := forall_mem_of_all (by decide)
  -- the first run stands at the start, and before every other one a space
  rcases List.eq_nil_or_concat done with rfl | ⟨done, x, rfl⟩
  · have h := seekanddecode_at [] [] (rest.flatMap run) hs fun c hc => nomatch hc
    simpa [run] using h
  · have h := seekanddecode_at (done.flatMap run ++ base64_encode x) [32] (rest.flatMap run) hs
      hspace
    have hpos : ((done.concat x).flatMap run).length - 1
        = (done.flatMap run ++ base64_encode x).length := by
      simp only [List.concat_eq_append, List.flatMap_append, List.flatMap_singleton, run,
        List.length_append, List.length_singleton]
      omega
    have hend : ((done.concat x ++ [s]).flatMap run).length - 1
        = (done.flatMap run ++ base64_encode x).length + 1 + (base64_encode s).length := by
      simp only [List.concat_eq_append, List.flatMap_append, List.flatMap_singleton, run,
        List.length_append, List.length_singleton]
      omega
    rw [hpos, hend]
    simpa [run] using h

/-- Four runs that end in their checksum are a key. -/
theorem make_of_rawkey {fkey key iv keyid : Bytes} (hkey : key ≠ []) (hiv : iv ≠ [])
    (hkeyid : keyid ≠ [])
    (h : rawkey fkey = [key, iv, keyid, nekchecksum (key ++ iv ++ keyid)].flatMap run) :
    QiCrKey.make (some fkey) = some ⟨key, iv, keyid⟩ := by
  -- the checksum is named, as its four bytes are of no concern to the calls
  obtain ⟨sum, hsum⟩ : ∃ sum, sum = nekchecksum (key ++ iv ++ keyid) := ⟨_, rfl⟩
  have hne : sum ≠ [] := hsum ▸ List.cons_ne_nil _ _
  rw [← hsum] at h
  have h1 := seekanddecode_next [] [iv, keyid, sum] hkey
  have h2 := seekanddecode_next [key] [keyid, sum] hiv
  have h3 := seekanddecode_next [key, iv] [sum] hkeyid
  have h4 := seekanddecode_next [key, iv, keyid] [] hne
  simp only [List.nil_append, List.cons_append, List.flatMap_nil, List.length_nil, Nat.zero_sub]
    at h1 h2 h3 h4
  simp only [QiCrKey.make, Option.bind_some, h, h1, h2, h3, h4]
  exact if_pos hsum

/-! ## Lines -/

/-- A line that gives nothing to `rawkey`: it is blank, or its first character that is no
blank begins a comment. -/
inductive Remark : Bytes → Prop where
  | blank {line : Bytes} : (∀ c ∈ line, isSpace c = true) → Remark line
  | comment (skip text : Bytes) {mark : UInt8} : (∀ c ∈ skip, isSpace c = true) →
      mark = 35 ∨ mark = 59 → Remark (skip ++ mark :: text)

/-- The lines `ls` are the lines `ws` with others between them of which `P` holds. -/
inductive Inserted {α : Type} (P : α → Prop) : (ws ls : List α) → Prop where
  | nil : Inserted P [] []
  | keep {ws ls : List α} (w : α) : Inserted P ws ls → Inserted P (w :: ws) (w :: ls)
  | insert {ws ls : List α} {l : α} : P l → Inserted P ws ls → Inserted P ws (l :: ls)

/-- What gives nothing can be inserted. -/
theorem Inserted.flatMap_eq {α β : Type} {P : α → Prop} {ws ls : List α} {f : α → List β}
    (h : Inserted P ws ls) (hP : ∀ l, P l → f l = []) : ls.flatMap f = ws.flatMap f := by
  induction h with
  | nil => rfl
  | keep w _ ih => rw [List.flatMap_cons, List.flatMap_cons, ih]
  | insert hl _ ih => rw [List.flatMap_cons, hP _ hl, ih, List.nil_append]

theorem Inserted.forall_mem {α : Type} {P Q : α → Prop} {ws ls : List α} (h : Inserted P ws ls)
    (hP : ∀ l, P l → Q l) (hws : ∀ w ∈ ws, Q w) : ∀ l ∈ ls, Q l := by
  induction h with
  | nil => exact hws
  | keep w _ ih =>
    rw [List.forall_mem_cons] at hws ⊢
    exact ⟨hws.1, ih hws.2⟩
  | insert hl _ ih =>
    rw [List.forall_mem_cons]
    exact ⟨hP _ hl, ih hws⟩

/-- How a line can end. -/
inductive LineEnd where
  | lf
  | cr
  | crlf

def LineEnd.text : LineEnd → Bytes
  | lf => [10]
  | cr => [13]
  | crlf => [13, 10]

/-- A line on which the loop takes one turn. -/
theorem lineTokens_eq {line : Bytes} (h : (lineTurn line).2 = none) :
    lineTokens line = (lineTurn line).1 := by
  rw [lineTokens]
  split
  · rfl
  · rename_i heq
    rw [h] at heq
    cases heq

/-- An empty line gives nothing. -/
theorem lineTokens_nil : lineTokens [] = [] := lineTokens_eq rfl

/-- A line of base64 gives its run. -/
theorem lineTokens_encode {s : Bytes} (hs : s ≠ []) : lineTokens (base64_encode s) = run s := by
  have hrun := inBase64_encode s
  obtain ⟨c, cs, he⟩ := List.exists_cons_of_ne_nil (base64_encode_ne_nil hs)
  obtain ⟨-, hspace, hhash, hsemi⟩ := inBase64_plain c (hrun c (he ▸ List.mem_cons_self))
  have hblank : (base64_encode s).dropWhile isSpace = c :: cs := by
    rw [he, List.dropWhile_cons, hspace]
    rfl
  -- one turn takes the whole line, as no character in it ends the run
  have hturn : lineTurn (base64_encode s) = (run s, none) := by
    unfold lineTurn
    rw [hblank]
    dsimp only
    rw [if_neg (not_or.mpr ⟨hhash, hsemi⟩), ← he, List.takeWhile_eq_self_iff.mpr hrun,
      List.dropWhile_eq_nil_iff.mpr hrun]
    rfl
  rw [lineTokens_eq (by rw [hturn]), hturn]

/-- Blank lines and comments give nothing. -/
theorem lineTokens_remark {line : Bytes} (h : Remark line) : lineTokens line = [] := by
  have hturn : lineTurn line = ([], none) := by
    cases h with
    | blank hall =>
      unfold lineTurn
      rw [List.dropWhile_eq_nil_iff.mpr hall]
    | comment skip text hskip hmark =>
      have hspace : ∀ mark : UInt8, mark = 35 ∨ mark = 59 → ¬ isSpace mark = true := by
        rintro mark (rfl | rfl) <;> decide
      unfold lineTurn
      rw [List.dropWhile_append_of_pos hskip, List.dropWhile_cons_of_neg (hspace _ hmark)]
      exact if_pos hmark
  rw [lineTokens_eq (by rw [hturn]), hturn]

/-- A line off the front of a file. -/
theorem rawkey_append {line : Bytes} (h : ∀ d ∈ line, endsLine d = false) {c : UInt8}
    (hc : endsLine c = true) (rest : Bytes) :
    rawkey (line ++ c :: rest) = lineTokens line ++ rawkey rest := by
  unfold rawkey
  rw [List.splitOnP_append_cons_of_forall_mem h c hc, List.flatMap_cons]

/-- The lines of a file give what each gives, whatever their ends are. -/
theorem rawkey_texts (ls : List (Bytes × LineEnd))
    (h : ∀ line ∈ ls.map Prod.fst, ∀ c ∈ line, endsLine c = false) :
    rawkey (ls.flatMap fun l => l.1 ++ l.2.text) = (ls.map Prod.fst).flatMap lineTokens := by
  induction ls with
  | nil => simp [rawkey, lineTokens_nil]
  | cons l ls ih =>
    obtain ⟨line, e⟩ := l
    rw [List.map_cons, List.forall_mem_cons] at h
    rw [List.flatMap_cons, List.map_cons, List.flatMap_cons, ← ih h.2, List.append_assoc]
    cases e with
    | lf => exact rawkey_append h.1 rfl _
    | cr => exact rawkey_append h.1 rfl _
    | crlf =>
      -- between the two ends stands an empty line
      have hempty : ∀ d ∈ ([] : Bytes), endsLine d = false := fun d hd => nomatch hd
      have hlf := rawkey_append hempty (c := 10) rfl (ls.flatMap fun l => l.1 ++ l.2.text)
      rw [lineTokens_nil] at hlf
      exact (rawkey_append h.1 rfl _).trans (congrArg _ hlf)

/-! ## From the one program to the other -/

/-- The lines that are written hold no line ends. -/
theorem wackLines_plain {fqdn : Bytes} (h : ∀ c ∈ fqdn, endsLine c = false) (key iv keyid : Bytes) :
    ∀ line ∈ wackLines fqdn key iv keyid, ∀ c ∈ line, endsLine c = false := by
  have hencode : ∀ s, ∀ c ∈ base64_encode s, endsLine c = false := fun s c hc =>
    (inBase64_plain c (inBase64_encode s c hc)).1
  have hmark : ∀ c ∈ str "; ", endsLine c = false := forall_mem_of_all (by decide)
  have hhead : ∀ c ∈ str "; " ++ fqdn, endsLine c = false := fun c hc =>
    (List.mem_append.mp hc).elim (hmark c) (h c)
  simp only [wackLines, List.forall_mem_cons]
  exact ⟨hhead, hencode _, hencode _, hencode _, hencode _, fun _ h => nomatch h⟩

/-- What is written gives the four runs. -/
theorem lineTokens_wack {key iv keyid : Bytes} (hkey : key ≠ []) (hiv : iv ≠ [])
    (hkeyid : keyid ≠ []) (fqdn : Bytes) :
    (wackLines fqdn key iv keyid).flatMap lineTokens
      = [key, iv, keyid, nekchecksum (key ++ iv ++ keyid)].flatMap run := by
  have hcomment : lineTokens (str "; " ++ fqdn) = [] :=
    lineTokens_remark (.comment [] (32 :: fqdn) (fun c hc => nomatch hc) (.inr rfl))
  have hsum : nekchecksum (key ++ iv ++ keyid) ≠ [] := List.cons_ne_nil _ _
  rw [wackLines, List.flatMap_cons, hcomment, List.nil_append]
  simp only [List.flatMap_cons, lineTokens_encode hkey, lineTokens_encode hiv,
    lineTokens_encode hkeyid, lineTokens_encode hsum, List.flatMap_nil]

/-- **A key file is read back**: what `qigenkey` writes, also with blank lines and comments
between its lines and with other line ends, is the key that was drawn. -/
theorem key_file_round_trip {key iv salt fqdn : Bytes} (hkey : key.length = 32) (hiv : iv ≠ [])
    (hsalt : salt.length = 4) (hfqdn : fqdn ≠ []) (hline : ∀ c ∈ fqdn, endsLine c = false) :
    (∀ rest, qigenkey [fqdn]
        ⟨false, true, some iv.length, some (key ++ (iv ++ (salt ++ rest)))⟩
      = some (str "; " ++ fqdn ++ [10] ++ base64_encode key ++ [10] ++ base64_encode iv ++ [10] ++
        base64_encode (salt ++ fqdn) ++ [10] ++
        base64_encode (nekchecksum (key ++ iv ++ (salt ++ fqdn))) ++ [10])) ∧
    ∀ ls : List (Bytes × LineEnd),
      Inserted (fun line => Remark line ∧ ∀ c ∈ line, endsLine c = false)
        [str "; " ++ fqdn, base64_encode key, base64_encode iv, base64_encode (salt ++ fqdn),
          base64_encode (nekchecksum (key ++ iv ++ (salt ++ fqdn)))] (ls.map Prod.fst) →
      QiCrKey.make (some (ls.flatMap fun l => l.1 ++ l.2.text)) = some ⟨key, iv, salt ++ fqdn⟩ := by
  have hkeyid : salt ++ fqdn ≠ [] := List.append_ne_nil_of_right_ne_nil salt hfqdn
  have hne : key ≠ [] := by
    rintro rfl
    cases hkey
  constructor
  · intro rest
    rw [qigenkey_eq hkey hsalt hfqdn, wack_eq]
  · intro ls hins
    apply make_of_rawkey hne hiv hkeyid
    rw [rawkey_texts ls (hins.forall_mem (fun _ h => h.2) (wackLines_plain hline _ _ _)),
      hins.flatMap_eq fun _ h => lineTokens_remark h.1]
    exact lineTokens_wack hne hiv hkeyid fqdn

/-- The lines of a key file with a remark in it, which end in all ways. -/
def sampleKeyFile : List (Bytes × LineEnd) :=
  [(str "; probe", .crlf), (base64_encode (List.replicate 32 7), .cr), (str " # IV", .lf),
    (base64_encode [1, 2, 3], .lf), (base64_encode ([4, 5, 6, 7] ++ str "probe"), .crlf),
    (base64_encode (nekchecksum (List.replicate 32 7 ++ [1, 2, 3] ++ ([4, 5, 6, 7] ++ str "probe"))),
      .lf)]

theorem key_file_round_trip_sample :
    QiCrKey.make (some (sampleKeyFile.flatMap fun l => l.1 ++ l.2.text))
      = some ⟨List.replicate 32 7, [1, 2, 3], [4, 5, 6, 7] ++ str "probe"⟩ := by
  have hremark : Remark (str " # IV") ∧ ∀ c ∈ str " # IV", endsLine c = false :=
    ⟨.comment [32] (str " IV") (forall_mem_of_all (by decide)) (.inl rfl),
      forall_mem_of_all (by decide)⟩
  have hkey : (List.replicate 32 7 : Bytes).length = 32 := rfl
  have hiv : ([1, 2, 3] : Bytes) ≠ [] := by decide
  have hsalt : ([4, 5, 6, 7] : Bytes).length = 4 := rfl
  have hfqdn : str "probe" ≠ [] ∧ ∀ c ∈ str "probe", endsLine c = false :=
    ⟨by decide, forall_mem_of_all (by decide)⟩
  exact (key_file_round_trip hkey hiv hsalt hfqdn.1 hfqdn.2).2 sampleKeyFile
    (.keep _ (.keep _ (.insert hremark (.keep _ (.keep _ (.keep _ .nil))))))

end Qigong.Crypt
