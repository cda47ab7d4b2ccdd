import Mohhdy.Devsync.Held
import Mathlib.Data.List.TakeWhile

/-! Texts are read back as they were written, as long as the clocks in them are numbers that the reader
takes: it gives up on a number once nine of its digits are above 400000000. -/
namespace Mohhdy.Devsync
set_option autoImplicit false

open List

variable {l : List Entry}

/-! ## Numbers -/

theorem numLoop_append (a b : List UInt8) (x : UInt32) : numLoop (a ++ b) x = (numLoop a x).bind (numLoop b) := by
  induction a generalizing x with
  | nil => rfl
  | cons c a ih =>
    rw [cons_append, numLoop, numLoop]
    split_ifs
    · rfl
    · exact ih _

def numLimit : ℕ := 4000000010

theorem numLoop_digit (d : ℕ) (hd : d < 10) (x : UInt32) :
    numLoop [UInt8.ofNat (48 + d)] x = if x ≤ 400000000 then some (x * 10 + UInt32.ofNat d) else none := by
  have hdigit : ∀ d < 10, ¬UInt8.ofNat (48 + d) < 48 ∧ ¬57 < UInt8.ofNat (48 + d) ∧
      (UInt8.ofNat (48 + d) - 48).toUInt32 = UInt32.ofNat d := by decide
  obtain ⟨hlo, hhi, hval⟩ := hdigit d hd
  rw [numLoop]
  by_cases hx : x ≤ 400000000
  · have htaken : ¬(UInt8.ofNat (48 + d) < 48 ∨ 57 < UInt8.ofNat (48 + d) ∨ 400000000 < x) := by
      rw [not_or, not_or]
      exact ⟨hlo, hhi, UInt32.not_lt.mpr hx⟩
    rw [if_neg htaken, if_pos hx, hval]
    rfl
  · rw [if_pos (.inr (.inr (UInt32.not_le.mp hx))), if_neg hx]

theorem numLoop_digits (n v : ℕ) (hv : v < 10 ^ n) (hn : 0 < n) :
    numLoop (digitsRev n v).reverse 0 = if v < numLimit then some (UInt32.ofNat v) else none := by
  induction n generalizing v with
  | zero => omega
  | succ n ih =>
    rw [digitsRev, reverse_cons, numLoop_append]
    have hmod : v % 10 < 10 := Nat.mod_lt _ (by omega)
    have hmax : (400000000 : UInt32).toNat = 400000000 := rfl
    have hten : (10 : UInt32).toNat = 10 := rfl
    by_cases h : v / 10 = 0
    · have hlim : v < numLimit := by
        unfold numLimit
        omega
      rw [if_pos h, reverse_nil, if_pos hlim]
      rw [show numLoop [] 0 = some 0 from rfl, Option.bind_some, numLoop_digit _ hmod, if_pos (by decide),
        show v % 10 = v by omega]
      simp
    · have hn : 0 < n := by
        rcases Nat.eq_zero_or_pos n with rfl | hn
        · omega
        · exact hn
      have hdiv : v / 10 < 10 ^ n := by
        rw [pow_succ] at hv
        omega
      rw [if_neg h, ih _ hdiv hn]
      by_cases hlim : v < numLimit
      · -- the first nine digits make at most 400000000
        unfold numLimit at *
        have hx : UInt32.ofNat (v / 10) ≤ 400000000 := by
          rw [UInt32.le_iff_toNat_le, UInt32.toNat_ofNat']
          omega
        rw [if_pos (by omega), if_pos hlim, Option.bind_some, numLoop_digit _ hmod, if_pos hx]
        congr 1
        apply UInt32.toNat_inj.mp
        simp only [UInt32.toNat_add, UInt32.toNat_mul, UInt32.toNat_ofNat', hten]
        omega
      · unfold numLimit at *
        rw [if_neg hlim]
        split_ifs with hpre
        · have hx : ¬UInt32.ofNat (v / 10) ≤ 400000000 := by
            rw [UInt32.le_iff_toNat_le, UInt32.toNat_ofNat']
            omega
          rw [Option.bind_some, numLoop_digit _ hmod, if_neg hx]
        · rfl

variable (v : UInt32)

theorem decimal_ne_nil : decimal v ≠ [] := by
  rw [decimal, digitsRev]
  simp

theorem num_decimal : num (decimal v) = if v.toNat < numLimit then some v else none := by
  have hv := v.toNat_lt
  rw [num, if_neg (decimal_ne_nil v), decimal, numLoop_digits 10 v.toNat (by omega) (by omega), UInt32.ofNat_toNat]

theorem digitsRev_digit (n v : ℕ) : ∀ c ∈ digitsRev n v, 48 ≤ c ∧ c ≤ 57 := by
  induction n generalizing v with
  | zero =>
    intro c hc
    cases hc
  | succ n ih =>
    intro c hc
    rcases mem_cons.mp hc with rfl | hc
    · have hdigit : ∀ d < 10, 48 ≤ UInt8.ofNat (48 + d) ∧ UInt8.ofNat (48 + d) ≤ 57 := by decide
      exact hdigit (v % 10) (Nat.mod_lt _ (by omega))
    · split_ifs at hc
      · cases hc
      · exact ih _ c hc

theorem length_digitsRev (n v : ℕ) : (digitsRev n v).length ≤ n := by
  induction n generalizing v with
  | zero => exact le_rfl
  | succ n ih =>
    rw [digitsRev, length_cons]
    split_ifs
    · simp
    · exact Nat.succ_le_succ (ih _)

/-! ## Words -/

def visible (w : List UInt8) : Prop := ∀ c ∈ w, 32 < c

theorem visible_decimal : visible (decimal v) := by
  intro c hc
  have := (digitsRev_digit 10 v.toNat c (mem_reverse.mp hc)).1
  exact UInt8.lt_of_lt_of_le (by decide) this

variable {cap : ℕ}

theorem tokenOk_iff {s : List UInt8} :
    tokenOk s cap = true ↔ s ≠ [] ∧ s.length < cap ∧ ∀ c ∈ s, 32 < c ∧ c ≤ 126 := by
  simp [tokenOk]

theorem visible_token {s : List UInt8} (h : tokenOk s cap = true) : visible s :=
  fun c hc => ((tokenOk_iff.mp h).2.2 c hc).1

@[simp] theorem word_sp (s : List UInt8) (cap : ℕ) : word (sp :: s) cap = word s cap := by
  simp [word]

theorem word_append {w : List UInt8} (hw : visible w) (hne : w ≠ []) (hlen : w.length < cap) (c : UInt8)
    (hc : c = sp ∨ c = nl) (rest : List UInt8) : word (w ++ c :: rest) cap = some (w, c :: rest) := by
  have hdrop : (w ++ c :: rest).dropWhile (· = sp) = w ++ c :: rest := by
    cases w with
    | nil => exact absurd rfl hne
    | cons x w =>
      have hx : x ≠ sp := by
        rintro rfl
        exact absurd (hw sp mem_cons_self) (by decide)
      simp [hx]
  have hin : ∀ x ∈ w, decide (x ≠ sp ∧ x ≠ nl) = true := by
    intro x hx
    have h32 := hw x hx
    have hsp : x ≠ sp := by
      rintro rfl
      exact absurd h32 (by decide)
    have hnl : x ≠ nl := by
      rintro rfl
      exact absurd h32 (by decide)
    simp [hsp, hnl]
  have htake : (w ++ c :: rest).takeWhile (fun x => x ≠ sp ∧ x ≠ nl) = w := by
    rw [takeWhile_append_of_pos hin]
    rcases hc with rfl | rfl <;> simp
  simp only [word, hdrop, htake]
  rw [if_pos (by omega), drop_left]

theorem numWord_sp (s : List UInt8) : numWord (sp :: s) = numWord s := by
  rw [numWord, word_sp, numWord]

theorem numWord_decimal (c : UInt8) (hc : c = sp ∨ c = nl) (rest : List UInt8) :
    numWord (decimal v ++ c :: rest) = if v.toNat < numLimit then some (v, c :: rest) else none := by
  have hlen : (decimal v).length < wordCap := by
    rw [decimal, length_reverse]
    exact Nat.lt_of_le_of_lt (length_digitsRev _ _) (by decide)
  rw [numWord, word_append (visible_decimal v) (decimal_ne_nil v) hlen c hc, Option.bind_some, num_decimal]
  split_ifs <;> rfl

/-! ## Entries -/

def Entry.line (e : Entry) : List UInt8 := (entryPieces e).flatten

def Entry.shown (e : Entry) : List UInt8 := if e.dead then [45] else e.val

theorem Entry.Stored.shown {e : Entry} (h : e.Stored) : tokenOk e.shown dsValLen = true := by
  unfold Entry.shown
  split_ifs with hd
  · decide
  · exact h.valid.2.2 (by simpa using hd)

theorem Entry.line_eq (e : Entry) (rest : List UInt8) :
    e.line ++ rest = eWord ++ sp :: (decimal e.clock ++ sp :: (decimal (UInt32.ofNat e.dev) ++ sp ::
      (decimal (if e.dead then 1 else 0) ++ sp :: (e.key ++ sp :: (e.shown ++ nl :: rest))))) := by
  have hone : decimal 1 = [49] := by decide
  have hzero : decimal 0 = [48] := by decide
  cases hd : e.dead <;> simp [Entry.line, entryPieces, Entry.shown, hd, hone, hzero]

theorem parseEntry_line {e : Entry} (h : e.Stored) (rest : List UInt8) :
    parseEntry (e.line ++ rest) = if e.clock.toNat < numLimit then some (e, rest) else none := by
  have hsmall : ∀ n < 8, (UInt32.ofNat n).toNat = n ∧ n < numLimit := by decide
  obtain ⟨hdev, hdevlim⟩ := hsmall e.dev e.dev.isLt
  have hdead : ((if e.dead then 1 else 0 : UInt32)).toNat < numLimit := by
    cases e.dead <;> decide
  have hclock : e.clock ≠ 0 := h.valid.1
  have hkey := tokenOk_iff.mp h.valid.2.1
  have hshown := tokenOk_iff.mp h.shown
  have hword : visible eWord := by
    intro c hc
    rw [mem_singleton.mp hc]
    decide
  rw [Entry.line_eq, parseEntry, word_append hword (by decide) (by decide) sp (.inl rfl)]
  by_cases hlim : e.clock.toNat < numLimit
  · have hle : (if e.dead then 1 else 0 : UInt32) ≤ 1 := by
      cases e.dead <;> decide
    have hval : (if e.dead then [] else e.shown) = e.val := by
      cases hd : e.dead with
      | false => simp [Entry.shown, hd]
      | true => simp [h.empty hd]
    simp [numWord_sp, numWord_decimal _ sp (.inl rfl), hlim, hclock, guard, hdev, hdevlim, hdead, hle, hkey.1,
      hshown.1, hval, word_append (visible_token h.valid.2.1) hkey.1 hkey.2.1 sp (.inl rfl),
      word_append (visible_token h.shown) hshown.1 hshown.2.1 nl (.inr rfl)]
  · rw [if_neg hlim]
    simp [hlim, guard, numWord_sp, numWord_decimal _ sp (.inl rfl)]

theorem parseEntries_lines (h : ∀ e ∈ l, e.Stored) (rest : List UInt8) :
    parseEntries l.length ((l.map Entry.line).flatten ++ rest) =
      if ∀ e ∈ l, e.clock.toNat < numLimit then some (l, rest) else none := by
  induction l with
  | nil => simp [parseEntries]
  | cons e l ih =>
    rw [length_cons, parseEntries, map_cons, flatten_cons, append_assoc,
      parseEntry_line (h e mem_cons_self)]
    by_cases he : e.clock.toNat < numLimit
    · rw [if_pos he, Option.bind_some, ih fun x hx => h x (mem_cons_of_mem _ hx)]
      simp only [forall_mem_cons, he, true_and]
      split_ifs <;> rfl
    · simp [he]

/-! ## Whole texts -/

def bodyText (id : Device) (l : List Entry) : List UInt8 :=
  (headerPieces id l.length).flatten ++ (l.map Entry.line).flatten

def fullText (id : Device) (l : List Entry) : List UInt8 :=
  bodyText id l ++ (sumWord ++ (hexWord (fnv (bodyText id l)) ++ [nl]))

theorem foldl_put (cap : ℕ) (pieces : List (List UInt8)) (out : List UInt8) (text : List UInt8)
    (h : pieces.foldl (put cap) (some out) = some text) : text = out ++ pieces.flatten := by
  induction pieces generalizing out with
  | nil =>
    cases h
    simp
  | cons s pieces ih =>
    rw [foldl_cons, put, Option.bind_some] at h
    split_ifs at h with hfits
    · rw [ih _ h, flatten_cons, append_assoc]
    · have hnone : ∀ ps : List (List UInt8), ps.foldl (put cap) none = none := by
        intro ps
        induction ps with
        | nil => rfl
        | cons p ps ih => exact ih
      rw [hnone] at h
      cases h

theorem dsExport_text {r : Replica} {peer : Option (Device → UInt32)} {text : List UInt8}
    (h : dsExport r peer cap = some text) : text = fullText r.id (r.delta peer) := by
  unfold dsExport at h
  split_ifs at h
  obtain ⟨body, hbody, htext⟩ := Option.bind_eq_some_iff.mp h
  have hb : body = bodyText r.id (r.delta peer) := by
    rw [foldl_put _ _ _ _ hbody, nil_append, flatten_append, List.flatMap, flatten_flatten, map_map]
    rfl
  rw [foldl_put _ _ _ _ htext, fullText, ← hb]
  simp

variable (id : Device)

theorem headerText (n : ℕ) (rest : List UInt8) :
    (headerPieces id n).flatten ++ rest = ds1Word ++ sp :: (decimal (UInt32.ofNat id) ++ sp ::
      (decimal (UInt32.ofNat n) ++ nl :: rest)) := by
  simp [headerPieces]

theorem parseBody_text (h : ∀ e ∈ l, e.Stored) (hl : l.length ≤ dsKeys) (rest : List UInt8) :
    parseBody (bodyText id l ++ rest) = if ∀ e ∈ l, e.clock.toNat < numLimit then some (l, rest) else none := by
  have hsmall : ∀ n ≤ dsKeys, (UInt32.ofNat n).toNat = n ∧ n < numLimit := by decide
  obtain ⟨hid, hidlim⟩ := hsmall id (id.isLt.le.trans (by decide))
  obtain ⟨hlen, hlenlim⟩ := hsmall l.length hl
  have hword : visible ds1Word := by
    intro c hc
    simp only [ds1Word, mem_cons, not_mem_nil, or_false] at hc
    rcases hc with rfl | rfl | rfl <;> decide
  rw [bodyText, append_assoc, headerText, parseBody, word_append hword (by decide) (by decide) sp (.inl rfl)]
  simp [numWord_sp, numWord_decimal _ sp (.inl rfl), numWord_decimal _ nl (.inr rfl), guard, hid, hidlim, hlen,
    hlenlim, hl, parseEntries_lines h]

/-! ## The sum -/

theorem sumAt_line (line : List UInt8) (hline : nl ∉ line) (s : List UInt8) :
    sumAt false (line ++ nl :: s) = (sumAt true s).map (· + (line.length + 1)) := by
  induction line with
  | nil => simp [sumAt]
  | cons c line ih =>
    obtain ⟨hc, hline⟩ := not_or.mp (mem_cons.not.mp hline)
    have hne : c ≠ nl := fun h => hc h.symm
    rw [cons_append, sumAt]
    simp only [hne, decide_false, ih hline, Option.map_map]
    rfl

theorem sumAt_start {c : UInt8} (hc : c ≠ 115) (s : List UInt8) : sumAt true (c :: s) = sumAt false (c :: s) := by
  have hno : sumWord.isPrefixOf (c :: s) = false := by
    simp [sumWord, List.isPrefixOf, Ne.symm hc]
  rw [sumAt, sumAt, hno]
  rfl

theorem hexValue_hexChar {d : UInt32} (h : d < 16) : hexValue (hexChar d) = some d := by
  have hall : ∀ n < 16, hexValue (hexChar (UInt32.ofNat n)) = some (UInt32.ofNat n) := by decide
  have := hall d.toNat (UInt32.lt_iff_toNat_lt.mp h)
  rwa [UInt32.ofNat_toNat] at this

theorem and_fifteen_lt (x : UInt32) : x &&& 15 < 16 := by
  exact Nat.lt_of_le_of_lt Nat.and_le_right (by decide)

theorem nibble (x : UInt32) : ((x >>> 4) <<< 4) ||| (x &&& 15) = x := by
  apply UInt32.toBitVec_inj.mp
  ext i hi
  interval_cases i <;> simp

section
variable (h : UInt32) {n : ℕ}

theorem shift_digits (hn : n < 8) : h >>> UInt32.ofNat (4 * n) = UInt32.ofNat (h.toNat >>> (4 * n)) ∧
    UInt32.ofNat (h.toNat >>> (4 * (n + 1))) = UInt32.ofNat (h.toNat >>> (4 * n)) >>> 4 := by
  have hlt : ∀ k, h.toNat >>> k < 2 ^ 32 := fun k => (Nat.shiftRight_le _ _).trans_lt h.toNat_lt
  have hmod : 4 * n % 2 ^ 32 % 32 = 4 * n := by omega
  constructor
  · apply UInt32.toNat_inj.mp
    rw [UInt32.toNat_shiftRight, UInt32.toNat_ofNat', UInt32.toNat_ofNat', hmod, Nat.mod_eq_of_lt (hlt _)]
  · apply UInt32.toNat_inj.mp
    rw [UInt32.toNat_shiftRight, UInt32.toNat_ofNat', UInt32.toNat_ofNat', Nat.mod_eq_of_lt (hlt _),
      Nat.mod_eq_of_lt (hlt _), Nat.mul_succ, Nat.shiftRight_add]
    rfl

theorem hexWord_drop (hn : n < 8) : (hexWord h).drop (8 - (n + 1)) =
    hexChar ((h >>> UInt32.ofNat (4 * n)) &&& 15) :: (hexWord h).drop (8 - n) := by
  interval_cases n <;> rfl

theorem hexLoop_drop (rest : List UInt8) (hn : n ≤ 8) :
    hexLoop n ((hexWord h).drop (8 - n) ++ rest) (UInt32.ofNat (h.toNat >>> (4 * n))) = some h := by
  induction n with
  | zero => simp [hexLoop]
  | succ n ih =>
    obtain ⟨hdigit, hacc⟩ := shift_digits h hn
    rw [hexWord_drop h hn, cons_append, hexLoop, headD_cons, hexValue_hexChar (and_fifteen_lt _), Option.bind_some,
      tail_cons, hdigit, hacc, nibble]
    exact ih (by omega)

theorem hexLoop_hexWord (rest : List UInt8) : hexLoop 8 (hexWord h ++ rest) 0 = some h := by
  have htop : h.toNat >>> 32 = 0 := Nat.shiftRight_eq_zero _ _ h.toNat_lt
  have := hexLoop_drop h rest le_rfl
  rwa [htop] at this

end

def isLine (l : List UInt8) : Prop := ∃ c t, l = c :: (t ++ [nl]) ∧ c ≠ 115 ∧ ∀ x ∈ c :: t, 32 ≤ x

theorem sumAt_lines {ls : List (List UInt8)} (h : ∀ l ∈ ls, isLine l) (s : List UInt8) :
    sumAt true (ls.flatten ++ s) = (sumAt true s).map (· + ls.flatten.length) := by
  induction ls with
  | nil => simp
  | cons l ls ih =>
    obtain ⟨c, t, rfl, hc, hplain⟩ := h l mem_cons_self
    have hnl : nl ∉ c :: t := fun hmem => absurd (hplain nl hmem) (by decide)
    have hsplit : ((c :: (t ++ [nl])) :: ls).flatten ++ s = (c :: t) ++ nl :: (ls.flatten ++ s) := by simp
    rw [hsplit, cons_append, sumAt_start hc, ← cons_append, sumAt_line _ hnl,
      ih fun x hx => h x (mem_cons_of_mem _ hx), Option.map_map]
    refine congrArg (fun f => Option.map f _) (funext fun n => ?_)
    simp
    omega

theorem plain_decimal : ∀ c ∈ decimal v, 32 ≤ c := fun c hc => UInt8.le_of_lt (visible_decimal v c hc)

theorem isLine_entry {e : Entry} (h : e.Stored) : isLine e.line := by
  have hline := e.line_eq []
  rw [append_nil] at hline
  refine ⟨101, sp :: (decimal e.clock ++ sp :: (decimal (UInt32.ofNat e.dev) ++ sp ::
    (decimal (if e.dead then 1 else 0) ++ sp :: (e.key ++ sp :: e.shown)))), ?_, by decide, ?_⟩
  · rw [hline]
    simp [eWord]
  · have hkey : ∀ c ∈ e.key, 32 ≤ c := fun c hc => UInt8.le_of_lt (visible_token h.valid.2.1 c hc)
    have hshown : ∀ c ∈ e.shown, 32 ≤ c := fun c hc => UInt8.le_of_lt (visible_token h.shown c hc)
    have hsp : 32 ≤ sp := by decide
    simp only [forall_mem_cons, forall_mem_append, hsp, true_and]
    exact ⟨by decide, plain_decimal _, plain_decimal _, plain_decimal _, hkey, hshown⟩

theorem isLine_header (n : ℕ) : isLine (headerPieces id n).flatten := by
  have hline := headerText id n []
  rw [append_nil] at hline
  refine ⟨100, [115, 49] ++ sp :: (decimal (UInt32.ofNat id) ++ sp :: decimal (UInt32.ofNat n)), ?_, by decide, ?_⟩
  · rw [hline]
    simp [ds1Word]
  · have hsp : 32 ≤ sp := by decide
    simp only [forall_mem_cons, forall_mem_append, hsp, true_and, cons_append, nil_append]
    exact ⟨by decide, by decide, by decide, plain_decimal _, plain_decimal _⟩

def textLines (id : Device) (l : List Entry) : List (List UInt8) :=
  (headerPieces id l.length).flatten :: l.map Entry.line

theorem bodyText_lines (l : List Entry) : bodyText id l = (textLines id l).flatten := by
  simp [bodyText, textLines]

theorem isLine_textLines (h : ∀ e ∈ l, e.Stored) : ∀ x ∈ textLines id l, isLine x := by
  intro x hx
  rcases mem_cons.mp hx with rfl | hx
  · exact isLine_header id _
  · obtain ⟨e, he, rfl⟩ := mem_map.mp hx
    exact isLine_entry (h e he)

theorem sumAt_text (h : ∀ e ∈ l, e.Stored) (rest : List UInt8) :
    sumAt true (bodyText id l ++ (sumWord ++ rest)) = some (bodyText id l).length := by
  have hsum : sumAt true (sumWord ++ rest) = some 0 := by
    simp [sumWord, sumAt, List.isPrefixOf]
  rw [bodyText_lines, sumAt_lines (isLine_textLines id h), hsum]
  simp

theorem hexWord_nonzero (h : UInt32) : ∀ c ∈ hexWord h, c ≠ 0 := by
  intro c hc
  obtain ⟨i, -, rfl⟩ := mem_map.mp hc
  have hall : ∀ n < 16, hexChar (UInt32.ofNat n) ≠ 0 := by decide
  have := hall _ (UInt32.lt_iff_toNat_lt.mp (and_fifteen_lt (h >>> (28 - 4 * UInt32.ofNat i))))
  rwa [UInt32.ofNat_toNat] at this

theorem fullText_nonzero (h : ∀ e ∈ l, e.Stored) :
    (fullText id l).takeWhile (· ≠ 0) = fullText id l := by
  refine takeWhile_eq_self_iff.mpr fun c hc => ?_
  rw [decide_eq_true_iff]
  rcases mem_append.mp hc with hc | hc
  · rw [bodyText_lines] at hc
    obtain ⟨x, hx, hcx⟩ := mem_flatten.mp hc
    obtain ⟨a, t, rfl, -, hplain⟩ := isLine_textLines id h x hx
    rcases mem_append.mp (by simpa using hcx : c ∈ (a :: t) ++ [nl]) with hcx | hcx
    · rintro rfl
      exact absurd (hplain 0 hcx) (by decide)
    · rw [mem_singleton.mp hcx]
      decide
  · rcases mem_append.mp hc with hc | hc
    · rintro rfl
      exact absurd hc (by decide)
    · rcases mem_append.mp hc with hc | hc
      · exact hexWord_nonzero _ c hc
      · rw [mem_singleton.mp hc]
        decide

theorem dsParse_fullText (h : ∀ e ∈ l, e.Stored) (hl : l.length ≤ dsKeys) :
    dsParse (fullText id l) = if ∀ e ∈ l, e.clock.toNat < numLimit then .ok l else .error .format := by
  have hdrop : (fullText id l).drop ((bodyText id l).length + 4) = hexWord (fnv (bodyText id l)) ++ [nl] := by
    rw [fullText, ← drop_drop, drop_left]
    rfl
  have htake : (fullText id l).take (bodyText id l).length = bodyText id l := take_left
  have hbody := parseBody_text id h hl (sumWord ++ (hexWord (fnv (bodyText id l)) ++ [nl]))
  have hrest : (fullText id l).drop (bodyText id l).length = sumWord ++ (hexWord (fnv (bodyText id l)) ++ [nl]) :=
    drop_left
  have hat : sumAt true (fullText id l) = some (bodyText id l).length := sumAt_text id h _
  rw [dsParse, hat]
  simp only [hdrop, hexLoop_hexWord, htake, ne_eq, not_true, if_false, hrest]
  rw [fullText, hbody]
  split_ifs <;> simp

end Mohhdy.Devsync
