import Mohhdy.Web.Cookies
import Mohhdy.Web.Fetch
import Mohhdy.Web.Http

/-! URLs and the heads of requests (`wf_http.c`).

Texts are zero-free byte lists. A head is put together part by part in a buffer, and fails when the
whole does not fit. -/
namespace Mohhdy.WebFetch
open Texts List Web WebHttp Faults
set_option autoImplicit false

/-! ## Model -/

def wfUrlHostMax : ℕ := 256
def wfUrlPathMax : ℕ := 1024

def otherScheme : Bytes → Bool
  | [] => false
  | c :: s => if c = 47 ∨ c = 63 then false else (c = 58 ∧ s.take 2 = [47, 47]) ∨ otherScheme s

def hostEnd (c : UInt8) : Bool := c == 47 || c == 63 || c == 35 || c == 58

def hostChar (c : UInt8) : Bool :=
  (97 ≤ c && c ≤ 122) || isDigit c || c == 45 || c == 46 || c == 95

def pathChar (c : UInt8) : Bool := 33 ≤ c && c < 127

/-- The port that follows a host, 0 for none, and what stands behind it. -/
def urlPort (s : Bytes) : Option (ℕ × Bytes) :=
  if s.head? ≠ some 58 then some (0, s)
  else
    let ds := s.tail.takeWhile isDigit
    let rest := s.tail.dropWhile isDigit
    if ds = [] ∨ number ds = 0 ∨ 65535 < number ds ∨
        rest.head?.any (fun c => !hostEnd c || c == 58) then none
    else some (number ds, rest)

def defaultPort (https : Bool) : ℤ := if https then 443 else 80

def urlAfterScheme (https : Bool) (s : Bytes) : Option Url :=
  let host := lower (s.takeWhile fun c => !hostEnd c)
  if host = [] ∨ wfUrlHostMax ≤ host.length ∨ !host.all hostChar then none
  else (urlPort (s.dropWhile fun c => !hostEnd c)).bind fun (port, rest) =>
    let text := rest.takeWhile (· != 35)
    let path := if rest.head? = some 47 then text else 47 :: text
    if wfUrlPathMax ≤ path.length ∨ !text.all pathChar then none
    else some ⟨https, host, if 0 < port then port else defaultPort https, path⟩

def wfUrlParse (s : Bytes) : Option Url :=
  let s := s.dropWhile blank
  if prefixCi s "https://" then urlAfterScheme true (s.drop 8)
  else if prefixCi s "http://" then urlAfterScheme false (s.drop 7)
  else if otherScheme s then none
  else urlAfterScheme true s

def keptPath (path loc : Bytes) : Bytes :=
  let before := path.takeWhile (· != 63)
  if loc.head? = some 47 then []
  else if loc.head? = some 63 then before
  else if 47 ∈ before then before.rdropWhile (· != 47)
  else path.take 1

def wfUrlResolve (b : Url) (loc : Bytes) : Option Url :=
  let ref := loc.dropWhile (· == 32)
  if loc = [] then none
  else if prefixCi ref "http://" ∨ prefixCi ref "https://" then wfUrlParse ref
  else if ref.take 2 = [47, 47] then
    let text := ascii (if b.https then "https:" else "http:") ++ ref
    if text.length < wfUrlHostMax + wfUrlPathMax + 16 then wfUrlParse text else none
  else
    let text := ref.takeWhile (· != 35)
    let path := keptPath b.path ref ++ text
    if wfUrlPathMax ≤ path.length ∨ !text.all pathChar ∨ path.head? ≠ some 47 then none
    else some { b with path }

inductive Method
  | get
  | post

def Method.text : Method → Bytes
  | .get => ascii "GET"
  | .post => ascii "POST"

def putInt : ℕ → ℕ → Bytes
  | 0, _ => []
  | n + 1, v =>
    if v < 10 then [UInt8.ofNat (48 + v)] else putInt n (v / 10) ++ [UInt8.ofNat (48 + v % 10)]

/-- Every line of extra headers ends with CR LF, and neither stands alone; `prev` is the character
before. -/
def extraOk (prev : UInt8) : Bytes → Bool
  | [] => prev == 10
  | c :: s => !(c == 10 && prev != 13) && !(c == 13 && s.head? != some 10) && extraOk c s

def crlf : Bytes := [13, 10]

def joined (ls : List Bytes) : Bytes := ls.flatMap (· ++ crlf)

section
variable (u : Url) (method : Method) (ctype : Option Bytes) (bodyLen : ℤ)

def fixedLines (keepalive : Bool) : List Bytes :=
  [method.text ++ ascii " " ++ u.path ++ ascii " HTTP/1.1",
    ascii "Host: " ++ u.host ++
      (if u.port ≠ defaultPort u.https then ascii ":" ++ putInt 11 u.port.toNat else []),
    ascii "User-Agent: Mohhdy-fetch/1.0", ascii "Accept: text/html,text/plain,*/*",
    ascii "Accept-Encoding: gzip, deflate",
    ascii "Connection: " ++ ascii (if keepalive then "keep-alive" else "close")] ++
  if 0 ≤ bodyLen then
    [ascii "Content-Type: " ++ ctype.getD (ascii "application/x-www-form-urlencoded"),
      ascii "Content-Length: " ++ putInt 11 bodyLen.toNat]
  else []

def wfHttpBuildRequestKa (extra : Bytes) (keepalive : Bool) (cap : ℕ) : Option Bytes :=
  let head := joined (fixedLines u method ctype bodyLen keepalive) ++ extra ++ crlf
  if ctype.any (fun t => 13 ∈ t ∨ 10 ∈ t) ∨ (extra ≠ [] ∧ !extraOk 0 extra) then none
  else if head.length < cap then some head
  else none

end

/-! ## Lines -/

def Plain (l : Bytes) : Prop := 13 ∉ l ∧ 10 ∉ l

instance (l : Bytes) : Decidable (Plain l) := inferInstanceAs (Decidable (_ ∧ _))

/-- One request line and header lines, none of them empty, and the empty line that ends them. -/
def OneHead (method target head : Bytes) : Prop :=
  32 ∉ method ∧ 32 ∉ target ∧ ∃ ls, head = joined ls ++ crlf ∧ (∀ l ∈ ls, l ≠ [] ∧ Plain l) ∧
    ls.head? = some (method ++ ascii " " ++ target ++ ascii " HTTP/1.1")

theorem joined_splitOn {ls : List Bytes} (h : ∀ l ∈ ls, Plain l) (t : Bytes) :
    (joined ls ++ t).splitOn 10 = ls.map (· ++ [13]) ++ t.splitOn 10 := by
  induction ls with
  | nil => rfl
  | cons l ls ih =>
    obtain ⟨hl, hls⟩ := forall_mem_cons.mp h
    have hlf : ∀ c ∈ l ++ [13], (c == 10) = false := by
      intro c hc
      rcases mem_append.mp hc with hc | hc
      · exact beq_false_of_ne fun heq => hl.2 (heq ▸ hc)
      · rw [mem_singleton.mp hc]
        rfl
    have hcut : joined (l :: ls) ++ t = (l ++ [13]) ++ 10 :: (joined ls ++ t) := by
      simp [joined, crlf]
    rw [hcut, splitOn, splitOnP_append_cons_of_forall_mem hlf 10 (by decide), ← splitOn, ih hls]
    rfl

theorem joined_inj {ls ls' : List Bytes} (h : ∀ l ∈ ls, Plain l) (h' : ∀ l ∈ ls', Plain l)
    (heq : joined ls ++ crlf = joined ls' ++ crlf) : ls = ls' := by
  have hsplit := (joined_splitOn h crlf).symm.trans ((congrArg (splitOn 10) heq).trans (joined_splitOn h' crlf))
  exact map_injective_iff.mpr (append_left_injective [13]) (append_cancel_right hsplit)

/-- A head of plain lines is one head if no line of it is empty. -/
theorem oneHead_joined {method target : Bytes} {ls : List Bytes} (hmethod : 32 ∉ method) (htarget : 32 ∉ target)
    (hls : ∀ l ∈ ls, Plain l) (hfirst : ls.head? = some (method ++ ascii " " ++ target ++ ascii " HTTP/1.1")) :
    OneHead method target (joined ls ++ crlf) ↔ [] ∉ ls := by
  constructor
  · rintro ⟨-, -, ls', heq, hls', -⟩ hnil
    rw [joined_inj hls (fun l hl => (hls' l hl).2) heq] at hnil
    exact (hls' [] hnil).1 rfl
  · intro hnil
    exact ⟨hmethod, htarget, ls, rfl, fun l hl => ⟨fun h => hnil (h ▸ hl), hls l hl⟩, hfirst⟩

/-- Extra headers are lines. The character before is no CR, so the text starts inside a line. -/
theorem extraOk_lines {e : Bytes} {prev : UInt8} (h : extraOk prev e = true) (hprev : prev ≠ 13) :
    (e = [] ∧ prev = 10) ∨ ∃ l ls, e = joined (l :: ls) ∧ ∀ l' ∈ l :: ls, Plain l' := by
  induction hn : e.length using Nat.strong_induction_on generalizing e prev with
  | _ n ih =>
    cases e with
    | nil => exact .inl ⟨rfl, by simpa [extraOk] using h⟩
    | cons c s =>
      right
      rw [length_cons] at hn
      rw [extraOk] at h
      by_cases hcr : c = 13
      · subst hcr
        cases s with
        | nil => simp at h
        | cons d t =>
          rw [extraOk] at h
          have hd : d = 10 ∧ (¬d = 13 ∨ t.head? = some 10) ∧ extraOk d t = true := by
            simpa using h
          rw [length_cons] at hn
          obtain ⟨rfl, -, ht⟩ := hd
          rcases ih t.length (by omega) ht (by decide) rfl with ⟨rfl, -⟩ | ⟨l, ls, rfl, hls⟩
          · exact ⟨[], [], rfl, by simp [Plain]⟩
          · exact ⟨[], l :: ls, rfl, forall_mem_cons.mpr ⟨by simp [Plain], hls⟩⟩
      · have hlf : c ≠ 10 ∧ extraOk c s = true := by
          simpa [hcr, hprev] using h
        rcases ih s.length (by omega) hlf.2 hcr rfl with ⟨-, heq⟩ | ⟨l, ls, rfl, hls⟩
        · exact absurd heq hlf.1
        · obtain ⟨hl, hls⟩ := forall_mem_cons.mp hls
          refine ⟨c :: l, ls, rfl, forall_mem_cons.mpr ⟨?_, hls⟩⟩
          simpa [Plain, Ne.symm hcr, hlf.1.symm] using hl

/-! ## URLs -/

structure Url.Clean (u : Url) : Prop where
  host : u.host.all hostChar = true
  path : u.path.all pathChar = true
  slash : u.path.head? = some 47

theorem urlAfterScheme_clean {https : Bool} {s : Bytes} {u : Url}
    (h : urlAfterScheme https s = some u) : u.Clean := by
  obtain ⟨hhost, h⟩ := Option.ite_none_left_eq_some.mp h
  obtain ⟨⟨port, rest⟩, -, h⟩ := Option.bind_eq_some_iff.mp h
  obtain ⟨hpath, h⟩ := Option.ite_none_left_eq_some.mp h
  cases h
  simp only [not_or, Bool.not_eq_true', Bool.not_eq_false] at hhost hpath
  by_cases hslash : rest.head? = some 47
  · obtain ⟨tail, rfl⟩ := head?_eq_some_iff.mp hslash
    exact ⟨hhost.2.2, hpath.2, rfl⟩
  · simp only [if_neg hslash]
    exact ⟨hhost.2.2, Bool.and_eq_true_iff.mpr ⟨rfl, hpath.2⟩, rfl⟩

theorem wfUrlParse_clean {s : Bytes} {u : Url} (h : wfUrlParse s = some u) : u.Clean := by
  simp only [wfUrlParse] at h
  split_ifs at h
  · exact urlAfterScheme_clean h
  · exact urlAfterScheme_clean h
  · exact urlAfterScheme_clean h

theorem keptPath_sublist (path loc : Bytes) : keptPath path loc <+ path := by
  have hbefore : path.takeWhile (· != 63) <+ path := takeWhile_sublist _
  simp only [keptPath]
  split_ifs
  · exact nil_sublist _
  · exact hbefore
  · have hcut := rdropWhile_prefix (· != 47) (path.takeWhile (· != 63))
    exact hcut.sublist.trans hbefore
  · exact take_sublist _ _

theorem wfUrlResolve_clean {b u : Url} {loc : Bytes} (hb : b.Clean)
    (h : wfUrlResolve b loc = some u) : u.Clean := by
  obtain ⟨-, h⟩ := Option.ite_none_left_eq_some.mp h
  split at h
  · exact wfUrlParse_clean h
  split at h
  · exact wfUrlParse_clean (Option.ite_none_right_eq_some.mp h).2
  obtain ⟨hpath, h⟩ := Option.ite_none_left_eq_some.mp h
  cases h
  simp only [not_or, Bool.not_eq_true', Bool.not_eq_false, not_not] at hpath
  refine ⟨hb.host, ?_, hpath.2.2⟩
  rw [all_append, Bool.and_eq_true_iff]
  refine ⟨all_eq_true.mpr fun c hc => ?_, hpath.2.1⟩
  exact all_eq_true.mp hb.path c ((keptPath_sublist _ _).subset hc)

inductive Accepted : Url → Prop
  | parsed {s : Bytes} {u : Url} (h : wfUrlParse s = some u) : Accepted u
  | resolved {b u : Url} {loc : Bytes} (hb : Accepted b) (h : wfUrlResolve b loc = some u) :
    Accepted u

theorem Accepted.clean {u : Url} (h : Accepted u) : u.Clean := by
  induction h with
  | parsed h => exact wfUrlParse_clean h
  | resolved _ h ih => exact wfUrlResolve_clean ih h

/-! ## Heads -/

theorem Plain.append {a b : Bytes} (ha : Plain a) (hb : Plain b) : Plain (a ++ b) :=
  ⟨fun h => (mem_append.mp h).elim ha.1 hb.1, fun h => (mem_append.mp h).elim ha.2 hb.2⟩

theorem not_mem_of_all {p : UInt8 → Bool} {l : Bytes} (h : l.all p = true) {c : UInt8}
    (hc : p c = false) : c ∉ l := by
  intro hm
  rw [all_eq_true.mp h c hm] at hc
  cases hc

theorem plain_of_all {p : UInt8 → Bool} {l : Bytes} (h : l.all p = true) (hcr : p 13 = false)
    (hlf : p 10 = false) : Plain l :=
  ⟨not_mem_of_all h hcr, not_mem_of_all h hlf⟩

theorem putInt_digits (n v : ℕ) : (putInt n v).all isDigit = true := by
  have hdigit : ∀ d < 10, isDigit (UInt8.ofNat (48 + d)) = true := by decide
  induction n generalizing v with
  | zero => rfl
  | succ n ih =>
    unfold putInt
    split
    · next hv => simpa only [all_cons, all_nil, Bool.and_true] using hdigit v hv
    · rw [all_append, ih, all_cons, hdigit _ (Nat.mod_lt v (by decide))]
      rfl

theorem putInt_plain (n v : ℕ) : Plain (putInt n v) := plain_of_all (putInt_digits n v) rfl rfl

theorem line_append {a b : Bytes} (ha : a ≠ [] ∧ Plain a) (hb : Plain b) :
    a ++ b ≠ [] ∧ Plain (a ++ b) :=
  ⟨append_ne_nil_of_left_ne_nil ha.1 b, ha.2.append hb⟩

theorem fixedLines_plain {u : Url} (hu : u.Clean) (method : Method) {ctype : Option Bytes}
    (hctype : ∀ t ∈ ctype, Plain t) (bodyLen : ℤ) (keepalive : Bool) :
    ∀ l ∈ fixedLines u method ctype bodyLen keepalive, l ≠ [] ∧ Plain l := by
  have hmethod : method.text ≠ [] ∧ Plain method.text := by cases method <;> decide
  have hpath : Plain u.path := plain_of_all hu.path rfl rfl
  have hhost : Plain u.host := plain_of_all hu.host rfl rfl
  have htype : Plain (ctype.getD (ascii "application/x-www-form-urlencoded")) := by
    cases ctype with
    | none => decide
    | some t => exact hctype t rfl
  have hport : Plain
      (if u.port ≠ defaultPort u.https then ascii ":" ++ putInt 11 u.port.toNat else []) := by
    split
    · exact Plain.append (by decide) (putInt_plain _ _)
    · decide
  refine forall_mem_append.mpr ⟨?_, ?_⟩
  · simp only [forall_mem_cons, not_mem_nil, false_imp_iff, implies_true, and_true]
    refine ⟨line_append (line_append (line_append hmethod (by decide)) hpath) (by decide),
      line_append (line_append (by decide) hhost) hport, by decide, by decide, by decide,
      line_append (by decide) ?_⟩
    cases keepalive <;> decide
  · split
    · simp only [forall_mem_cons, not_mem_nil, false_imp_iff, implies_true, and_true]
      exact ⟨line_append (by decide) htype, line_append (by decide) (putInt_plain _ _)⟩
    · exact fun l hl => absurd hl not_mem_nil

/-- The empty line that ends a head is the only one exactly if none of the extra headers is empty,
whatever the URL and the content type are. -/
theorem request_oneHead_iff {u : Url} (hu : Accepted u) (method : Method) (ctype : Option Bytes)
    (bodyLen : ℤ) (extra : Bytes) (keepalive : Bool) (cap : ℕ) (head : Bytes)
    (h : wfHttpBuildRequestKa u method ctype bodyLen extra keepalive cap = some head) :
    OneHead method.text u.path head ↔ [13] ∉ extra.splitOn 10 := by
  simp only [wfHttpBuildRequestKa, Option.ite_none_left_eq_some, Option.ite_none_right_eq_some,
    Option.some.injEq] at h
  obtain ⟨hok, -, rfl⟩ := h
  rw [not_or] at hok
  obtain ⟨hctype, hlines⟩ := hok
  have hctype' : ∀ t ∈ ctype, Plain t := by
    intro t ht
    rw [Option.mem_def.mp ht] at hctype
    simpa [Plain] using hctype
  have hfixed := fixedLines_plain hu.clean method hctype' bodyLen keepalive
  obtain ⟨ls, rfl, hls⟩ : ∃ ls, extra = joined ls ∧ ∀ l ∈ ls, Plain l := by
    by_cases hnil : extra = []
    · exact ⟨[], hnil, fun l hl => absurd hl not_mem_nil⟩
    have hextraOk : extraOk 0 extra = true := by simpa [hnil] using hlines
    rcases extraOk_lines hextraOk (by decide) with ⟨hnil', -⟩ | ⟨l, ls, heq, hplain⟩
    · exact absurd hnil' hnil
    · exact ⟨l :: ls, heq, hplain⟩
  have hsplit := joined_splitOn hls []
  have hempty : [13] ∉ (joined ls).splitOn 10 ↔ [] ∉ ls := by
    rw [append_nil] at hsplit
    rw [hsplit, mem_append, mem_map]
    simp
  have hall : ∀ l ∈ fixedLines u method ctype bodyLen keepalive ++ ls, Plain l :=
    forall_mem_append.mpr ⟨fun l hl => (hfixed l hl).2, hls⟩
  have hnil : [] ∉ fixedLines u method ctype bodyLen keepalive := fun hm => (hfixed [] hm).1 rfl
  have hhead := oneHead_joined (by cases method <;> decide) (not_mem_of_all hu.clean.path rfl) hall rfl
  rw [joined, flatMap_append, mem_append, or_iff_right hnil] at hhead
  rw [hempty]
  exact hhead

def site : Url := ⟨false, ascii "h", 80, ascii "/"⟩

theorem site_accepted : Accepted site := .parsed (s := ascii "http://h/") (by decide +kernel)

def siteCookie : Bytes := ascii "Cookie: a=1\x0d\n"

theorem request_oneHead_iff_cookie : [13] ∉ siteCookie.splitOn 10 ∧ ∃ head,
    wfHttpBuildRequestKa site .get none (-1) siteCookie false 512 = some head ∧
      OneHead Method.get.text site.path head := by
  have hextra : [13] ∉ siteCookie.splitOn 10 := by decide +kernel
  have hbuilt : wfHttpBuildRequestKa site .get none (-1) siteCookie false 512 =
      some (joined (fixedLines site .get none (-1) false) ++ siteCookie ++ crlf) := by
    decide +kernel
  exact ⟨hextra, _, hbuilt, (request_oneHead_iff site_accepted _ _ _ _ _ _ _ hbuilt).mpr hextra⟩

/-- A bare CR LF counts as extra headers, and ends the head before its end. -/
theorem request_splits : Accepted site ∧ ∃ head,
    wfHttpBuildRequestKa site .get none (-1) crlf false 512 = some head ∧
      ¬ OneHead Method.get.text site.path head := by
  refine ⟨site_accepted, joined (fixedLines site .get none (-1) false ++ [[]]) ++ crlf,
    by decide +kernel, ?_⟩
  rw [oneHead_joined (by decide) (by decide) (by decide +kernel) rfl, not_not]
  exact mem_append_right _ (mem_singleton_self _)

/-! ## Cookies sent back -/

section
variable {call : SetCall} {j : Jar} {c : Cookie} {rp : Bytes}

theorem directory_split (h : directory rp ≠ []) :
    (∃ rest, rp = directory rp ++ 47 :: rest) ∧ ∀ c ∈ directory rp, pathEnd c = false := by
  have hstart := takeWhile_append_dropWhile (p := fun c => !pathEnd c) (l := rp)
  have hback := takeWhile_append_dropWhile (p := (· != 47))
    (l := (rp.takeWhile fun c => !pathEnd c).reverse)
  have hslash := head?_dropWhile_not (· != 47) (rp.takeWhile fun c => !pathEnd c).reverse
  cases hdrop : (rp.takeWhile fun c => !pathEnd c).reverse.dropWhile (· != 47) with
  | nil => exact absurd (by rw [directory, hdrop]; rfl) h
  | cons c t =>
    rw [hdrop] at hback hslash
    have hc : c = 47 := by simpa using hslash
    have hfront := congrArg reverse hback
    rw [reverse_append, reverse_cons, reverse_reverse] at hfront
    rw [directory, hdrop, tail_cons]
    constructor
    · rw [← hfront, hc, append_assoc, append_assoc] at hstart
      exact ⟨_, hstart.symm⟩
    · intro d hd
      have hmem : d ∈ rp.takeWhile fun c => !pathEnd c :=
        hfront ▸ mem_append_left _ (mem_append_left _ hd)
      simpa using mem_takeWhile_imp hmem

def CutClean (dir : Bytes) : Prop :=
  dir.length < wfCookiePath ∨ dir[wfCookiePath - 2]? = some 47 ∨ dir[wfCookiePath - 1]? = some 47

theorem defaultPath_match (hrp : rp.head? = some 47) :
    pathMatch rp (defaultPath rp) = true ↔ CutClean (directory rp) := by
  by_cases hnil : directory rp = []
  · have hroot : defaultPath rp = [47] := if_neg fun h => h.2 hnil
    obtain ⟨t, rfl⟩ := head?_eq_some_iff.mp hrp
    rw [hroot, hnil]
    refine iff_of_true ?_ (.inl (by decide))
    cases t <;> simp [pathMatch]
  have hcut : defaultPath rp = (directory rp).take (wfCookiePath - 1) := if_pos ⟨hrp, hnil⟩
  obtain ⟨⟨rest, hrest⟩, hinside⟩ := directory_split hnil
  have hprefix : ((directory rp).take (wfCookiePath - 1)).isPrefixOf rp = true := by
    have htake := take_prefix (wfCookiePath - 1) (directory rp)
    exact isPrefixOf_iff_prefix.mpr (htake.trans ⟨_, hrest.symm⟩)
  rw [hcut, pathMatch, hprefix, Bool.true_and]
  by_cases hdir : (directory rp).length < wfCookiePath
  · have hdrop : rp.drop (directory rp).length = 47 :: rest := (congrArg _ hrest).trans drop_left
    rw [take_of_length_le (show _ ≤ wfCookiePath - 1 from Nat.le_pred_of_lt hdir), hdrop]
    simpa using .inl hdir
  · have hlen : wfCookiePath - 1 < (directory rp).length := by
      unfold wfCookiePath at hdir ⊢
      omega
    -- the character behind the cut is one of the directory, so no end of a path
    have hnext : (rp.drop (wfCookiePath - 1)).head? = some (directory rp)[wfCookiePath - 1] := by
      have hget : (directory rp ++ 47 :: rest)[_]? = _ := getElem?_append_left hlen
      rw [← hrest, getElem?_eq_getElem hlen] at hget
      rwa [head?_drop]
    have hlast : ((directory rp).take (wfCookiePath - 1)).getLast? = (directory rp)[wfCookiePath - 2]? := by
      rw [getLast?_eq_getElem?, length_take_of_le hlen.le, getElem?_take_of_lt (by decide)]
      rfl
    rw [length_take_of_le hlen.le, hnext, hlast]
    simp [CutClean, hdir, hinside _ (getElem_mem hlen), getElem?_eq_getElem hlen]

def Bare (value : Bytes) : Prop :=
  ∀ a ∈ attributes value,
    lower a.1 ∉ ["domain", "path", "secure", "max-age", "expires"].map ascii

def Plainly (call : SetCall) (c : Cookie) : Prop :=
  c.hostOnly = true ∧ c.secure = false ∧ c.domain = lower (call.host.take (wfCookieDomain - 1)) ∧
    c.path = defaultPath call.reqPath

theorem draft_plainly {del : Bool} (hbare : Bare call.value) (h : draft call = .ok (c, del)) :
    Plainly call c := by
  refine draft_ends (Ends.guard trivial fun _ => Ends.ok ⟨rfl, rfl, rfl, rfl⟩) ?_ h
  intro d a ha hd
  have hnot := hbare a ha
  simp only [map_cons, map_nil, mem_cons, not_mem_nil, or_false, not_or] at hnot
  unfold cookieAttribute
  simp only [hnot, false_and, if_false]
  exact Ends.ok hd

def Stores (j : Jar) (call : SetCall) (c : Cookie) : Prop :=
  j.enabled = true ∧ draft call = .ok (c, false)

theorem Stores.mem (h : Stores j call c) :
    (∃ o, some (c, o) ∈ (wfCookieSet j call).slots) ↔ j.slots.any (slotFor j c) = true := by
  obtain ⟨henabled, hdraft⟩ := h
  simp only [wfCookieSet, henabled, hdraft]
  constructor
  · rintro ⟨o, ho⟩
    by_contra hslot
    have hsame : Tables.modifyFirst (slotFor j c) (fun _ => some (c, j.clock + 1)) j.slots = j.slots :=
      Tables.modifyFirst_of_none (by simpa using hslot)
    have hkey : j.slots.any (sameKey c) = true :=
      any_eq_true.mpr ⟨_, hsame ▸ ho, by simp [sameKey]⟩
    exact hslot (by rwa [slotFor, if_pos hkey])
  · intro hslot
    obtain ⟨s, hs, hp⟩ := any_eq_true.mp hslot
    obtain ⟨x, hx⟩ := Option.isSome_iff_exists.mp (find?_isSome.mpr ⟨s, hs, hp⟩)
    exact ⟨_, Tables.modifyFirst_mem hx⟩

theorem mem_picked_of_mem {host path : Bytes} {https : Bool} {o : UInt32}
    (h : some (c, o) ∈ j.slots)
    (hget : mayGet host (if path = [] then [47] else path) https c = true) :
    c ∈ picked j host path https := by
  refine mem_map.mpr ⟨(c, o), (InsertionSort.sortBack_perm _ _).mem_iff.mpr ?_, rfl⟩
  exact mem_filter.mpr ⟨by simpa using h, hget⟩

end

def visit (path : Bytes) : SetCall := ⟨ascii "h", path, false, ascii "a=1", []⟩

def visitCookie (path : Bytes) : Cookie := ⟨ascii "a", ascii "1", ascii "h", path, true, false⟩

def deepPath : Bytes := ascii "/" ++ replicate 100 97 ++ ascii "/x"

end Mohhdy.WebFetch
