import Mathlib.Data.List.DropRight
import Mohhdy.Foundations.Faults
import Mohhdy.Foundations.InsertionSort
import Mohhdy.Foundations.Runs
import Mohhdy.Foundations.Tables
import Mohhdy.Foundations.Texts

/-! The cookie jar of the fetcher (`wf_cookie.c`): what a Set-Cookie value writes, and to which
hosts what it wrote is sent.

Texts are zero-free byte lists. A draft is the cookie a value describes, made without looking at
the jar; `wfCookieSet` then finds its slot. A cookie without a Domain attribute belongs to the
host that set it, but the jar keeps only the first 95 characters of that host's name. -/
namespace Mohhdy.Web
set_option autoImplicit false

open Texts Runs Faults InsertionSort

variable {host path : Bytes}

def wfCookieMax : ℕ := 24
def wfCookieName : ℕ := 48
def wfCookieValue : ℕ := 320
def wfCookieDomain : ℕ := 96
def wfCookiePath : ℕ := 96

def ws (c : UInt8) : Bool := c == 32 || c == 9

structure Cookie where
  (name value domain path : Bytes)
  (hostOnly secure : Bool)
  deriving DecidableEq

def Cookie.setDomain (c : Cookie) (d : Bytes) : Cookie := { c with domain := d, hostOnly := false }

def Cookie.setPath (c : Cookie) (p : Bytes) : Cookie := { c with path := p }

def Cookie.setSecure (c : Cookie) : Cookie := { c with secure := true }

structure Jar where
  slots : List (Option (Cookie × UInt32))
  clock : UInt32
  enabled : Bool

def wfCookieJarInit : Jar := ⟨List.replicate wfCookieMax none, 0, true⟩

/-- The arguments of one `wf_cookie_set`; `now` is empty when the caller has no time. -/
structure SetCall where
  (host reqPath : Bytes)
  https : Bool
  (value now : Bytes)

/-! ## Matching -/

def isIpv4 (h : Bytes) : Bool :=
  h.all (fun c => c == 46 || (48 ≤ c && c ≤ 57)) && h.count 46 == 3

def domainMatch (host dom : Bytes) : Bool :=
  !dom.isEmpty && (lower host == lower dom || (endsIn host dom && !isIpv4 host))

def pathEnd (c : UInt8) : Bool := c == 63 || c == 35

def directory (rp : Bytes) : Bytes :=
  ((rp.takeWhile fun c => !pathEnd c).reverse.dropWhile (· != 47)).tail.reverse

def defaultPath (rp : Bytes) : Bytes :=
  if rp.head? = some 47 ∧ directory rp ≠ [] then (directory rp).take (wfCookiePath - 1) else [47]

def pathMatch (rp cp : Bytes) : Bool :=
  cp.isPrefixOf rp && match (rp.drop cp.length).head? with
    | none => true
    | some c => pathEnd c || cp.getLast? == some 47 || c == 47

/-! ## Dates -/

def isDigit (c : UInt8) : Bool := 48 ≤ c && c ≤ 57

def isAlnum (c : UInt8) : Bool := isDigit c || (97 ≤ asciiLower c && asciiLower c ≤ 122)

def dateWords (cur : Bytes) : Bytes → List Bytes
  | [] => if cur.isEmpty then [] else [cur]
  | c :: s =>
    if isAlnum c || (c == 58 && !cur.isEmpty) then dateWords (cur ++ [c]) s
    else if cur.isEmpty then dateWords [] s
    else cur :: dateWords [] s

structure Date where
  (day month year : Option ℕ)
  time : Option (ℕ × ℕ × ℕ)

def months : List Bytes :=
  ["jan", "feb", "mar", "apr", "may", "jun", "jul", "aug", "sep", "oct", "nov", "dec"].map ascii

def number (s : Bytes) : ℕ := s.foldl (fun v c => v * 10 + (c.toNat - 48)) 0

def dateWord (d : Date) (w : Bytes) : Date :=
  if d.time = none ∧ w.length = 8 ∧ w.getD 2 0 = 58 ∧ w.getD 5 0 = 58 then
    { d with time := some (number (w.take 2), number ((w.drop 3).take 2), number (w.drop 6)) }
  else if w.all isDigit then
    if d.day = none ∧ w.length ≤ 2 then { d with day := some (number w) }
    else if d.year = none ∧ w.length = 2 then
      { d with year := some (if number w < 70 then 2000 + number w else 1900 + number w) }
    else if d.year = none ∧ w.length = 4 then { d with year := some (number w) }
    else d
  else if d.month = none ∧ 3 ≤ w.length then
    { d with month := (months.findIdx? (· == lower (w.take 3))).map (· + 1) }
  else d

def digits : ℕ → ℕ → Bytes
  | 0, _ => []
  | n + 1, v => digits n (v / 10) ++ [UInt8.ofNat (48 + v % 10)]

def parseDate (s : Bytes) : Option Bytes := do
  let d := (dateWords [] s).foldl dateWord ⟨none, none, none, none⟩
  let (hh, mm, ss) ← d.time
  let day ← d.day
  let month ← d.month
  let year ← d.year
  if day < 1 ∨ day > 31 ∨ year < 1601 ∨ hh > 23 ∨ mm > 59 ∨ ss > 59 then none
  else some (digits 4 year ++ digits 2 month ++ digits 2 day ++ digits 2 hh ++ digits 2 mm ++
    digits 2 ss)

def tsBefore : Bytes → Bytes → Bool
  | a :: s, b :: t => if a = b then tsBefore s t else a.toInt8 < b.toInt8
  | _, _ => false

/-! ## Setting -/

/-- The part before the first equals sign and the part after it, each without the white space
around it. -/
def attributeOf (part : Bytes) : Bytes × Bytes :=
  let s := (part.dropWhile ws).rdropWhile ws
  let name := s.takeWhile (· != 61)
  (name.rdropWhile ws, (s.drop (name.length + 1)).dropWhile ws)

def attributes (value : Bytes) : List (Bytes × Bytes) :=
  (value.splitOn 59).tail.map attributeOf

def undotted (v : Bytes) : Bytes := if v.head? = some 46 then v.tail else v

/-- A set that is refused says no more than that it is. -/
inductive Refused
  | refused
  deriving DecidableEq

/-- The effect of one attribute on the draft, which is the cookie and whether it is to be
deleted. -/
def cookieAttribute (call : SetCall) (d : Cookie × Bool) (a : Bytes × Bytes) :
    Except Refused (Cookie × Bool) :=
  let name := lower a.1
  let v := a.2
  if name = ascii "domain" ∧ v ≠ [] then
    let dom := undotted v
    if dom = [] ∨ wfCookieDomain ≤ dom.length ∨ 46 ∉ dom then .error .refused
    else if domainMatch call.host (lower dom) then .ok (d.1.setDomain (lower dom), d.2)
    else .error .refused
  else if name = ascii "path" then
    .ok (if v.head? = some 47 ∧ v.length < wfCookiePath then (d.1.setPath v, d.2) else d)
  else if name = ascii "secure" then .ok (d.1.setSecure, d.2)
  else if name = ascii "max-age" ∧ v ≠ [] then
    .ok (d.1, d.2 || v.head? == some 45 || v.all (· == 48))
  else if name = ascii "expires" ∧ v ≠ [] ∧ call.now.length = 14 then
    .ok (d.1, d.2 || (parseDate v).any fun ts => tsBefore ts call.now)
  else .ok d

def plainCookie (call : SetCall) : Except Refused Cookie :=
  let part := (call.value.splitOn 59).headD []
  let raw := part.takeWhile (· != 61)
  let name := (raw.dropWhile ws).rdropWhile ws
  let value := ((part.drop (raw.length + 1)).dropWhile ws).rdropWhile ws
  if raw.length = part.length ∨ name = [] ∨ wfCookieName ≤ name.length ∨
      wfCookieValue ≤ value.length ∨ name.any (fun c => c < 33 || c == 127 || c == 44) ∨
      value.any (fun c => c < 32 || c == 127) then .error .refused
  else .ok
    { name, value, domain := lower (call.host.take (wfCookieDomain - 1)),
      path := defaultPath call.reqPath, hostOnly := true, secure := false }

def draft (call : SetCall) : Except Refused (Cookie × Bool) := do
  let c ← plainCookie call
  let d ← runAll (cookieAttribute call) (attributes call.value) (c, false)
  if d.1.secure ∧ call.https = false then .error .refused else .ok d

def sameKey (c : Cookie) (s : Option (Cookie × UInt32)) : Bool :=
  s.any fun x => x.1.name == c.name && x.1.domain == c.domain && x.1.path == c.path

def slotOrder (s : Option (Cookie × UInt32)) : ℕ := s.elim 0 fun x => x.2.toNat

/-- Which slot a cookie goes to: its own, a free one, or the one set longest ago. In a full jar
whose orders are all the largest the source finds no slot. -/
def slotFor (j : Jar) (c : Cookie) : Option (Cookie × UInt32) → Bool :=
  if j.slots.any (sameKey c) then sameKey c
  else if j.slots.any Option.isNone then Option.isNone
  else
    match Tables.least (fun s => slotOrder s < 0xffffffff) slotOrder j.slots with
    | some s => fun x => x = s
    | none => fun _ => false

def wfCookieSet (j : Jar) (call : SetCall) : Jar :=
  if j.enabled = false then j
  else
    match draft call with
    | .error _ => j
    | .ok (c, true) => { j with slots := Tables.modifyFirst (sameKey c) (fun _ => none) j.slots }
    | .ok (c, false) =>
      { j with
        slots := Tables.modifyFirst (slotFor j c) (fun _ => some (c, j.clock + 1)) j.slots
        clock := j.clock + 1 }

/-! ## Sending -/

def mayGet (host path : Bytes) (https : Bool) (c : Cookie) : Bool :=
  (!c.secure || https) &&
    (if c.hostOnly then host.length == c.domain.length && lower host == lower c.domain
      else domainMatch host c.domain) &&
    pathMatch path c.path

def sentBefore (x y : Cookie × UInt32) : Bool :=
  y.1.path.length < x.1.path.length || (x.1.path.length == y.1.path.length && x.2 < y.2)

def picked (j : Jar) (host path : Bytes) (https : Bool) : List Cookie :=
  let path := if path = [] then [47] else path
  (sortBack sentBefore
    ((j.slots.filterMap id).filter fun x => mayGet host path https x.1)).map Prod.fst

def cookieLine (cs : List Cookie) : Bytes :=
  if cs = [] then []
  else ascii "Cookie: " ++ (ascii "; ").intercalate (cs.map fun c => c.name ++ 61 :: c.value) ++
    [13, 10]

def wfCookieHeader (j : Jar) (host path : Bytes) (https : Bool) (cap : ℕ) : Option Bytes :=
  if j.enabled = false ∨ picked j host path https = [] then if 0 < cap then some [] else none
  else if (cookieLine (picked j host path https)).length < cap then
    some (cookieLine (picked j host path https))
  else none

/-! ## Whose a cookie is -/

def HasDomain (value dom : Bytes) : Prop :=
  ∃ a ∈ attributes value, lower a.1 = ascii "domain" ∧ undotted a.2 = dom

/-- The response that set the cookie came from the host, or from one that shares with it a
domain that the response named. -/
def SetFor (call : SetCall) (host : Bytes) : Prop :=
  lower call.host = lower host ∨
    ∃ dom, HasDomain call.value dom ∧ Under call.host dom ∧ Under host dom

theorem under_of_domainMatch {dom : Bytes} (h : domainMatch host (lower dom) = true) :
    Under host dom := by
  simp only [domainMatch, Bool.and_eq_true, Bool.or_eq_true, beq_iff_eq] at h
  rcases h.2 with hsame | ⟨hends, -⟩
  · exact .inl (by rw [hsame, lower_lower])
  · obtain ⟨pre, hpre⟩ := endsIn_iff.mp hends
    exact .inr ⟨pre, by rw [hpre, lower_lower]⟩

def Drafted (call : SetCall) (c : Cookie) : Prop :=
  (c.hostOnly = true ∧ c.domain = lower (call.host.take (wfCookieDomain - 1))) ∨
    (c.hostOnly = false ∧ ∃ dom, HasDomain call.value dom ∧ c.domain = lower dom ∧
      domainMatch call.host (lower dom) = true)

theorem plainCookie_drafted (call : SetCall) :
    Ends (plainCookie call) (Drafted call) fun _ => True := by
  refine Ends.guard trivial fun _ => Ends.ok ?_
  exact .inl ⟨rfl, rfl⟩

variable {call : SetCall}

theorem cookieAttribute_drafted {d : Cookie × Bool} {a : Bytes × Bytes}
    (ha : a ∈ attributes call.value) (hd : Drafted call d.1) :
    Ends (cookieAttribute call d a) (fun d' => Drafted call d'.1) fun _ => True := by
  refine Ends.ite ?_ fun _ => Ends.ite ?_ fun _ => Ends.ite ?_ fun _ => Ends.ite ?_ fun _ =>
    Ends.ite ?_ fun _ => Ends.ok hd
  · -- Domain: the draft's domain is replaced, once the host is known to be under the new one.
    rintro ⟨hname, -⟩
    refine Ends.guard trivial fun _ => Ends.ite ?_ fun _ => Ends.error trivial
    intro hmatch
    exact Ends.ok (.inr ⟨rfl, undotted a.2, ⟨a, ha, hname, rfl⟩, rfl, hmatch⟩)
  · intro _
    refine Ends.ok ?_
    split
    · exact hd
    · exact hd
  · exact fun _ => Ends.ok hd
  · exact fun _ => Ends.ok hd
  · exact fun _ => Ends.ok hd

/-- What the first part of a value makes and every attribute keeps holds of the draft. -/
theorem draft_ends {P : Cookie → Prop} {c : Cookie} {del : Bool}
    (hplain : Ends (plainCookie call) P fun _ => True)
    (hattr : ∀ d, ∀ a ∈ attributes call.value, P d.1 →
      Ends (cookieAttribute call d a) (fun d' => P d'.1) fun _ => True)
    (h : draft call = .ok (c, del)) : P c := by
  have hends : Ends (draft call) (fun d => P d.1) fun _ => True := by
    refine hplain.bind fun c hc => ?_
    have hrun : Ends (runAll (cookieAttribute call) (attributes call.value) (c, false))
        (fun d => P d.1) fun _ => True := runAll_ends_mem hattr hc
    exact hrun.bind fun d hd => Ends.guard trivial fun _ => Ends.ok hd
  exact hends.1 _ h

theorem draft_drafted {c : Cookie} {del : Bool} (h : draft call = .ok (c, del)) : Drafted call c :=
  draft_ends (plainCookie_drafted call) (fun _ _ => cookieAttribute_drafted) h

theorem Drafted.setFor {c : Cookie} {https : Bool}
    (h : Drafted call c) (hhost : c.hostOnly = true → call.host.length < wfCookieDomain)
    (hget : mayGet host path https c = true) : SetFor call host := by
  simp only [mayGet, Bool.and_eq_true] at hget
  obtain ⟨⟨-, hdom⟩, -⟩ := hget
  rcases h with ⟨honly, hc⟩ | ⟨honly, dom, hhas, hc, hmatch⟩
  · rw [if_pos honly, Bool.and_eq_true, beq_iff_eq, beq_iff_eq] at hdom
    have hwhole : call.host.take (wfCookieDomain - 1) = call.host :=
      List.take_of_length_le (Nat.le_pred_of_lt (hhost honly))
    rw [hc, hwhole, lower_lower] at hdom
    exact .inl hdom.2.symm
  · rw [if_neg (by rw [honly]; exact Bool.false_ne_true), hc] at hdom
    exact .inr ⟨dom, hhas, under_of_domainMatch hmatch, under_of_domainMatch hdom⟩

/-! ## Runs -/

def Written (calls : List SetCall) (j : Jar) : Prop :=
  ∀ s ∈ j.slots, ∀ c o, s = some (c, o) → ∃ call ∈ calls, draft call = .ok (c, false)

theorem wfCookieSet_written {calls : List SetCall} {j : Jar}
    (h : Written calls j) (hcall : call ∈ calls) : Written calls (wfCookieSet j call) := by
  unfold wfCookieSet
  split
  · exact h
  split
  · exact h
  · refine Tables.modifyFirst_forall h ?_
    rintro s - - c o ⟨⟩
  · next hdraft =>
    refine Tables.modifyFirst_forall h ?_
    rintro s - - c o ⟨⟩
    exact ⟨call, hcall, hdraft⟩

theorem run_written (calls : List SetCall) :
    Written calls (run wfCookieSet wfCookieJarInit calls) := by
  have hmem : Along wfCookieSet (fun _ call => call ∈ calls) wfCookieJarInit calls :=
    along_of_forall (fun call hcall _ => hcall) _
  refine run_invariant (fun j call => wfCookieSet_written) ?_ hmem
  intro s hs c o heq
  rw [List.eq_of_mem_replicate hs] at heq
  cases heq

theorem mem_picked {j : Jar} {https : Bool} {c : Cookie} (h : c ∈ picked j host path https) :
    ∃ o, some (c, o) ∈ j.slots ∧ mayGet host (if path = [] then [47] else path) https c = true := by
  obtain ⟨⟨c, o⟩, hx, rfl⟩ := List.mem_map.mp h
  have hmem := List.mem_filter.mp ((sortBack_perm sentBefore _).mem_iff.mp hx)
  exact ⟨o, by simpa using hmem.1, hmem.2⟩

theorem wfCookieHeader_line {j : Jar} {https : Bool} {cap : ℕ} {text : Bytes}
    (h : wfCookieHeader j host path https cap = some text) :
    ∃ cs ⊆ picked j host path https, text = cookieLine cs := by
  unfold wfCookieHeader at h
  split at h
  · split at h
    · cases h
      exact ⟨[], List.nil_subset _, rfl⟩
    · cases h
  · split at h
    · cases h
      exact ⟨_, List.Subset.refl _, rfl⟩
    · cases h

/-- A call whose cookie belongs to its host alone is for a host of at most 95 characters. -/
def HostKept (call : SetCall) : Prop :=
  ∀ d ∈ (draft call).toOption, d.1.hostOnly = true → call.host.length < wfCookieDomain

/-- After any such calls a header holds only cookies that were set for its host, and Secure ones
only on a secure connection. -/
theorem cookies_isolated (calls : List SetCall)
    (hhosts : ∀ call ∈ calls, HostKept call) (host path : Bytes)
    (https : Bool) (cap : ℕ) :
    ∀ text, wfCookieHeader (run wfCookieSet wfCookieJarInit calls) host path https cap = some text →
      ∃ cs, text = cookieLine cs ∧ ∀ c ∈ cs, (c.secure = true → https = true) ∧
        ∃ call ∈ calls, draft call = .ok (c, false) ∧ SetFor call host := by
  intro text htext
  obtain ⟨cs, hsub, rfl⟩ := wfCookieHeader_line htext
  refine ⟨cs, rfl, ?_⟩
  intro c hc
  obtain ⟨o, hslot, hget⟩ := mem_picked (hsub hc)
  obtain ⟨call, hcall, hdraft⟩ := run_written calls _ hslot c o rfl
  have hkept : c.hostOnly = true → call.host.length < wfCookieDomain :=
    hhosts call hcall (c, false) (by rw [hdraft]; rfl)
  refine ⟨?_, call, hcall, hdraft, (draft_drafted hdraft).setFor hkept hget⟩
  intro hsecure
  simp only [mayGet, hsecure, Bool.and_eq_true] at hget
  simpa using hget.1.1

def longHost : Bytes :=
  List.replicate 42 97 ++ [46] ++ List.replicate 41 98 ++ ascii ".example.com"

def longHostSets : SetCall := ⟨longHost, [47], true, ascii "sid=1; Secure", []⟩

theorem cookies_isolated_shop :
    let sets : SetCall := ⟨ascii "www.shop.com", [47], true, ascii "sid=1; Domain=shop.com", []⟩
    (∀ call ∈ [sets], HostKept call) ∧
      wfCookieHeader (run wfCookieSet wfCookieJarInit [sets]) (ascii "pay.shop.com") [47] true 64 =
        some (ascii "Cookie: sid=1\x0d\n") ∧
      ∃ cs, ascii "Cookie: sid=1\x0d\n" = cookieLine cs ∧
        ∀ c ∈ cs, (c.secure = true → true = true) ∧
          ∃ call ∈ [sets], draft call = .ok (c, false) ∧ SetFor call (ascii "pay.shop.com") := by
  have hsent : wfCookieHeader (run wfCookieSet wfCookieJarInit
      [⟨ascii "www.shop.com", [47], true, ascii "sid=1; Domain=shop.com", []⟩])
      (ascii "pay.shop.com") [47] true 64 = some (ascii "Cookie: sid=1\x0d\n") := by
    decide +kernel
  have hkept : ∀ call ∈ [(⟨ascii "www.shop.com", [47], true, ascii "sid=1; Domain=shop.com", []⟩ : SetCall)],
      HostKept call := by
    intro call hcall d _ _
    rw [List.mem_singleton.mp hcall]
    decide
  exact ⟨hkept, hsent, cookies_isolated _ hkept _ _ _ _ _ hsent⟩

/-- The cookie of a host in `com` is sent to the host in `co` whose name is its first 95
characters. -/
theorem longHost_leaks :
    wfCookieHeader (run wfCookieSet wfCookieJarInit [longHostSets]) (longHost.take 95) [47] true
        64 = some (ascii "Cookie: sid=1\x0d\n") ∧
      ¬ SetFor longHostSets (longHost.take 95) := by
  refine ⟨by decide +kernel, ?_⟩
  rintro (hsame | ⟨dom, ⟨a, ha, hname, -⟩, -⟩)
  · exact absurd (congrArg List.length hsame) (by decide)
  · have hnone : ∀ a ∈ attributes longHostSets.value, lower a.1 ≠ ascii "domain" := by
      decide +kernel
    exact hnone a ha hname

end Mohhdy.Web
