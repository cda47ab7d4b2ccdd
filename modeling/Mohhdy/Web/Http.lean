import Mathlib.Data.List.DropRight
import Mohhdy.Foundations.Texts

/-! Responses read as their bytes arrive (`wf_http.c`).

An array of the source with its length is the list of the bytes it holds, and `error` with
`error_text` is the text of the failure. The body is copied in runs as long as the call and the
count of what is owed allow; `byte` is what a single byte does, and a call is a fold of it. -/
namespace Mohhdy.WebHttp
open Texts List
set_option autoImplicit false

/-! ## Model -/

inductive St
  | head | bodyLen | bodyClose | chunkSize | chunkData | chunkCrlf | trailer | done
  deriving DecidableEq

def St.runs : St → Bool
  | .bodyLen | .chunkData => true
  | _ => false

inductive Encoding
  | identity | gzip | deflate
  deriving DecidableEq

/-- `wf_http_resp_t`. While a run is copied some of it is still owed. -/
structure Resp where
  body : Bytes
  bodyCap : ℤ
  status : ℕ
  (reason location contentType : Bytes)
  contentLength : ℤ
  chunked : Bool
  contentEncoding : Encoding
  (truncated done connClose : Bool)
  error : Option String
  state : St
  hdr : Bytes
  remaining : ℕ
  line : Bytes
  totalBody : ℕ
  owed : state.runs = true → 0 < remaining

def respInit (cap : ℤ) : Resp where
  body := []
  bodyCap := cap
  status := 0
  reason := []
  location := []
  contentType := []
  contentLength := -1
  chunked := false
  contentEncoding := .identity
  truncated := false
  done := false
  connClose := false
  error := none
  state := .head
  hdr := []
  remaining := 0
  line := []
  totalBody := 0
  owed := by simp [St.runs]

def fail (r : Resp) (why : String) : Resp := { r with error := some why }

def bodyPut (r : Resp) (d : Bytes) : Resp :=
  let b := d.foldl (fun (b : Bytes × Bool) c =>
    if (b.1.length : ℤ) < r.bodyCap then (b.1 ++ [c], b.2) else (b.1, true)) (r.body, r.truncated)
  { r with body := b.1, truncated := b.2, totalBody := r.totalBody + d.length }

variable (c : UInt8) (d : Bytes)

def blank : Bool := c == 32 || c == 9

def copyVal (v : Bytes) (cap : ℕ) : Bytes :=
  ((v.dropWhile blank).rdropWhile blank).take (cap - 1)

def prefixCi (s : Bytes) (pre : String) : Bool := (ascii pre).isPrefixOf (lower s)

def named (s : Bytes) (name : String) : Bool := s.length == name.length && prefixCi s name

def stripCr (l : Bytes) : Bytes := if l.getLast? = some 13 then l.dropLast else l

def lengthValue : Bytes → ℕ → Option ℕ
  | [], v => some v
  | c :: t, v =>
    if c < 48 ∨ 57 < c ∨ 100000000 < v then none else lengthValue t (v * 10 + (c.toNat - 48))

/-- One header line of `parse_head`, with whether a length was seen before it and after it. -/
def header (r : Resp) (sawLen : Bool) (name val : Bytes) : Resp × Bool :=
  if named name "content-length" then
    let tmp := cstr (copyVal val 24)
    match if tmp = [] then none else lengthValue tmp 0 with
    | none => (fail r "bad Content-Length", sawLen)
    | some v =>
      if sawLen ∧ (v : ℤ) ≠ r.contentLength then (fail r "conflicting Content-Length", sawLen)
      else ({ r with contentLength := v }, true)
  else if named name "transfer-encoding" then
    let tmp := lower (cstr (copyVal val 64))
    if 7 ≤ tmp.length ∧ prefixCi (tmp.drop (tmp.length - 7)) "chunked" then
      ({ r with chunked := true }, sawLen)
    else if named tmp "identity" then (r, sawLen)
    else (fail r "unsupported Transfer-Encoding", sawLen)
  else if named name "connection" then
    let close := (cstr (copyVal val 64)).tails.foldl (fun close t =>
      (close || prefixCi t "close") && !prefixCi t "keep-alive") r.connClose
    ({ r with connClose := close }, sawLen)
  else if named name "location" then ({ r with location := copyVal val 1024 }, sawLen)
  else if named name "content-type" then ({ r with contentType := copyVal val 128 }, sawLen)
  else if named name "content-encoding" then
    let tmp := cstr (copyVal val 32)
    if named tmp "identity" then ({ r with contentEncoding := .identity }, sawLen)
    else if named tmp "gzip" || named tmp "x-gzip" then
      ({ r with contentEncoding := .gzip }, sawLen)
    else if named tmp "deflate" then ({ r with contentEncoding := .deflate }, sawLen)
    else (fail r "unsupported Content-Encoding (only gzip and deflate)", sawLen)
  else (r, sawLen)

def headerLines : List Bytes → Bool → Resp → Resp
  | [], _, r => r
  | l :: ls, sawLen, r =>
    let l := stripCr l
    let colon := l.idxOf 58
    if l = [] then r
    else if colon = 0 ∨ colon = l.length then fail r "bad header line"
    else
      let (s, sawLen) := header r sawLen (l.take colon) (l.drop (colon + 1))
      if s.error.isSome then s else headerLines ls sawLen s

/-- The end of `parse_head`: how the body comes. -/
def bodyPlan (r : Resp) : Resp :=
  let r := if r.contentEncoding = .identity then r else { r with bodyCap := r.bodyCap.tdiv 3 }
  if r.chunked then
    { r with contentLength := -1, state := .chunkSize, line := [], owed := by simp [St.runs] }
  else if r.status = 204 ∨ r.status = 304 ∨ (100 ≤ r.status ∧ r.status < 200) then
    { r with state := .done, owed := by simp [St.runs] }
  else if h : 0 < r.contentLength then
    { r with remaining := r.contentLength.toNat, state := .bodyLen, owed := fun _ => by omega }
  else if r.contentLength = 0 then
    { r with remaining := 0, state := .done, owed := by simp [St.runs] }
  else { r with state := .bodyClose, connClose := true, owed := by simp [St.runs] }

def parseHead (r : Resp) : Resp :=
  let h := fun i => r.hdr.getD i 0
  if r.hdr.length < 12 ∨ r.hdr.take 7 ≠ ascii "HTTP/1." then fail r "not an HTTP/1.x response"
  else if h 8 ≠ 32 ∨ h 9 < 49 ∨ 53 < h 9 ∨ h 10 < 48 ∨ 57 < h 10 ∨ h 11 < 48 ∨ 57 < h 11 then
    fail r "bad status line"
  else
    let p := 12 + (r.hdr.drop 12).idxOf 10
    let s := headerLines ((r.hdr.drop (p + 1)).splitOn 10) false
      { r with
        status := ((h 9).toNat - 48) * 100 + ((h 10).toNat - 48) * 10 + ((h 11).toNat - 48)
        connClose := r.connClose || h 7 == 48
        reason := copyVal (stripCr ((r.hdr.take p).drop 13)) 64 }
    if s.error.isSome then s else bodyPlan s

def headEnds (hdr : Bytes) : Bool :=
  let h := fun i => hdr.getD (hdr.length - i) 0
  2 ≤ hdr.length && h 1 == 10 &&
    ((4 ≤ hdr.length && h 2 == 13 && h 3 == 10) || h 2 == 10)

def headByte (r : Resp) (c : UInt8) : Resp :=
  if 32 * 1024 - 1 ≤ r.hdr.length then fail r "headers too large"
  else
    let r := { r with hdr := r.hdr ++ [c] }
    if headEnds r.hdr then
      let s := parseHead r
      if s.error.isSome then s
      else if 100 ≤ s.status ∧ s.status < 200 then
        { s with hdr := [], state := .head, owed := by simp [St.runs] }
      else s
    else r

def chunkLen : Bytes → ℕ → ℕ → Except String ℕ
  | [], v, digits => if digits = 0 then .error "bad chunk size" else .ok v
  | c :: t, v, digits =>
    let h := asciiLower c
    if blank h then chunkLen t v digits
    else if ¬(48 ≤ h ∧ h ≤ 57) ∧ ¬(97 ≤ h ∧ h ≤ 102) then .error "bad chunk size"
    else if 0x1000000 < v then .error "chunk too large"
    else chunkLen t (v * 16 + if h ≤ 57 then h.toNat - 48 else h.toNat - 97 + 10) (digits + 1)

def lineByte (r : Resp) (c : UInt8) : Resp :=
  if c ≠ 10 then
    if 63 ≤ r.line.length then fail r "chunk line too long" else { r with line := r.line ++ [c] }
  else
    let r := { r with line := stripCr r.line }
    if r.state = .chunkCrlf then
      if r.line ≠ [] then fail r "missing CRLF after chunk"
      else { r with state := .chunkSize, line := [], owed := by simp [St.runs] }
    else if r.state = .trailer then
      if r.line = [] then { r with state := .done, line := [], owed := by simp [St.runs] }
      else { r with line := [] }
    else
      match chunkLen (r.line.takeWhile (· ≠ 59)) 0 0 with
      | .error why => fail r why
      | .ok 0 => { r with state := .trailer, line := [], owed := by simp [St.runs] }
      | .ok (v + 1) =>
        { r with remaining := v + 1, state := .chunkData, line := [], owed := fun _ => by omega }

def runLeft (r : Resp) (left : ℕ) : Resp :=
  if h : left = 0 then
    if r.state = .chunkData then
      { r with remaining := 0, state := .chunkCrlf, line := [], owed := by simp [St.runs] }
    else { r with remaining := 0, state := .done, owed := by simp [St.runs] }
  else { r with remaining := left, owed := fun _ => Nat.pos_of_ne_zero h }

def bodyRun (r : Resp) (d : Bytes) : Resp :=
  let k := min d.length r.remaining
  runLeft (bodyPut r (d.take k)) (r.remaining - k)

/-- The loop of `wf_http_feed`. -/
def feedLoop : Bytes → Resp → Resp
  | [], r => r
  | c :: d, r =>
    match h : r.state with
    | .done => r
    | .head =>
      let s := headByte r c
      if s.error.isSome then s else feedLoop d s
    | .bodyLen | .chunkData =>
      feedLoop ((c :: d).drop (min (d.length + 1) r.remaining)) (bodyRun r (c :: d))
    | .bodyClose => bodyPut r (c :: d)
    | .chunkSize | .chunkCrlf | .trailer =>
      let s := lineByte r c
      if s.error.isSome then s else feedLoop d s
termination_by d => d.length
decreasing_by
  · exact Nat.lt_succ_self _
  all_goals first
    | exact Nat.lt_succ_self _
    | have := r.owed (by rw [h]; rfl)
      simp only [length_drop, length_cons]
      omega

def returned (r : Resp) : ℤ × Resp :=
  if r.error.isSome then (-1, r)
  else if r.state = .done then (1, { r with done := true })
  else (0, r)

def feed (r : Resp) (d : Bytes) : ℤ × Resp :=
  if r.error.isSome then (-1, r) else returned (feedLoop d r)

/-! ## One byte -/

def byte (r : Resp) (c : UInt8) : Resp :=
  if r.error.isSome then r
  else
    match r.state with
    | .done => r
    | .head => headByte r c
    | .bodyLen | .chunkData => bodyRun r [c]
    | .bodyClose => bodyPut r [c]
    | .chunkSize | .chunkCrlf | .trailer => lineByte r c

theorem bodyPut_cons (r : Resp) (c : UInt8) (d : Bytes) :
    bodyPut r (c :: d) = bodyPut (bodyPut r [c]) d := by
  simp only [bodyPut, foldl_cons, foldl_nil, length_cons, length_nil]
  rw [show r.totalBody + (0 + 1) + d.length = r.totalBody + (d.length + 1) by omega]

theorem bodyRun_error (r : Resp) (d : Bytes) : (bodyRun r d).error = r.error := by
  simp only [bodyRun, runLeft]
  split
  · split <;> rfl
  · rfl

variable {r : Resp}

theorem bodyRun_cons (h : 1 < r.remaining) : bodyRun r (c :: d) = bodyRun (bodyRun r [c]) d ∧
      (bodyRun r [c]).state = r.state ∧ (bodyRun r [c]).remaining + 1 = r.remaining := by
  have hone : bodyRun r [c] = { bodyPut r [c] with
      remaining := r.remaining - 1
      owed := fun _ => by omega } := by
    simp [bodyRun, runLeft, Nat.min_eq_left h.le, Nat.sub_ne_zero_of_lt h]
  have hk : min (d.length + 1) r.remaining = min d.length (r.remaining - 1) + 1 := by omega
  refine ⟨?_, by rw [hone]; rfl, by rw [hone]; exact Nat.sub_add_cancel h.le⟩
  rw [hone]
  simp only [bodyRun, length_cons, hk, take_succ_cons]
  rw [bodyPut_cons, show r.remaining - (min d.length (r.remaining - 1) + 1) =
    r.remaining - 1 - min d.length (r.remaining - 1) by omega]
  rfl

theorem feedLoop_run (h : r.state.runs = true) : feedLoop (c :: d) r =
      feedLoop ((c :: d).drop (min (d.length + 1) r.remaining)) (bodyRun r (c :: d)) := by
  rw [feedLoop]
  split <;> simp_all [St.runs]

theorem feedLoop_run_cons (h : r.state.runs = true) :
    feedLoop (c :: d) r = feedLoop d (bodyRun r [c]) := by
  have hpos := r.owed h
  rw [feedLoop_run c d h]
  by_cases hend : d = [] ∨ r.remaining = 1
  · have hk : min (d.length + 1) r.remaining = 1 := by
      rcases hend with rfl | h1
      · exact Nat.min_eq_left hpos
      · omega
    have hrun : bodyRun r (c :: d) = bodyRun r [c] := by
      simp only [bodyRun, length_cons, length_nil, hk, Nat.min_eq_left hpos]
      rfl
    rw [hk, hrun]
    rfl
  · obtain ⟨hd, h1⟩ := not_or.mp hend
    obtain ⟨hrun, hstate, hrem⟩ := bodyRun_cons (r := r) c d (by omega)
    obtain ⟨b, t, rfl⟩ := exists_cons_of_ne_nil hd
    rw [feedLoop_run b t (hstate ▸ h), hrun, ← hrem, Nat.succ_min_succ]
    rfl

theorem feedLoop_done (h : r.state = .done) : feedLoop d r = r := by
  cases d with
  | nil => rw [feedLoop]
  | cons c d =>
    rw [feedLoop]
    split <;> simp_all

theorem feedLoop_close (h : r.state = .bodyClose) : feedLoop d r = bodyPut r d := by
  cases d with
  | nil => rw [feedLoop]; rfl
  | cons c d =>
    rw [feedLoop]
    split <;> simp_all

theorem feedLoop_cons (he : r.error = none) : feedLoop (c :: d) r =
      if (byte r c).error.isSome then byte r c else feedLoop d (byte r c) := by
  by_cases hruns : r.state.runs = true
  · have hbyte : byte r c = bodyRun r [c] := by
      cases hs : r.state <;> simp_all [byte, St.runs]
    simp [hbyte, bodyRun_error, he, feedLoop_run_cons c d hruns]
  rw [feedLoop]
  split
  case h_1 hs => simp [byte, he, hs, feedLoop_done]
  case h_5 hs =>
    have hput : (bodyPut r [c]).error = none := he
    simp [byte, he, hs, hput, feedLoop_close (r := bodyPut r [c]) d hs, ← bodyPut_cons]
  all_goals simp_all [byte, St.runs]

theorem byte_error (h : r.error.isSome) (d : Bytes) : d.foldl byte r = r :=
  foldl_fixed' (fun c => by simp [byte, h]) d

theorem byte_done (h : r.state = .done) (d : Bytes) : d.foldl byte r = r :=
  foldl_fixed' (fun c => by simp [byte, h]) d

theorem feedLoop_eq_foldl (he : r.error = none) : feedLoop d r = d.foldl byte r := by
  induction d generalizing r with
  | nil => rw [feedLoop]; rfl
  | cons c d ih =>
    rw [feedLoop_cons c d he]
    split
    · rename_i h
      exact (byte_error h d).symm
    · rename_i h
      exact ih (by simpa using h)

theorem feed_eq (r : Resp) (d : Bytes) : feed r d = returned (d.foldl byte r) := by
  unfold feed
  split
  · rename_i h
    rw [byte_error h]
    simp [returned, h]
  · rename_i h
    rw [feedLoop_eq_foldl d (by simpa using h)]

/-! ## Any way of cutting the stream -/

/-- What a call leaves reads on as the state before it was marked complete. -/
theorem returned_foldl (r : Resp) (d : Bytes) :
    returned (d.foldl byte (returned r).2) = returned (d.foldl byte r) := by
  by_cases he : r.error.isSome
  · simp [returned, he]
  by_cases hd : r.state = .done
  · have hm : (returned r).2 = { r with done := true } := by simp [returned, he, hd]
    rw [hm, byte_done hd, byte_done (r := { r with done := true }) hd]
    simp [returned, he, hd]
  · simp [returned, he, hd]

theorem feed_foldl (acc : Bytes) (pieces : List Bytes) :
    pieces.foldl (fun p d => feed p.2 d) (returned (acc.foldl byte r)) =
      returned ((acc ++ pieces.flatten).foldl byte r) := by
  induction pieces generalizing acc with
  | nil => simp
  | cons d ds ih =>
    rw [foldl_cons, feed_eq, returned_foldl, ← foldl_append, ih]
    simp

/-- However a stream is cut into calls, the last of them returns what one call with the whole
stream returns and leaves the same response: its state, error, fields, body and totals. -/
theorem feed_pieces (cap : ℤ) (pieces : List Bytes) :
    pieces.foldl (fun p d => feed p.2 d) (0, respInit cap) =
      feed (respInit cap) pieces.flatten := by
  rw [feed_eq]
  exact feed_foldl (r := respInit cap) [] pieces

end Mohhdy.WebHttp
