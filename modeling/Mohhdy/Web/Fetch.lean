import Mohhdy.Foundations.Runs
import Mohhdy.Foundations.Texts

/-! Fetching with redirects, one kept connection and one retry (`wf_fetch.c`).

What the name service, the servers, the TLS handshake, the parser of responses and the cache
answer is given from outside, one record for each request that may be made, so a statement about
all answers is one about every server. Kept are where each request went, with which lines, the TLS
session it went through, and the host and port its socket was opened for. -/
namespace Mohhdy.WebFetch
open Texts Runs List
set_option autoImplicit false

/-! ## Model -/

/-- `wf_url_t` -/
structure Url where
  https : Bool
  host : Bytes
  port : ℤ
  path : Bytes
  deriving DecidableEq

/-- `wf_fetch_req_t` -/
structure Request where
  (method body ctype extra : Option Bytes)

/-- The fields of `wf_fetch_env_t` that decide something here. -/
structure Env where
  (keepalive caching : Bool)
  maxRedirects : ℤ

inductive Location
  | none
  | bad
  | url (next : Url)

/-- A response that was read to its end. It lets the connection stay open when it says so, is
complete, and the peer has not closed its TLS session. -/
structure Response where
  status : ℤ
  location : Location
  (persists decodes : Bool)

inductive Write
  | done
  | headLost
  | bodyLost

/-- What one call of `one` is answered; `silent` says that no byte comes back. -/
structure Answers where
  resolved : Bool
  socket : Option ℕ
  (fits handshake : Bool)
  write : Write
  silent : Bool
  response : Option Response

/-- `g_conn` while it is open. -/
structure Conn where
  https : Bool
  port : ℤ
  host : Bytes
  socket : ℕ

/-- `tls` is there while `g_tls` is established: the host its handshake was for, and its socket.
`peers` is no variable of the code: the host and port each socket was last opened for. -/
structure State where
  conn : Option Conn
  tls : Option (Bytes × ℕ)
  peers : ℕ → Option (Bytes × ℤ)

/-- The socket a request is written to, whom it was opened for, and the session that encrypts the
request, if one does. -/
structure Channel where
  socket : ℕ
  peer : Option (Bytes × ℤ)
  tls : Option (Bytes × ℕ)

inductive Outcome
  | failed (stale : Bool)
  | answered (r : Response)

def tlsClosed (https : Bool) (s : State) : State :=
  { s with tls := if https then none else s.tls }

def connClose (s : State) : State :=
  match s.conn with
  | none => s
  | some c => tlsClosed c.https { s with conn := none }

def reusable (env : Env) (s : State) (u : Url) : Option ℕ :=
  s.conn.bind fun c =>
    if env.keepalive ∧ c.https = u.https ∧ c.port = u.port ∧ c.host = u.host ∧
      (u.https = true → s.tls.isSome) then some c.socket else none

/-- `one` from the label `connected` on. -/
def exchange (env : Env) (s : State) (u : Url) (h : ℕ) (reuse : Bool) (a : Answers) :
    State × Option Channel × Outcome :=
  if a.fits = false then ({ s with conn := none }, none, .failed false)
  else if u.https ∧ reuse = false ∧ a.handshake = false then
    ({ s with tls := none }, none, .failed false)
  else
    let s : State := ⟨none, if u.https ∧ reuse = false then some (u.host, h) else s.tls, s.peers⟩
    -- a session that is not established writes nothing
    if u.https ∧ s.tls = none then (s, none, .failed reuse)
    else
      let sent := some ⟨h, s.peers h, if u.https then s.tls else none⟩
      match a.write with
      | .headLost => (s, sent, .failed reuse)
      | .bodyLost => (s, sent, .failed (reuse && u.https))
      | .done =>
        if reuse ∧ a.silent then (tlsClosed u.https s, sent, .failed true)
        else
          match a.response with
          | none => (tlsClosed u.https s, sent, .failed false)
          | some r =>
            (if env.keepalive ∧ r.persists then { s with conn := some ⟨u.https, u.port, u.host, h⟩ }
              else tlsClosed u.https s,
            sent, if r.decodes then .answered r else .failed false)

def State.opened (s : State) (h : ℕ) (u : Url) : State :=
  { s with peers := Function.update s.peers h (some (u.host, u.port)) }

def one (env : Env) (s : State) (u : Url) (a : Answers) : State × Option Channel × Outcome :=
  match reusable env s u with
  | some h => exchange env s u h true a
  | none =>
    match if a.resolved then a.socket else none with
    | none => (connClose s, none, .failed false)
    | some h => exchange env ((connClose s).opened h u) u h false a

def notGet (rq : Option Request) : Bool := (rq.bind Request.method).any (· ≠ ascii "GET")

/-- One URL of the chain: a stale connection is tried again once, for a `GET` only. -/
def tries (env : Env) (s : State) (u : Url) (rq : Option Request) (a : Answers × Answers) :
    State × List Channel × Option Response :=
  match one env s u a.1 with
  | (s, c, .answered r) => (s, c.toList, some r)
  | (s, c, .failed stale) =>
    if stale = false ∨ notGet rq then (s, c.toList, none)
    else
      match one env s u a.2 with
      | (s, c', .answered r) => (s, c.toList ++ c'.toList, some r)
      | (s, c', .failed _) => (s, c.toList ++ c'.toList, none)

def redirected (u next : Url) (status : ℤ) (rq : Request) : Option Request :=
  let rq := if status ≠ 307 ∧ status ≠ 308 then ⟨none, none, none, rq.extra⟩ else rq
  let rq := if u.host = next.host ∧ u.port = next.port then rq else { rq with extra := none }
  if rq.method.isSome ∨ rq.extra.isSome then some rq else none

/-- A request that was written, at least in part, for the URL at place `hop` of the chain. -/
structure Sent where
  hop : ℕ
  url : Url
  request : Option Request
  channel : Channel

/-- The loop of `wf_fetch_ex`, with the URLs it goes through and the requests it writes. A redirect
starts from `base`, the request without the validators of the cache. -/
def fetchLoop (env : Env) (answers : ℕ → Answers × Answers) :
    ℕ → ℕ → State → Url → Option Request → Option Request → State × List Url × List Sent
  | left, hop, s, u, rq, base =>
    match tries env s u rq (answers hop) with
    | (s, cs, none) => (s, [u], cs.map (⟨hop, u, rq, ·⟩))
    | (s, cs, some r) =>
      match left, r.location with
      | left + 1, .url next =>
        if r.status ∈ [301, 302, 303, 307, 308] ∧ (u.https → next.https) then
          let rq' := base.bind (redirected u next r.status)
          let rest := fetchLoop env answers left (hop + 1) s next rq' rq'
          (rest.1, u :: rest.2.1, cs.map (⟨hop, u, rq, ·⟩) ++ rest.2.2)
        else (s, [u], cs.map (⟨hop, u, rq, ·⟩))
      | _, _ => (s, [u], cs.map (⟨hop, u, rq, ·⟩))

inductive Lookup
  | fresh
  | stale (validators : Bytes)
  | miss

/-- A call of `wf_fetch_ex`: its URL as `wf_url_parse` reads it, its request, and all answers. -/
structure Call where
  url : Url
  request : Option Request
  lookup : Lookup
  answers : ℕ → Answers × Answers

/-- The first request: none when the cache answers, with its validators when it has a stale entry. -/
def firstRequest (env : Env) (c : Call) : Option (Option Request) :=
  if env.caching ∧ notGet c.request = false ∧ (c.request.bind Request.body).isNone then
    match c.lookup with
    | .fresh => none
    | .miss => some c.request
    | .stale v =>
      let rq := c.request.getD ⟨none, none, none, none⟩
      some (some { rq with extra := some (rq.extra.getD [] ++ v) })
  else some c.request

structure Fetch where
  first : Url
  chain : List Url
  sent : List Sent

def wfFetchEx (env : Env) (s : State) (c : Call) : State × Fetch :=
  match firstRequest env c with
  | none => (s, ⟨c.url, [], []⟩)
  | some rq =>
    let r := fetchLoop env c.answers (min env.maxRedirects 5).toNat 0 s c.url rq c.request
    (r.1, ⟨c.url, r.2.1, r.2.2⟩)

inductive Op
  | fetch (c : Call)
  | drop

structure World where
  state : State
  log : List Fetch

def World.init : World := ⟨⟨none, none, fun _ => none⟩, []⟩

def step (env : Env) (w : World) : Op → World
  | .fetch c => ⟨(wfFetchEx env w.state c).1, (wfFetchEx env w.state c).2 :: w.log⟩
  | .drop => { w with state := connClose w.state }

/-! ## Where requests go -/

/-- A request goes to the host and port of its URL, and one for an https URL is encrypted by a session
whose handshake was for that host, on the same socket. -/
def Channel.Good (u : Url) (c : Channel) : Prop :=
  c.peer = some (u.host, u.port) ∧ (u.https = true → c.tls = some (u.host, c.socket))

/-- The kept connection was opened for what it says, and has the session of the last handshake. -/
def State.Ok (s : State) : Prop :=
  ∀ c, s.conn = some c →
    s.peers c.socket = some (c.host, c.port) ∧ (c.https = true → s.tls = some (c.host, c.socket))

/-- What a fetch has to keep: the extra lines go to a socket that was opened for the host and port of
its own URL, nothing is sent in clear behind an https URL of the chain, what is no `GET` is sent once
for each URL, and every request goes to its URL, an https one through the session of its host. -/
structure Kept (f : Fetch) : Prop where
  extra : ∀ e ∈ f.sent, (e.request.bind Request.extra).isSome →
    e.channel.peer = some (f.first.host, f.first.port)
  place : ∀ e ∈ f.sent, f.chain[e.hop]? = some e.url
  clear : ∀ e ∈ f.sent, ∀ i ≤ e.hop, ∀ u, f.chain[i]? = some u → u.https = true →
    e.url.https = true
  once : ∀ k, (f.sent.countP fun e => e.hop = k && notGet e.request) ≤ 1
  secure : ∀ e ∈ f.sent, e.channel.Good e.url

variable {env : Env} {s : State} {u first : Url} {rq base : Option Request} {hop left : ℕ}

theorem connClose_conn (s : State) : (connClose s).conn = none := by
  unfold connClose
  split
  · assumption
  · rfl

theorem State.ok_of_none (h : s.conn = none) : s.Ok := by
  intro c hc
  rw [h] at hc
  cases hc

theorem exchange_ok {h : ℕ} {reuse : Bool} (a : Answers) (hpeer : s.peers h = some (u.host, u.port))
    (hreuse : reuse = true → u.https = true → s.tls = some (u.host, h))
    (hfresh : reuse = false → s.conn = none) : (exchange env s u h reuse a).1.Ok ∧
      ∀ c ∈ (exchange env s u h reuse a).2.1, c.Good u := by
  have htls : u.https = true →
      (if u.https ∧ reuse = false then some (u.host, h) else s.tls) = some (u.host, h) := by
    intro hu
    cases reuse with
    | false => simp [hu]
    | true => simpa using hreuse rfl hu
  have hgood : ∀ c ∈ some (⟨h, s.peers h, if u.https then (if u.https ∧ reuse = false then some (u.host, h)
      else s.tls) else none⟩ : Channel), c.Good u := by
    rintro c ⟨⟩
    exact ⟨hpeer, fun hu => by simpa [hu] using htls hu⟩
  fun_cases exchange env s u h reuse a
  case case1 => exact ⟨State.ok_of_none rfl, by simp⟩
  case case2 hhs => exact ⟨State.ok_of_none (hfresh hhs.2.1), by simp⟩
  case case3 => exact ⟨State.ok_of_none rfl, by simp⟩
  case case8 r _ =>
    refine ⟨?_, hgood⟩
    split
    · rintro c ⟨⟩
      exact ⟨hpeer, htls⟩
    · exact State.ok_of_none rfl
  all_goals exact ⟨State.ok_of_none rfl, hgood⟩

theorem one_ok (env : Env) (u : Url) (hs : s.Ok) (a : Answers) :
    (one env s u a).1.Ok ∧ ∀ c ∈ (one env s u a).2.1, c.Good u := by
  unfold one
  split
  next h hh =>
    obtain ⟨c, hc, hh⟩ := Option.bind_eq_some_iff.mp hh
    obtain ⟨⟨-, hhttps, hport, hhost, -⟩, ⟨⟩⟩ := Option.ite_none_right_eq_some.mp hh
    obtain ⟨hpeer, htls⟩ := hs c hc
    rw [hhost] at hpeer htls
    rw [hport] at hpeer
    exact exchange_ok a hpeer (fun _ hu => htls (hhttps.trans hu)) (by simp)
  · split
    · exact ⟨State.ok_of_none (connClose_conn s), by simp⟩
    · exact exchange_ok a (Function.update_self ..) (by simp) fun _ => connClose_conn s

theorem tries_ok (env : Env) (u : Url) (rq : Option Request) (hs : s.Ok) (a : Answers × Answers) :
    (tries env s u rq a).1.Ok ∧ (∀ c ∈ (tries env s u rq a).2.1, c.Good u) ∧
      (notGet rq = true → (tries env s u rq a).2.1.length ≤ 1) := by
  have h₁ := one_ok env u hs a.1
  have h₂ := one_ok env u h₁.1 a.2
  have hone : ∀ c : Option Channel, c.toList.length ≤ 1 := by
    intro c
    cases c <;> simp
  unfold tries
  generalize one env s u a.1 = r at h₁ h₂ ⊢
  obtain ⟨s', c, o⟩ := r
  have hc : ∀ x ∈ c.toList, x.Good u := fun x hx => h₁.2 x (Option.mem_toList.mp hx)
  cases o with
  | answered r => exact ⟨h₁.1, hc, fun _ => hone c⟩
  | failed stale =>
    dsimp only
    split
    · exact ⟨h₁.1, hc, fun _ => hone c⟩
    next hstale =>
      generalize one env s' u a.2 = r at h₂ ⊢
      obtain ⟨s'', c', o⟩ := r
      have hc' : ∀ x ∈ c.toList ++ c'.toList, x.Good u :=
        forall_mem_append.mpr ⟨hc, fun x hx => h₂.2 x (Option.mem_toList.mp hx)⟩
      have hget : notGet rq = true → (c.toList ++ c'.toList).length ≤ 1 :=
        fun h => absurd (.inr h) hstale
      cases o with
      | answered r => exact ⟨h₂.1, hc', hget⟩
      | failed _ => exact ⟨h₂.1, hc', hget⟩

structure LoopOk (first u : Url) (hop : ℕ) (r : State × List Url × List Sent) : Prop where
  ok : r.1.Ok
  https : r.2.1.Pairwise fun v v' => v.https = true → v'.https = true
  behind : ∀ v ∈ r.2.1, u.https = true → v.https = true
  place : ∀ e ∈ r.2.2, hop ≤ e.hop ∧ r.2.1[e.hop - hop]? = some e.url
  extra : ∀ e ∈ r.2.2, (e.request.bind Request.extra).isSome →
    e.url.host = first.host ∧ e.url.port = first.port
  once : ∀ k, (r.2.2.countP fun e => e.hop = k && notGet e.request) ≤ 1
  secure : ∀ e ∈ r.2.2, e.channel.Good e.url

def Local (first u : Url) (rq : Option Request) : Prop :=
  (rq.bind Request.extra).isSome → u.host = first.host ∧ u.port = first.port

theorem Local.redirected {next : Url} (h : Local first u base) (status : ℤ) :
    Local first next (base.bind (redirected u next status)) := by
  intro he
  cases base with
  | none => cases he
  | some r =>
    simp only [Option.bind_some, WebFetch.redirected] at he
    by_cases hsame : u.host = next.host ∧ u.port = next.port
    · rw [← hsame.1, ← hsame.2]
      refine h ?_
      grind
    · grind

section
variable {s' : State} {cs : List Channel} {o : Option Response} {a : Answers × Answers}

theorem LoopOk.last (hs : s.Ok) (hrq : Local first u rq) (ht : tries env s u rq a = (s', cs, o)) :
    LoopOk first u hop (s', [u], cs.map (⟨hop, u, rq, ·⟩)) := by
  obtain ⟨hok, hgood, hone⟩ := tries_ok env u rq hs a
  rw [ht] at hok hgood hone
  exact {
  ok := hok
  https := pairwise_singleton _ _
  behind := by simp
  place := by simp
  extra := by simpa [Local] using fun _ _ => hrq
  once k := by
    rw [countP_map]
    by_cases hget : notGet rq = true
    · exact countP_le_length.trans (hone hget)
    · simp [Function.comp_def, hget]
  secure := by simpa using hgood }

theorem LoopOk.cons {next : Url} {chain : List Url} {sent : List Sent}
    (hfirst : LoopOk first u hop (s, [u], cs.map (⟨hop, u, rq, ·⟩)))
    (hrest : LoopOk first next (hop + 1) (s', chain, sent))
    (hup : u.https = true → next.https = true) :
    LoopOk first u hop (s', u :: chain, cs.map (⟨hop, u, rq, ·⟩) ++ sent) where
  ok := hrest.ok
  https := pairwise_cons.mpr ⟨fun v hv hu => hrest.behind v hv (hup hu), hrest.https⟩
  behind := forall_mem_cons.mpr ⟨id, fun v hv hu => hrest.behind v hv (hup hu)⟩
  place := by
    refine forall_mem_append.mpr ⟨by simp, fun e he => ?_⟩
    obtain ⟨hle, hplace⟩ := hrest.place e he
    have hidx : e.hop - hop = e.hop - (hop + 1) + 1 := by omega
    rw [hidx]
    exact ⟨by omega, hplace⟩
  extra := forall_mem_append.mpr ⟨hfirst.extra, hrest.extra⟩
  once k := by
    rw [countP_append]
    by_cases hk : k = hop
    · have hzero : (sent.countP fun e => e.hop = k && notGet e.request) = 0 := by
        refine countP_eq_zero.mpr fun e he => ?_
        have := (hrest.place e he).1
        simp [show e.hop ≠ k by omega]
      rw [hzero]
      exact hfirst.once k
    · have hzero : ((cs.map (Sent.mk hop u rq)).countP
          fun e => e.hop = k && notGet e.request) = 0 := by
        simp [countP_map, Function.comp_def, Ne.symm hk]
      rw [hzero, Nat.zero_add]
      exact hrest.once k
  secure := forall_mem_append.mpr ⟨hfirst.secure, hrest.secure⟩

end

theorem fetchLoop_ok (answers : ℕ → Answers × Answers) (hs : s.Ok) (hrq : Local first u rq)
    (hbase : Local first u base) :
    LoopOk first u hop (fetchLoop env answers left hop s u rq base) := by
  fun_induction fetchLoop env answers left hop s u rq base
  case case2 hop s u rq base s' cs r ht left next _ hgo rq' rest ih =>
    have hfirst : LoopOk first u hop (s', [u], cs.map (⟨hop, u, rq, ·⟩)) := .last hs hrq ht
    have hnext : Local first next rq' := hbase.redirected r.status
    exact hfirst.cons (ih hfirst.ok hnext hnext) hgo.2
  all_goals exact .last hs hrq ‹_›

theorem LoopOk.kept {r : State × List Url × List Sent} (h : LoopOk first u 0 r) :
    Kept ⟨first, r.2.1, r.2.2⟩ where
  extra e he hx := by
    obtain ⟨hhost, hport⟩ := h.extra e he hx
    rw [← hhost, ← hport]
    exact (h.secure e he).1
  place e he := (h.place e he).2
  clear e he i hi v hv hsec := by
    obtain ⟨hlt, hurl⟩ := List.getElem?_eq_some_iff.mp (h.place e he).2
    obtain ⟨hlt', hv⟩ := List.getElem?_eq_some_iff.mp hv
    rcases hi.eq_or_lt with rfl | hi
    · rw [← hurl]
      subst hv
      exact hsec
    · rw [← hurl]
      subst hv
      exact pairwise_iff_getElem.mp h.https i e.hop hlt' hlt hi hsec
  once := h.once
  secure := h.secure

theorem wfFetchEx_kept (env : Env) (hs : s.Ok) (c : Call) :
    (wfFetchEx env s c).1.Ok ∧ Kept (wfFetchEx env s c).2 := by
  have hlocal : ∀ rq, Local c.url c.url rq := fun _ _ => ⟨rfl, rfl⟩
  unfold wfFetchEx
  split
  · exact ⟨hs, by simp, by simp, by simp, by simp, by simp⟩
  next rq _ =>
    have h : LoopOk c.url c.url 0 (fetchLoop env c.answers (min env.maxRedirects 5).toNat 0 s c.url
        rq c.request) := fetchLoop_ok c.answers hs (hlocal rq) (hlocal c.request)
    exact ⟨h.ok, h.kept⟩

def World.Ok (w : World) : Prop := w.state.Ok ∧ List.Forall Kept w.log

theorem World.Ok.step {w : World} (h : w.Ok) (env : Env) (op : Op) :
    (WebFetch.step env w op).Ok := by
  cases op with
  | fetch c =>
    obtain ⟨hok, hkept⟩ := wfFetchEx_kept env h.1 c
    exact ⟨hok, (forall_cons _ _ _).mpr ⟨hkept, h.2⟩⟩
  | drop => exact ⟨State.ok_of_none (connClose_conn _), h.2⟩

/-- Whatever the servers answer, every fetch of a run keeps its lines, its bodies and its secrets
where they belong. -/
theorem fetches_kept (env : Env) (ops : List Op) :
    List.Forall Kept (run (step env) World.init ops).log := by
  have h : (run (step env) World.init ops).Ok :=
    run_invariant_all (fun _ op h => h.step env op) ⟨State.ok_of_none rfl, trivial⟩
  exact h.2

end Mohhdy.WebFetch
