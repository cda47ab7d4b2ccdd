import Mohhdy.Devsync.Exchange

/-! Devices that exchange deltas converge: after a round between two of them both hold the latest of all
writes that one of them has received, unless a clock has become so large that texts are refused. -/
namespace Mohhdy.Devsync
set_option autoImplicit false

open Tables Runs LastWriter VersionVectors List

variable {cap n : ℕ} {w w' : World} {dest src : Device} {r : Replica} {K : List (List UInt8)}

def World.writes (w : World) : Set Entry := {e | ∃ i, e ∈ w.received i}

def World.top (w : World) (d : Device) : ℕ := (w.replica d).clock.toNat

structure Good (W : Set Entry) (top : Device → ℕ) (r : Replica) : Prop where
  wf : r.Wf
  sees : Sees Entry.key timeOf Entry.dev W r.find r.seen
  covers : Covers Entry.key timeOf Entry.dev W r.find r.seen
  below : ∀ d, r.seen d ≤ top d

def Carries (w : World) (p : Packet) : Prop :=
  ∃ r : Replica, ∃ old : Device → UInt32, p.text = fullText r.id (r.delta (some old)) ∧ Good w.writes w.top r ∧
    ∀ d, (old d).toNat ≤ (w.replica p.dest).seen d

structure Inv (K : List (List UInt8)) (w : World) : Prop where
  ids : ∀ i, (w.replica i).id = i
  ahead : ∀ i, (w.replica i).ahead
  writes : ∀ e ∈ w.writes, e.Stored ∧ e.key ∈ K ∧ timeOf e ≤ w.top e.dev
  named : ∀ e e', e ∈ w.writes → e' ∈ w.writes → stampOf e = stampOf e' → e = e'
  own : ∀ e ∈ w.writes, e ∈ w.received e.dev
  good : ∀ i, Good w.writes w.top (w.replica i)
  newest : ∀ i, ∀ e ∈ w.received i, (stampOf e : WithBot (ℕ ×ₗ Device)) ≤ rank stampOf ((w.replica i).find e.key)
  held : ∀ i k e, (w.replica i).find k = some e → e ∈ w.received i
  late : ∀ i, ∀ e ∈ w.received i, numLimit ≤ timeOf e → e.dev = i
  packets : ∀ p ∈ w.sent, Carries w p

theorem Inv.init (K : List (List UInt8)) : Inv K World.init where
  ids _ := rfl
  ahead _ _ := Nat.zero_le _
  writes e he := by
    obtain ⟨i, hi⟩ := he
    cases hi
  named e e' he := by
    obtain ⟨i, hi⟩ := he
    cases hi
  own e he := by
    obtain ⟨i, hi⟩ := he
    cases hi
  good i := by
    refine ⟨Wf.init i, ?_, ?_, fun _ => Nat.zero_le _⟩
    · intro k e he
      cases he
    · intro e he
      obtain ⟨j, hj⟩ := he
      cases hj
  newest i e he := by cases he
  held i k e he := by cases he
  late i e he := by cases he
  packets p hp := by cases hp

/-! ## Deltas -/

theorem mem_entries_iff (h : r.Wf) (e : Entry) : e ∈ r.entries ↔ r.find e.key = some e :=
  ⟨fun he => lookup_eq_of_mem h.distinct he rfl, lookup_mem⟩

theorem isDelta_delta (h : r.Wf) (old : Device → UInt32) :
    IsDelta Entry.key timeOf Entry.dev r.find (fun d => (old d).toNat) (r.delta (some old)) := by
  intro e
  rw [← mem_entries_iff h, Replica.delta]
  simp [UInt32.lt_iff_toNat_lt, timeOf]

theorem keysIn_of_good (h : Inv K w) (hr : Good w.writes w.top r) : r.keysIn K := by
  intro k e he
  obtain ⟨hW, hk, -⟩ := hr.sees k e he
  rw [← hk]
  exact (h.writes e hW).2.1

/-! ## A new state of one device -/

section Put

variable {i : Device} {more : List Entry}

theorem forall_put {P : Device → Replica → List Entry → Prop} (hi : P i r (w.received i ++ more))
    (hother : ∀ j, P j (w.replica j) (w.received j)) (j : Device) :
    P j ((w.put i r more).replica j) ((w.put i r more).received j) := by
  by_cases hj : j = i
  · subst hj
    simpa [World.put] using hi
  · simpa [World.put, Function.update_of_ne hj] using hother j

theorem mem_put_writes (e : Entry) : e ∈ (w.put i r more).writes ↔ e ∈ w.writes ∨ e ∈ more := by
  constructor
  · rintro ⟨j, hj⟩
    exact forall_put (P := fun _ _ es => e ∈ es → e ∈ w.writes ∨ e ∈ more)
      (fun he => (mem_append.mp he).imp_left fun he => ⟨i, he⟩) (fun j he => .inl ⟨j, he⟩) j hj
  · rintro (⟨j, hj⟩ | hmore)
    · exact ⟨j, forall_put (P := fun j _ es => e ∈ w.received j → e ∈ es) (mem_append_left _) (fun _ he => he) j hj⟩
    · exact ⟨i, by simp [World.put, hmore]⟩

theorem top_put (hclock : (w.replica i).clock.toNat ≤ r.clock.toNat) (d : Device) :
    w.top d ≤ (w.put i r more).top d := by
  by_cases hd : d = i
  · subst hd
    simpa [World.top, World.put] using hclock
  · simp [World.top, World.put, Function.update_of_ne hd]

theorem Good.mono {W W' : Set Entry} {top top' : Device → ℕ} (h : Good W top r) (hW : W ⊆ W')
    (hnew : ∀ e ∈ W', e ∈ W ∨ top e.dev < timeOf e) (htop : ∀ d, top d ≤ top' d) : Good W' top' r where
  wf := h.wf
  sees k e he := by
    obtain ⟨hmem, hk, ht⟩ := h.sees k e he
    exact ⟨hW hmem, hk, ht⟩
  covers e he ht := by
    rcases hnew e he with hold | hlate
    · exact h.covers e hold ht
    · have := h.below e.dev
      omega
  below d := (h.below d).trans (htop d)

theorem Inv.put (h : Inv K w)
    (hm : Merges Entry.key timeOf Entry.dev (w.replica i).find (w.replica i).seen more r.find r.seen)
    (hid : r.id = i) (ha : r.ahead) (hclock : (w.replica i).clock.toNat ≤ r.clock.toNat)
    (hmore : ∀ e ∈ more, (e ∈ w.writes ∧ timeOf e < numLimit) ∨
      (more = [e] ∧ e.Stored ∧ e.key ∈ K ∧ e.dev = i ∧ w.top i < timeOf e))
    (hgood : Good (w.put i r more).writes (w.put i r more).top r) : Inv K (w.put i r more) := by
  have htop : ∀ d, w.top d ≤ (w.put i r more).top d := top_put hclock
  have hsub : w.writes ⊆ (w.put i r more).writes := fun e he => (mem_put_writes e).mpr (.inl he)
  have hmem : ∀ e ∈ (w.put i r more).writes, e ∈ w.writes ∨
      (e ∈ more ∧ more = [e] ∧ e.Stored ∧ e.key ∈ K ∧ e.dev = i ∧ w.top i < timeOf e) := by
    intro e he
    rcases (mem_put_writes e).mp he with hold | he
    · exact .inl hold
    · exact (hmore e he).imp And.left fun hn => ⟨he, hn⟩
  have hnew : ∀ e ∈ (w.put i r more).writes, e ∈ w.writes ∨ w.top e.dev < timeOf e := by
    intro e he
    refine (hmem e he).imp_right ?_
    rintro ⟨-, -, -, -, rfl, hlate⟩
    exact hlate
  refine ⟨?_, ?_, ?_, ?_, ?_, ?_, ?_, ?_, ?_, ?_⟩
  · exact forall_put (P := fun j r _ => r.id = j) hid h.ids
  · exact forall_put (P := fun _ r _ => r.ahead) ha h.ahead
  · intro e he
    rcases hmem e he with hold | ⟨hin, -, hst, hk, hdev, -⟩
    · obtain ⟨hst, hk, ht⟩ := h.writes e hold
      exact ⟨hst, hk, ht.trans (htop _)⟩
    · refine ⟨hst, hk, (hm.follows e hin).trans ?_⟩
      simpa [World.top, World.put, hdev] using ha e.dev
  · -- a new write has a stamp of its own
    have hfresh : ∀ e e', e ∈ w.writes → e'.dev = i → w.top i < timeOf e' → stampOf e ≠ stampOf e' := by
      intro e e' he hdev hlate heq
      have hpair : timeOf e = timeOf e' ∧ e.dev = e'.dev := by
        simpa [stamp] using heq
      have := (h.writes e he).2.2
      rw [hpair.1, hpair.2, hdev] at this
      omega
    intro e e' he he' heq
    rcases hmem e he with hold | ⟨hin, hone, -, -, hdev, hlate⟩
    · rcases hmem e' he' with hold' | ⟨-, -, -, -, hdev', hlate'⟩
      · exact h.named e e' hold hold' heq
      · exact absurd heq (hfresh e e' hold hdev' hlate')
    · rcases hmem e' he' with hold' | ⟨hin', -⟩
      · exact absurd heq.symm (hfresh e' e hold' hdev hlate)
      · rw [hone] at hin'
        exact (mem_singleton.mp hin').symm
  · intro e he
    have hkeeps : ∀ j, w.received j ⊆ (w.put i r more).received j :=
      forall_put (P := fun j _ es => w.received j ⊆ es) (subset_append_left _ _) fun j => Subset.refl _
    rcases hmem e he with hold | ⟨hin, -, -, -, hdev, -⟩
    · exact hkeeps _ (h.own e hold)
    · rw [hdev]
      simp [World.put, hin]
  · exact forall_put (P := fun _ x _ => Good (w.put i r more).writes (w.put i r more).top x) hgood
      fun j => (h.good j).mono hsub hnew htop
  · exact forall_put (P := fun _ r es => ∀ e ∈ es,
      (stampOf e : WithBot (ℕ ×ₗ Device)) ≤ rank stampOf (r.find e.key))
      (forall_mem_append.mpr ⟨fun e he => (h.newest i e he).trans (hm.grows _), hm.takes⟩) h.newest
  · refine forall_put (P := fun _ r es => ∀ k e, r.find k = some e → e ∈ es) (fun k e he => ?_) h.held
    rcases hm.choice k e he with he | ⟨he, -⟩
    · exact mem_append_left _ (h.held i k e he)
    · exact mem_append_right _ he
  · refine forall_put (P := fun j _ es => ∀ e ∈ es, numLimit ≤ timeOf e → e.dev = j)
      (forall_mem_append.mpr ⟨h.late i, fun e he hlate => ?_⟩) h.late
    rcases hmore e he with ⟨-, hearly⟩ | ⟨-, -, -, hdev, -⟩
    · exact absurd hearly (not_lt.mpr hlate)
    · exact hdev
  · intro p hp
    obtain ⟨r0, old, htext, hr0, hold⟩ := h.packets p hp
    refine ⟨r0, old, htext, hr0.mono hsub hnew htop, fun d => ?_⟩
    by_cases hj : p.dest = i
    · simp only [World.put, hj, Function.update_self]
      exact (hj ▸ hold d).trans (hm.sees d)
    · simp only [World.put, Function.update_of_ne hj]
      exact hold d

end Put

/-! ## Importing a text -/

variable {p : Packet}

theorem take_cases {old : Device → UInt32}
    (htext : p.text = fullText r.id (r.delta (some old))) (hr : Good w.writes w.top r) :
    ((∀ e ∈ r.delta (some old), timeOf e < numLimit) ∧
      dsImport (w.replica p.dest) p.text = applyBatch (w.replica p.dest) (r.delta (some old)) 0 ∧
      (dsParse (p.text.takeWhile (· ≠ 0))).toOption.getD [] = r.delta (some old)) ∨
    (¬(∀ e ∈ r.delta (some old), timeOf e < numLimit) ∧ (dsImport (w.replica p.dest) p.text).1 = w.replica p.dest ∧
      (dsParse (p.text.takeWhile (· ≠ 0))).toOption.getD [] = []) := by
  have hstored : ∀ e ∈ r.delta (some old), e.Stored := fun e he => hr.wf.stored e (mem_of_mem_filter he)
  have hlen : (r.delta (some old)).length ≤ dsKeys := (length_filter_le _ _).trans hr.wf.bounded
  have hparse := dsParse_fullText r.id hstored hlen
  rw [dsImport, htext, fullText_nonzero r.id hstored, hparse]
  split_ifs with hclocks
  · exact .inl ⟨hclocks, rfl, rfl⟩
  · exact .inr ⟨hclocks, rfl, rfl⟩

theorem put_self (w : World) (i : Device) : w.put i (w.replica i) [] = w := by
  simp [World.put]

section
variable (hK : K.length ≤ dsKeys) (h : Inv K w)
include hK h

theorem take_merges (i : Device) (old : Device → UInt32) (hr : Good w.writes w.top r) :
    Merges Entry.key timeOf Entry.dev (w.replica i).find (w.replica i).seen (r.delta (some old))
        (applyBatch (w.replica i) (r.delta (some old)) 0).1.find
        (applyBatch (w.replica i) (r.delta (some old)) 0).1.seen ∧
      (applyBatch (w.replica i) (r.delta (some old)) 0).1.ahead ∧
      (w.replica i).clock.toNat ≤ (applyBatch (w.replica i) (r.delta (some old)) 0).1.clock.toNat ∧
      (applyBatch (w.replica i) (r.delta (some old)) 0).1.id = (w.replica i).id := by
  refine applyBatch_merges hK (fun e he => ?_) (h.good i).wf (keysIn_of_good h (h.good i)) (h.ahead i) 0
  have hW := (hr.sees e.key e ((isDelta_delta hr.wf old e).mp he).1).1
  exact ⟨(h.writes e hW).1, (h.writes e hW).2.1⟩

theorem Inv.take (hp : Carries w p) : Inv K (w.take p) := by
  obtain ⟨r, old, htext, hr, hold⟩ := hp
  rcases take_cases htext hr with ⟨hall, himport, hbatch⟩ | ⟨-, himport, hbatch⟩
  · have hD := isDelta_delta hr.wf old
    have hsub : ∀ e ∈ r.delta (some old), e ∈ w.writes := fun e he => (hr.sees e.key e ((hD e).mp he).1).1
    obtain ⟨hm, ha, hclock, hid⟩ := take_merges hK h p.dest old hr
    have hsame : ∀ e ∈ (w.put p.dest (applyBatch (w.replica p.dest) (r.delta (some old)) 0).1
        (r.delta (some old))).writes, e ∈ w.writes := fun e he => ((mem_put_writes e).mp he).elim id (hsub e)
    rw [World.take, himport, hbatch]
    refine h.put hm (hid.trans (h.ids _)) ha hclock (fun e he => .inl ⟨hsub e he, hall e he⟩) ?_
    have hgood : Good w.writes w.top (w.replica p.dest) := h.good _
    refine ⟨hgood.wf.batch _ _, ?_, ?_, ?_⟩
    · intro k e he
      obtain ⟨hW, hk, ht⟩ := hr.sees.merge hgood.sees hD hm k e he
      exact ⟨(mem_put_writes e).mpr (.inl hW), hk, ht⟩
    · intro e he ht
      exact hr.covers.merge hr.sees hgood.covers hD hold hm e (hsame e he) ht
    · intro d
      refine le_trans ?_ (top_put hclock d)
      rcases hm.passes d with heq | ⟨e, he, rfl, heq⟩
      · rw [heq]
        exact hgood.below d
      · rw [heq]
        exact (h.writes e (hsub e he)).2.2
  · rw [World.take, himport, hbatch, put_self]
    exact h

/-! ## Writing -/

/-- A write fails and changes nothing, or goes in with a clock above all that the device has seen. -/
theorem localWrite_cases (i : Device) (key val : List UInt8) (dead : Bool)
    (hkey : dead = false → key ∈ K) :
    localWrite (w.replica i) key val dead = (w.replica i, false) ∨
    (((w.replica i).stamped key val dead).Stored ∧ key ∈ K ∧
      w.top i < timeOf ((w.replica i).stamped key val dead) ∧
      localWrite (w.replica i) key val dead =
        ((dsApply (w.replica i) ((w.replica i).stamped key val dead)).1, true) ∧
      (dsApply (w.replica i) ((w.replica i).stamped key val dead)).2 ≠ .invalid) := by
  have hgood := h.good i
  generalize hr : w.replica i = r at hgood ⊢
  unfold localWrite
  split_ifs with htok hval hfind
  · exact .inl rfl
  · exact .inl rfl
  · exact .inl rfl
  have hin : key ∈ K := by
    cases dead with
    | false => exact hkey rfl
    | true =>
      obtain ⟨e, he⟩ := Option.ne_none_iff_exists'.mp fun hnone => hfind ⟨rfl, hnone⟩
      exact keysIn_of_good h hgood key e he
  by_cases hclock : r.clock + 1 = 0
  · -- the clock is at its end
    left
    have hinvalid : ¬(r.stamped key val dead).valid := fun hv => hv.1 hclock
    simp [dsApply, hinvalid]
  · right
    have hnext : (r.clock + 1).toNat = r.clock.toNat + 1 := by
      have hlt := r.clock.toNat_lt
      have hne : (r.clock + 1).toNat ≠ 0 := fun h0 => hclock (UInt32.toNat_inj.mp h0)
      rw [UInt32.toNat_add] at hne ⊢
      have hone : (1 : UInt32).toNat = 1 := rfl
      omega
    have hstored : (r.stamped key val dead).Stored := by
      refine ⟨⟨hclock, by simpa [Replica.stamped] using htok, fun hd => ?_⟩, fun hd => ?_⟩
      · have hd' : dead = false := hd
        subst hd'
        simpa [Replica.stamped] using hval
      · have hd' : dead = true := hd
        subst hd'
        rfl
    have hroom := dsApply_room hK hgood.wf (keysIn_of_good h hgood) hstored.valid hin
    have hlate : r.clock.toNat < timeOf (r.stamped key val dead) := by
      change r.clock.toNat < (r.clock + 1).toNat
      omega
    have happlied : (dsApply r (r.stamped key val dead)).2 = .applied := by
      rcases dsApply_cases r (r.stamped key val dead) with ⟨-, heq⟩ | ⟨-, -, -, heq⟩ | ⟨-, -, -, heq⟩ |
        ⟨-, -, -, -, heq⟩ | ⟨-, cur, hf, hno, -⟩
      · exact absurd (by rw [heq]) hroom
      · exact absurd (by rw [heq]) hroom
      · rw [heq]
      · rw [heq]
      · exfalso
        apply hno
        have hseen := (hgood.sees _ cur hf).2.2
        have hahead := h.ahead i cur.dev
        rw [hr] at hahead
        refine .inl (UInt32.lt_iff_toNat_lt.mpr ?_)
        change timeOf cur < timeOf (r.stamped key val dead)
        omega
    refine ⟨hstored, hin, ?_, ?_, hroom⟩
    · rw [World.top, hr]
      exact hlate
    · rw [happlied]
      rfl

theorem Inv.write (i : Device) (key val : List UInt8) (dead : Bool) (hkey : dead = false → key ∈ K) :
    Inv K (w.write i key val dead) := by
  rcases localWrite_cases hK h i key val dead hkey with hno | ⟨hst, hin, hlate, heq, hroom⟩
  · rw [World.write, hno]
    simpa [put_self] using h
  rw [World.write, heq, if_pos rfl]
  generalize he : (w.replica i).stamped key val dead = e at hst hlate hroom ⊢
  have hdev : e.dev = i := by
    rw [← he]
    exact h.ids i
  have hek : e.key = key := by
    rw [← he]
    rfl
  have hm := dsApply_merges hst hroom
  obtain ⟨ha, hclock, hid⟩ := dsApply_ahead (h.ahead i) e
  have hgood := h.good i
  refine h.put hm (hid.trans (h.ids i)) ha hclock (fun x hx => .inr ?_) ⟨hgood.wf.apply e, ?_, ?_, ?_⟩
  · rw [mem_singleton.mp hx, hek]
    exact ⟨rfl, hst, hin, hdev, hlate⟩
  · intro k x hx
    rcases hm.choice k x hx with hold | ⟨hnew, hk⟩
    · obtain ⟨hW, hk, ht⟩ := hgood.sees k x hold
      exact ⟨(mem_put_writes x).mpr (.inl hW), hk, ht.trans (hm.sees _)⟩
    · exact ⟨(mem_put_writes x).mpr (.inr hnew), hk, hm.follows x hnew⟩
  · intro x hx ht
    rcases (mem_put_writes x).mp hx with hold | hnew
    · by_cases hd : x.dev = i
      · -- the device has all its own writes
        have hown := h.own x hold
        rw [hd] at hown
        exact (h.newest i x hown).trans (hm.grows _)
      · rcases hm.passes x.dev with hsame | ⟨y, hy, hyd, -⟩
        · exact (hgood.covers x hold (hsame ▸ ht)).trans (hm.grows _)
        · rw [mem_singleton.mp hy, hdev] at hyd
          exact absurd hyd.symm hd
    · exact hm.takes x hnew
  · intro d
    by_cases hd : d = i
    · subst hd
      simpa [World.top, World.put] using ha d
    · rcases hm.passes d with hsame | ⟨y, hy, hyd, -⟩
      · rw [hsame]
        exact (hgood.below d).trans (top_put hclock d)
      · rw [mem_singleton.mp hy, hdev] at hyd
        exact absurd hyd.symm hd

end

/-! ## Runs -/

def WorldOp.keysIn (K : List (List UInt8)) : WorldOp → Prop
  | .set _ key _ => key ∈ K
  | _ => True

theorem outgoing_carries (h : Inv K w) (hp : w.outgoing src dest cap = some p) :
    p.dest = dest ∧ p.text = fullText (w.replica src).id ((w.replica src).delta (some (w.replica dest).vv)) ∧
      Carries w p := by
  obtain ⟨text, htext, rfl⟩ := Option.map_eq_some_iff.mp hp
  exact ⟨rfl, dsExport_text htext, w.replica src, (w.replica dest).vv, dsExport_text htext, h.good src,
    fun _ => le_rfl⟩

theorem Inv.step (hK : K.length ≤ dsKeys) (w : World) (op : WorldOp) (h : Inv K w)
    (hop : op.keysIn K) : Inv K (w.step op) := by
  cases op with
  | set i key val => exact h.write hK i key val false fun _ => hop
  | del i key => exact h.write hK i key [] true fun hd => by cases hd
  | send src dest cap =>
    refine { h with packets := forall_mem_append.mpr ⟨h.packets, fun p hp => ?_⟩ }
    exact (outgoing_carries h (Option.mem_toList.mp hp)).2.2
  | deliver n =>
    simp only [World.step]
    cases hp : w.sent[n]? with
    | none => exact h
    | some p => exact h.take hK (h.packets p (mem_of_getElem? hp))

theorem Inv.run (hK : K.length ≤ dsKeys) {ops : List WorldOp}
    (hops : ∀ op ∈ ops, op.keysIn K) : Inv K (run World.step World.init ops) :=
  List.foldlRecOn _ _ (Inv.init K) fun w hw op hop => Inv.step hK w op hw (hops op hop)

/-! ## A round -/

theorem exchange_cases (h : Inv K w) (hx : w.exchange src dest cap = some w') :
    ((∀ e ∈ (w.replica src).delta (some (w.replica dest).vv), timeOf e < numLimit) ∧
      w' = w.put dest (applyBatch (w.replica dest) ((w.replica src).delta (some (w.replica dest).vv)) 0).1
        ((w.replica src).delta (some (w.replica dest).vv))) ∨
    (¬(∀ e ∈ (w.replica src).delta (some (w.replica dest).vv), timeOf e < numLimit) ∧ w' = w) := by
  obtain ⟨p, hp, rfl⟩ := Option.map_eq_some_iff.mp hx
  obtain ⟨rfl, htext, -⟩ := outgoing_carries h hp
  rcases take_cases htext (h.good src) with ⟨hall, himport, hbatch⟩ | ⟨hall, himport, hbatch⟩
  · exact .inl ⟨hall, by rw [World.take, himport, hbatch]⟩
  · exact .inr ⟨hall, by rw [World.take, himport, hbatch, put_self]⟩

theorem Inv.exchange (hK : K.length ≤ dsKeys) (h : Inv K w) (hx : w.exchange src dest cap = some w') : Inv K w' := by
  obtain ⟨p, hp, rfl⟩ := Option.map_eq_some_iff.mp hx
  exact h.take hK (outgoing_carries h hp).2.2

def Replica.readable (r : Replica) : Prop := ∀ e ∈ r.entries, timeOf e < numLimit

instance (r : Replica) : Decidable r.readable := inferInstanceAs (Decidable (∀ e ∈ _, _))

theorem exchange_merges (hK : K.length ≤ dsKeys) (h : Inv K w) (hsrc : (w.replica src).readable)
    (hx : w.exchange src dest cap = some w') :
    Merges Entry.key timeOf Entry.dev (w.replica dest).find (w.replica dest).seen
      ((w.replica src).delta (some (w.replica dest).vv)) (w'.replica dest).find (w'.replica dest).seen ∧
    ∀ i, i ≠ dest → w'.replica i = w.replica i := by
  have hall : ∀ e ∈ (w.replica src).delta (some (w.replica dest).vv), timeOf e < numLimit :=
    fun e he => hsrc e (mem_of_mem_filter he)
  rcases exchange_cases h hx with ⟨-, rfl⟩ | ⟨hno, -⟩
  · refine ⟨?_, fun i hi => Function.update_of_ne hi _ _⟩
    have hm := (take_merges hK h dest (w.replica dest).vv (h.good src)).1
    simpa [World.put] using hm
  · exact absurd hall hno

theorem exchange_readable (hK : K.length ≤ dsKeys) (h : Inv K w) (hsrc : (w.replica src).readable)
    (hdest : (w.replica dest).readable) (hx : w.exchange src dest cap = some w') : (w'.replica dest).readable := by
  have hm := (exchange_merges hK h hsrc hx).1
  intro e he
  rcases hm.choice e.key e ((mem_entries_iff ((h.exchange hK hx).good dest).wf e).mp he) with hold | ⟨hnew, -⟩
  · exact hdest e ((mem_entries_iff (h.good dest).wf e).mpr hold)
  · exact hsrc e (mem_of_mem_filter hnew)

theorem dsDigest_eq {r r' : Replica} (h : r.Wf) (h' : r'.Wf) (heq : ∀ k, r.find k = r'.find k) :
    dsDigest r = dsDigest r' := by
  have hmem : ∀ e, e ∈ r.entries ↔ e ∈ r'.entries := by
    intro e
    rw [mem_entries_iff h, mem_entries_iff h', heq]
  have hperm : r.entries.Perm r'.entries :=
    (perm_ext_iff_of_nodup (List.Nodup.of_map _ h.distinct) (List.Nodup.of_map _ h'.distinct)).mpr hmem
  have hcomm : RightCommutative fun (acc : UInt32) (e : Entry) => acc + e.digest :=
    ⟨fun a x y => by rw [UInt32.add_assoc, UInt32.add_comm x.digest, ← UInt32.add_assoc]⟩
  exact hperm.foldl_eq 0

theorem exchange_received (hx : w.exchange src dest cap = some w') (i : Device) : w.received i ⊆ w'.received i := by
  obtain ⟨p, -, rfl⟩ := Option.map_eq_some_iff.mp hx
  exact forall_put (P := fun j _ es => w.received j ⊆ es) (subset_append_left _ _) (fun _ => Subset.refl _) i

theorem Inv.newest_found (h : Inv K w) {i : Device} {e : Entry} (he : e ∈ w.received i) :
    ∃ m, (w.replica i).find e.key = some m ∧ stampOf e ≤ stampOf m := by
  have hrank := h.newest i e he
  cases hm : (w.replica i).find e.key with
  | none =>
    rw [hm] at hrank
    exact absurd hrank (WithBot.not_coe_le_bot _)
  | some m =>
    rw [hm] at hrank
    exact ⟨m, rfl, WithBot.coe_le_coe.mp hrank⟩

theorem readable_of_same (h : Inv K w) (h' : Inv K w') {a b : Device} (hab : a ≠ b)
    (hkept : w.received a ⊆ w'.received a) (hsame : ∀ k, (w'.replica a).find k = (w'.replica b).find k) :
    (w.replica a).readable := by
  intro e he
  by_contra hlate
  have hin := hkept (h.held a e.key e ((mem_entries_iff (h.good a).wf e).mp he))
  obtain ⟨m, hm, hle⟩ := h'.newest_found hin
  have htime : numLimit ≤ timeOf m := by
    rcases Prod.Lex.toLex_le_toLex.mp hle with hlt | ⟨heq, -⟩ <;> omega
  have ha := h'.late a m (h'.held a _ m hm) htime
  have hb := h'.late b m (h'.held b _ m (hsame _ ▸ hm)) htime
  exact hab (ha.symm.trans hb)

theorem round_agree (hK : K.length ≤ dsKeys) (h : Inv K w) {a b : Device} (hab : a ≠ b)
    (ha : (w.replica a).readable) (hb : (w.replica b).readable) {capA capB : ℕ} {w₁ : World}
    (hx₁ : w.exchange a b capA = some w₁) (hx₂ : w₁.exchange b a capB = some w') (k : List UInt8) :
    (w'.replica a).find k = (w'.replica b).find k := by
  have h₁ := h.exchange hK hx₁
  have h₂ := h₁.exchange hK hx₂
  obtain ⟨hmB, hrest₁⟩ := exchange_merges hK h ha hx₁
  obtain ⟨hmA, hrest₂⟩ := exchange_merges hK h₁ (exchange_readable hK h ha hb hx₁) hx₂
  rw [hrest₁ a hab] at hmA
  have hDA := isDelta_delta (h.good a).wf (w.replica b).vv
  have hDB := isDelta_delta (h₁.good b).wf (w.replica a).vv
  have hsB := (h.good a).sees.merge (h.good b).sees hDA hmB
  have hrank := agree (h.good a).covers (h.good a).sees (h.good b).covers hsB hDA hDB (fun _ => le_rfl)
    (fun _ => le_rfl) hmB hmA k
  rw [← hrest₂ b hab.symm] at hrank
  exact eq_of_rank_eq stampOf h₂.named (fun e he => ((h₂.good a).sees k e he).1)
    (fun e he => ((h₂.good b).sees k e he).1) hrank

/-- After a round of exchanges between two devices they hold the same map exactly if every clock is below the
limit of the reader, and then with the greatest of all writes that one of them has received, for every key. -/
theorem replicas_converge (K : List (List UInt8)) (hK : K.length ≤ dsKeys) (ops : List WorldOp)
    (hops : ∀ op ∈ ops, op.keysIn K) (a b : Device) (hab : a ≠ b) (capA capB : ℕ) (w' : World)
    (hround : (run World.step World.init ops).round a b capA capB = some w') :
    ((∀ k, (w'.replica a).find k = (w'.replica b).find k) ↔
      ((run World.step World.init ops).replica a).readable ∧ ((run World.step World.init ops).replica b).readable) ∧
    (∀ k e, (w'.replica a).find k = some e → e.key = k ∧ (e ∈ w'.received a ∨ e ∈ w'.received b)) ∧
    ((∀ k, (w'.replica a).find k = (w'.replica b).find k) → dsDigest (w'.replica a) = dsDigest (w'.replica b) ∧
      ∀ e, e ∈ w'.received a ∨ e ∈ w'.received b → ∃ m, (w'.replica a).find e.key = some m ∧ ¬wins e m) := by
  have h := Inv.run hK hops
  generalize Runs.run World.step World.init ops = w at h hround
  obtain ⟨w₁, hx₁, hx₂⟩ := Option.bind_eq_some_iff.mp hround
  have h₁ := h.exchange hK hx₁
  have h₂ := h₁.exchange hK hx₂
  have hkept : ∀ i, w.received i ⊆ w'.received i := fun i =>
    Subset.trans (exchange_received hx₁ i) (exchange_received hx₂ i)
  refine ⟨⟨fun hsame => ⟨readable_of_same h h₂ hab (hkept a) hsame, ?_⟩, ?_⟩, ?_, ?_⟩
  · exact readable_of_same h h₂ hab.symm (hkept b) fun k => (hsame k).symm
  · rintro ⟨ha, hb⟩
    exact round_agree hK h hab ha hb hx₁ hx₂
  · intro k e he
    exact ⟨((h₂.good a).sees k e he).2.1, .inl (h₂.held a k e he)⟩
  · intro hsame
    refine ⟨dsDigest_eq (h₂.good a).wf (h₂.good b).wf hsame, fun e he => ?_⟩
    obtain ⟨m, hm, hle⟩ : ∃ m, (w'.replica a).find e.key = some m ∧ stampOf e ≤ stampOf m := by
      rcases he with he | he
      · exact h₂.newest_found he
      · rw [hsame]
        exact h₂.newest_found he
    exact ⟨m, hm, fun hwin => absurd ((wins_iff e m).mp hwin) (not_lt.mpr hle)⟩

def shortRun : List WorldOp := [.set deviceA [97] [49], .send deviceA deviceB 64, .deliver 0, .del deviceB [97]]

theorem replicas_converge_del : let w := run World.step World.init shortRun
    ∃ w', w.round deviceA deviceB 64 64 = some w' ∧
      ∀ k, (w'.replica deviceA).find k = (w'.replica deviceB).find k := by
  have hsome : ((run World.step World.init shortRun).round deviceA deviceB 64 64).isSome := by decide +kernel
  obtain ⟨w', hw'⟩ := Option.isSome_iff_exists.mp hsome
  have hops : ∀ op ∈ shortRun, op.keysIn [[97]] := by
    simp [shortRun, WorldOp.keysIn]
  exact ⟨w', hw', (replicas_converge [[97]] (by decide) shortRun hops deviceA deviceB (by decide) 64 64 w' hw').1.mpr
    (by decide +kernel)⟩

/-- Replicas with the same version vector hold the same map, whatever messages brought them there. -/
theorem same_vector_agree (hK : K.length ≤ dsKeys) {ops : List WorldOp} (hops : ∀ op ∈ ops, op.keysIn K)
    (a b : Device) : let w := run World.step World.init ops
    (w.replica a).vv = (w.replica b).vv → ∀ k, (w.replica a).find k = (w.replica b).find k := by
  intro w hvv k
  have h : Inv K w := Inv.run hK hops
  have hle : ∀ i j, (w.replica i).vv = (w.replica j).vv →
      rank stampOf ((w.replica i).find k) ≤ rank stampOf ((w.replica j).find k) := by
    intro i j hij
    cases hk : (w.replica i).find k with
    | none => exact bot_le
    | some e =>
      obtain ⟨hW, rfl, ht⟩ := (h.good i).sees k e hk
      rw [Replica.seen, hij] at ht
      exact (h.good j).covers e hW ht
  exact eq_of_rank_eq stampOf h.named (fun e he => ((h.good a).sees k e he).1)
    (fun e he => ((h.good b).sees k e he).1) (le_antisymm (hle a b hvv) (hle b a hvv.symm))

theorem same_vector_agree_sent : let w := run World.step World.init (shortRun.take 3)
    ∀ k, (w.replica deviceA).find k = (w.replica deviceB).find k :=
  same_vector_agree (K := [[97]]) (by decide) (by simp [shortRun, WorldOp.keysIn]) _ _ (by decide +kernel)

/-! ## A clock too large -/

def longRun (n : ℕ) : List WorldOp := List.replicate n (.set deviceA [97] [49])

def wornEntry (c : UInt32) : Entry := ⟨[97], [49], c, deviceA, false⟩

def wornReplica (c : UInt32) : Replica := ⟨deviceA, c, Function.update (fun _ => 0) deviceA c, [wornEntry c]⟩

theorem dsSet_worn {c : UInt32} (hc : c < c + 1) : (dsSet (wornReplica c) [97] [49]).1 = wornReplica (c + 1) := by
  have hkey : tokenOk [97] dsKeyLen = true := by decide
  have hval : tokenOk [49] dsValLen = true := by decide
  have hvalid : (wornEntry (c + 1)).valid := by
    refine ⟨fun h0 => ?_, hkey, fun _ => hval⟩
    have h0' : c + 1 = 0 := h0
    rw [h0'] at hc
    exact absurd hc UInt32.not_lt_zero
  have hwins : wins (wornEntry (c + 1)) (wornEntry c) := .inl hc
  have hstamp : (wornReplica c).stamped [97] [49] false = wornEntry (c + 1) := rfl
  have hfind : (wornReplica c).find (wornEntry (c + 1)).key = some (wornEntry c) := rfl
  have hadvance : ((wornReplica c).advance (wornEntry (c + 1))).setEntries [wornEntry (c + 1)] =
      wornReplica (c + 1) := by
    simp [Replica.advance, Replica.setEntries, wornReplica, wornEntry, hc]
  rw [dsSet, localWrite, if_neg (by simp [hkey]), if_neg (by simp [hval]), if_neg (by simp), hstamp, dsApply,
    if_neg (not_not.mpr hvalid), hfind]
  simp only [hwins, if_true]
  exact hadvance

theorem longRun_replica (hn : n + 1 < 2 ^ 32) :
    (run World.step World.init (longRun (n + 1))).replica deviceA = wornReplica (UInt32.ofNat (n + 1)) ∧
    (run World.step World.init (longRun (n + 1))).replica deviceB = dsInit deviceB := by
  induction n with
  | zero => exact ⟨rfl, rfl⟩
  | succ n ih =>
    obtain ⟨ih0, ih1⟩ := ih (by omega)
    have hsplit : longRun (n + 1 + 1) = longRun (n + 1) ++ [.set deviceA [97] [49]] := replicate_succ'
    have hrun : run World.step World.init (longRun (n + 1 + 1)) =
        (run World.step World.init (longRun (n + 1))).step (.set deviceA [97] [49]) := by
      rw [hsplit, run_append]
      rfl
    have hnext : UInt32.ofNat (n + 1 + 1) = UInt32.ofNat (n + 1) + 1 := by simp
    have hlt : UInt32.ofNat (n + 1) < UInt32.ofNat (n + 1) + 1 := by
      rw [← hnext, UInt32.lt_iff_toNat_lt, UInt32.toNat_ofNat', UInt32.toNat_ofNat', Nat.mod_eq_of_lt hn,
        Nat.mod_eq_of_lt (by omega)]
      omega
    rw [hrun, hnext]
    refine ⟨?_, ?_⟩
    · change (localWrite ((run World.step World.init (longRun (n + 1))).replica deviceA) [97] [49] false).1 = _
      rw [ih0]
      exact dsSet_worn hlt
    · exact ih1

theorem longRun_inv (n : ℕ) : Inv [[97]] (run World.step World.init (longRun n)) := by
  refine Inv.run (by decide) fun op hop => ?_
  rw [eq_of_mem_replicate hop]
  exact mem_singleton_self _

theorem worn_round (h : Inv [[97]] w) (h0 : w.replica deviceA = wornReplica 4000000010)
    (h1 : w.replica deviceB = dsInit deviceB) : w.round deviceA deviceB 100 100 = some w := by
  have hsome : (w.exchange deviceA deviceB 100).isSome ∧ (w.exchange deviceB deviceA 100).isSome := by
    simp only [World.exchange, World.outgoing, h0, h1, Option.isSome_map]
    decide +kernel
  have hthere : w.exchange deviceA deviceB 100 = some w := by
    obtain ⟨w', hw'⟩ := Option.isSome_iff_exists.mp hsome.1
    rcases exchange_cases h hw' with ⟨hall, -⟩ | ⟨-, rfl⟩
    · rw [h0, h1] at hall
      exact absurd (hall (wornEntry 4000000010) (by decide +kernel)) (by decide +kernel)
    · exact hw'
  have hback : w.exchange deviceB deviceA 100 = some w := by
    obtain ⟨w', hw'⟩ := Option.isSome_iff_exists.mp hsome.2
    have hnone : (w.replica deviceB).delta (some (w.replica deviceA).vv) = [] := by
      rw [h1]
      rfl
    rcases exchange_cases h hw' with ⟨-, rfl⟩ | ⟨-, rfl⟩
    · rw [hw', hnone, applyBatch, put_self]
    · exact hw'
  rw [World.round, hthere, Option.bind_some, hback]

theorem longRun_round (hpos : 0 < n) (hlt : n < 2 ^ 32) (hclock : UInt32.ofNat n = 4000000010) :
    ∃ w', (run World.step World.init (longRun n)).round deviceA deviceB 100 100 = some w' ∧
      ((w'.replica deviceA).find [97]).isSome ∧ (w'.replica deviceB).find [97] = none := by
  obtain ⟨m, rfl⟩ := Nat.exists_eq_succ_of_ne_zero hpos.ne'
  obtain ⟨h0, h1⟩ := longRun_replica hlt
  rw [hclock] at h0
  refine ⟨_, worn_round (longRun_inv _) h0 h1, ?_, ?_⟩
  · rw [h0]
    rfl
  · rw [h1]
    rfl

/-- One device of two has written, and after a round the other one does not have it. -/
theorem round_refused : ∃ w', (run World.step World.init (longRun numLimit)).round deviceA deviceB 100 100 = some w' ∧
      ((w'.replica deviceA).find [97]).isSome ∧ (w'.replica deviceB).find [97] = none := by
  have hpos : 0 < numLimit := by
    unfold numLimit
    omega
  have hlt : numLimit < 2 ^ 32 := by
    unfold numLimit
    omega
  have hclock : UInt32.ofNat numLimit = 4000000010 := rfl
  exact longRun_round hpos hlt hclock

end Mohhdy.Devsync
