import TradingPipeline.MarketData.Path
import TradingPipeline.Receiver.GapFilling
import TradingPipeline.Receiver.Sessions
import TradingPipeline.Server.LossyFeed

/-! # The recovery loop closes every gap

The receiver asks for the first missing message, the rewinder finds the packet that begins with
it, and the reply is published together with what it makes contiguous. As long as the cache has
the missing packets and one slot of the pool does not hold a waiting packet, this can be repeated
until nothing waits any more, without another packet from the feed.
-/
namespace TradingPipeline.MarketData
open Lib Mold Feed Rewinder

section Cache
variable {s t : Threads}

def storesFrom : Store → List Store
  | .zero => [.zero, .header, .bytes, .startSeq, .cursor]
  | .header => [.header, .bytes, .startSeq, .cursor]
  | .bytes => [.bytes, .startSeq, .cursor]
  | .startSeq => [.startSeq, .cursor]
  | .cursor => [.cursor]

def finishCall (c : Cache) (call : Call) : Cache :=
  (storesFrom call.next).foldl (fun c n => c.store { call with next := n }) c

def settledCache (s : Threads) : Cache :=
  match s.feed with
  | none => s.cache
  | some call => finishCall s.cache call

end Cache

section Runs
variable {plan : Plan} {fd : ℤ} {made : List (List UInt8)} {s t : State}

/-- An action of the recovery loop: the rewinder serves a request the receiver sent, or the receiver
asks, takes a reply or recycles, or the dispatcher reads. -/
def State.Recovers (s : State) : Action → Prop
  | .request d => d ∈ s.receiver.requests.map MoldUdp64Header.encode
  | .read => True
  | .receiver .dispatch | .receiver (.recycle _) | .receiver (.nudge _)
  | .receiver (.reply _ _ _) => True
  | _ => False

theorem Timely.keeps {a : Action} (h : Timely plan s a t) (ha : s.Recovers a)
    (hs : Inv plan fd made s) : Inv plan fd made t := by
  obtain ⟨hstep, hover⟩ := h
  cases hstep.moves with
  | make => cases ha
  | @serve _ b server hb hserver hstore =>
    have hne : b ≠ .store := by
      intro hb
      rw [hstore.mpr hb] at ha
      cases ha
    refine hs.serve hb hserver ?_
    cases b with
    | store => exact absurd rfl hne
    | _ => rfl
  | air => cases ha
  | finish => cases ha
  | receiver hbrings _ hreceiver => exact hs.receive hbrings hreceiver
  | close => cases ha

/-- Actions of the recovery loop lead from one state to the other. -/
def Leads (plan : Plan) (s t : State) : Prop :=
  ∃ bs, Runs (fun s a t => Timely plan s a t ∧ s.Recovers a) s bs t

theorem Leads.refl (s : State) : Leads plan s s := ⟨[], .nil⟩

theorem Leads.single {a : Action} (h : Timely plan s a t) (ha : s.Recovers a) : Leads plan s t :=
  ⟨[a], Runs.single ⟨h, ha⟩⟩

theorem Leads.trans {u : State} (h : Leads plan s t) (h' : Leads plan t u) : Leads plan s u := by
  obtain ⟨bs, hr⟩ := h
  obtain ⟨cs, hr'⟩ := h'
  exact ⟨bs ++ cs, hr.trans hr'⟩

theorem Leads.keeps (h : Leads plan s t) (hs : Inv plan fd made s) : Inv plan fd made t := by
  obtain ⟨bs, hr⟩ := h
  exact hr.invariant hs fun _ _ _ hu hstep => hstep.1.keeps hstep.2 hu

/-- The receiver thread is in its loop. -/
structure State.Receiving (s : State) : Prop where
  opened : s.closed = false
  running : s.receiver.stopped = false

theorem State.Receiving.admits (h : s.Receiving) (a : Receiver.Action) : s.Admits a :=
  ⟨h.opened, fun hstopped => absurd (h.running.symm.trans hstopped) Bool.false_ne_true⟩

theorem leads_receiver (hrec : s.Receiving) (a : Receiver.Action) {r : Receiver.State}
    (hbrings : s.Brings a) (ha : s.Recovers (.receiver a)) (hstep : Receiver.Step s.receiver a r) :
    Leads plan s { s with receiver := r } := by
  refine Leads.single ⟨?_, rfl⟩ ha
  unfold Step step
  dsimp only
  rw [if_pos ⟨hbrings, hrec.admits a⟩, show s.receiver.act a = some r from hstep]
  rfl

theorem dispatch_stopped {r r' : Receiver.State} (h : Receiver.Step r .dispatch r') :
    r'.stopped = r.stopped := by
  obtain ⟨p, d, he⟩ := Receiver.consumeOne_frame r
  have hsame : r' = r.consumeOne := (Option.some.inj h).symm
  rw [hsame, he]

theorem leads_dispatch (hrec : s.Receiving) {n : ℕ} {r : Receiver.State}
    (h : Runs Receiver.Step s.receiver (List.replicate n .dispatch) r) :
    Leads plan s { s with receiver := r } := by
  induction n generalizing s with
  | zero =>
    rw [← h.nil_inv]
    exact Leads.refl s
  | succ n ih =>
    obtain ⟨u, hu, hrest⟩ := h.cons_inv
    have hstill : ({ s with receiver := u } : State).Receiving :=
      ⟨hrec.opened, (dispatch_stopped hu).trans hrec.running⟩
    have hlater := @ih { s with receiver := u } hstill hrest
    exact (leads_receiver hrec .dispatch trivial trivial hu).trans hlater

theorem leads_server (a : Action) {b : Rewinder.Action} {server : Threads}
    (hab : step plan s a = s.serve b) (ha : s.Recovers a) (hstep : Threads.Step s.server b server) :
    Leads plan s { s with server := server } := by
  have hover : s.overtakes a = false := by
    cases a with
    | store => cases ha
    | _ => rfl
  refine Leads.single ⟨?_, hover⟩ ha
  rw [Step, hab, State.serve, show s.server.step b = some server from hstep]
  rfl

theorem leads_reads {k : ℕ} {server : Threads}
    (h : Runs Threads.Step s.server (List.replicate k .read) server) :
    Leads plan s { s with server := server } := by
  induction k generalizing s with
  | zero =>
    rw [← h.nil_inv]
    exact Leads.refl s
  | succ k ih =>
    obtain ⟨u, hu, hrest⟩ := h.cons_inv
    have hfirst : Leads plan s { s with server := u } := leads_server .read rfl trivial hu
    have hlater := @ih { s with server := u } hrest
    exact hfirst.trans hlater

theorem leads_serve (hidle : s.server.rewinder = .idle) {d : List UInt8}
    (hd : d ∈ s.receiver.requests.map MoldUdp64Header.encode) :
    ∃ rs, rs.map Reply.bytes = s.server.cache.handleRequest d ∧
      Leads plan s { s with server := { s.server with replies := s.server.replies ++ rs } } := by
  obtain ⟨k, rs, hserve, hrs⟩ := Threads.serve_run hidle d
  obtain ⟨u, hu, hreads⟩ := hserve.cons_inv
  have hfirst : Leads plan s { s with server := u } := leads_server (.request d) rfl hd hu
  have hlater := @leads_reads plan { s with server := u } k _ hreads
  exact ⟨rs, hrs, hfirst.trans hlater⟩

end Runs

/-- The server's threads wait, the receiver is in its loop, and there is what a recovery takes: no
packet was given up, the pool has room for a reply, and the cache has every packet from the
expected one on. -/
structure Ready (plan : Plan) (fd : ℤ) (made : List (List UInt8)) (s : State) : Prop where
  inv : Inv plan fd made s
  cache : settledCache s.server = cacheAfter (begunCalls s.server)
  feed : s.server.feed = none
  idle : s.server.rewinder = .idle
  receiving : s.Receiving
  few : made.length < 2 ^ 32
  slots : s.receiver.allocFailures = 0
  room : Receiver.Room s.receiver
  cached : ∀ p ∈ made, s.receiver.gapExpectedSeq ≤ sequenceNumber p → p ∈ newest 65536 made

section Round
variable {plan : Plan} {fd : ℤ} {made : List (List UInt8)} {s : State} {i : ℕ}

theorem Inv.gapRewinderFd (hs : Inv plan fd made s) : s.receiver.gapRewinderFd = fd := by
  obtain ⟨as, hr⟩ := hs.runs
  exact Receiver.runs_gapRewinderFd hr hs.admissible

theorem Inv.sessionSet (hs : Inv plan fd made s) (hi : i < Receiver.reorderMax)
    (hp : s.receiver.pending i) : s.receiver.gapSessionSet = true := by
  by_contra hne
  have hunused := hs.receiver.pool.unset (Bool.eq_false_iff.mpr hne) i hi
  exact (Receiver.pending_iff.mp hp).1 hunused

theorem Inv.gapSession_length (hs : Inv plan fd made s) (hset : s.receiver.gapSessionSet = true) :
    s.receiver.gapSession.length = 10 := by
  obtain ⟨as, hr⟩ := hs.runs
  obtain ⟨p, hp, hsession⟩ := (Receiver.runs_sessionNamed hr hs.admissible).first hset
  have hlen := (Plan.mem_length (hs.delivered_packets (mem_of_firstAccepted hp))).1
  rw [hsession, session, MoldUdp64Header.decode]
  simp only [headerSize] at hlen
  simp only [List.length_take]
  omega

theorem Inv.missing (hs : Inv plan fd made s) (hslots : s.receiver.allocFailures = 0)
    (hi : i < Receiver.reorderMax) (hp : s.receiver.pending i) :
    ∃ q ∈ made, sequenceNumber q = s.receiver.gapExpectedSeq := by
  have hset := hs.sessionSet hi hp
  obtain ⟨first, hfirst, _⟩ := hs.receiver.sequenced.tiles hset
  obtain ⟨pre, post, rest, hsplit, hrest, htail⟩ := hs.published_from hslots hfirst
  obtain ⟨w, hw, _, hholds⟩ := hs.receiver.pool.copies i hi (Receiver.pending_iff.mp hp).1
  have hlater := hs.tracked.1 i hi hp
  rw [hholds.startSeq] at hlater
  have hwmade := hs.delivered w hw
  have hwbound := Plan.mem_bounds (hs.mem_packets hwmade)
  cases rest with
  | nil =>
    have hend : s.receiver.gapExpectedSeq = plan.messages.length + 1 := htail
    omega
  | cons q rest =>
    have hq : q ∈ plan.packets := by
      rw [hsplit, hrest]
      simp
    refine ⟨q, ?_, htail.1⟩
    rw [hs.split] at hq
    refine (List.mem_append.mp hq).resolve_right fun hunmade => ?_
    -- a packet yet to be made comes behind those that were delivered
    have htiles := plan.tiles
    rw [hs.split] at htiles
    have hcross := (List.pairwise_append.mp htiles.pairwise).2.2 w hwmade q hunmade
    have hlo := htail.1
    omega

theorem Ready.answer (hs : Ready plan fd made s) {q : List UInt8} (hq : q ∈ made)
    (hseq : sequenceNumber q = s.receiver.gapExpectedSeq) {session : List UInt8}
    (hsession : session.length = 10) {cnt : ℕ} (hpos : 0 < cnt) (hlt : cnt < 2 ^ 16) :
    (s.server.cache.handleRequest
      (MoldUdp64Header.mk session s.receiver.gapExpectedSeq cnt).encode).head? = some q := by
  have hbounds := Plan.mem_bounds (hs.inv.mem_packets hq)
  have hfew : plan.messages.length + 1 < 2 ^ 64 := plan.few
  have hdecode := decode_encode (h := ⟨session, s.receiver.gapExpectedSeq, cnt⟩) hsession
    (show s.receiver.gapExpectedSeq < 2 ^ 64 by omega) hlt []
  rw [List.append_nil] at hdecode
  have hreqseq : sequenceNumber (MoldUdp64Header.mk session s.receiver.gapExpectedSeq cnt).encode =
      s.receiver.gapExpectedSeq := by rw [sequenceNumber, hdecode]
  have hreqcnt : messageCount (MoldUdp64Header.mk session s.receiver.gapExpectedSeq cnt).encode =
      cnt := by rw [messageCount, hdecode]
  have hcache : s.server.cache = cacheAfter (made.map (cacheCall plan.session)) := by
    have hsettled := hs.cache
    rw [hs.inv.begun] at hsettled
    unfold settledCache at hsettled
    rwa [hs.feed] at hsettled
  rw [hcache]
  refine Plan.handleRequest_head ⟨s.unmade, hs.inv.split.symm⟩ hs.few
    (hs.cached q hq (Nat.le_of_eq hseq.symm)) ?_ ?_ ?_ ?_
  · simp [MoldUdp64Header.encode, hsession, headerSize]
  · rwa [hreqcnt]
  · rw [hreqseq, hseq]
  · rw [hreqseq]
    omega

theorem Ready.makeRoom (hs : Ready plan fd made s) (hi : i < Receiver.reorderMax)
    (hp : s.receiver.pending i) :
    ∃ r, Leads plan s { s with receiver := r } ∧ Receiver.Undelivered s.receiver r ∧
      r.stopped = false ∧ (∃ j < Receiver.reorderMax, (r.reorderPool j).used = 0) ∧
      ∃ j < Receiver.reorderMax, r.pending j := by
  obtain ⟨n, d, hdispatch⟩ := Receiver.dispatch_all hs.inv.receiver.cursors
  have hread : Leads plan s { s with receiver := s.receiver.caughtUp d } :=
    leads_dispatch hs.receiving hdispatch
  have hmid := hread.keeps hs.inv
  have hmidrec : ({ s with receiver := s.receiver.caughtUp d } : State).Receiving :=
    ⟨hs.receiving.opened, hs.receiving.running⟩
  have hroom : Receiver.Room (s.receiver.caughtUp d) := hs.room
  obtain ⟨r, hrecycle, hkept, hstopped, hfree⟩ :=
    Receiver.recycle_frees hmid.receiver hmid.admissible hroom rfl
  have hlast : Leads plan { s with receiver := s.receiver.caughtUp d } { s with receiver := r } :=
    leads_receiver hmidrec (.recycle []) trivial trivial hrecycle
  refine ⟨r, hread.trans hlast, { hkept with }, hstopped.trans hs.receiving.running, hfree, ?_⟩
  -- the waiting packet is still known, and still not behind
  have hadr : Receiver.Admissible r := by
    rw [Receiver.Admissible, hkept.delivered]
    exact hmid.admissible
  have hknown := Receiver.moves_known (hrecycle.moves (hmid.receiver.boundary hmid.held)).1
    hmid.receiver hadr (.inr ⟨i, hi, hp, rfl⟩)
  rcases hknown with hlt | ⟨j, hj, hpj, _⟩
  · rw [hkept.gapExpectedSeq] at hlt
    exact absurd hlt (Nat.not_lt_of_le (Receiver.pending_iff.mp hp).2)
  · exact ⟨j, hj, hpj⟩

theorem Ready.round (hs : Ready plan fd made s) (hfd : 0 ≤ fd) (hi : i < Receiver.reorderMax)
    (hp : s.receiver.pending i) :
    ∃ t, Leads plan s t ∧ Ready plan fd made t ∧
      s.receiver.gapExpectedSeq < t.receiver.gapExpectedSeq ∧
      s.receiver.delivered <+: t.receiver.delivered := by
  obtain ⟨r, hroomy, hkept, hrunning, hfree, j, hj, hpj⟩ := hs.makeRoom hi hp
  have hr := hroomy.keeps hs.inv
  have hset : r.gapSessionSet = true := hr.sessionSet hj hpj
  -- the receiver asks for the next packet
  obtain ⟨cnt, hpos, hlt, hnudge⟩ := Receiver.nudge_requests hset
    (hfd.trans_eq hr.gapRewinderFd.symm) hr.tracked.1 hj hpj
  generalize hasked : r.sendRequest ⟨r.gapSession, r.gapExpectedSeq, cnt⟩
    (r.gapLastRequestNs + Receiver.retransmitIntervalNs) = asked at hnudge
  have hroomyrec : ({ s with receiver := r } : State).Receiving := ⟨hs.receiving.opened, hrunning⟩
  have hask : Leads plan { s with receiver := r } { s with receiver := asked } :=
    leads_receiver hroomyrec (.nudge _) trivial trivial (congrArg some hnudge)
  have hasking : asked.stopped = false := by
    rw [← hasked]
    exact hrunning
  -- the rewinder answers
  obtain ⟨q, hq, hseq⟩ := hs.inv.missing hs.slots hi hp
  have hanswer := hs.answer hq hseq (hr.gapSession_length hset) hpos hlt
  have hsent : (MoldUdp64Header.mk r.gapSession s.receiver.gapExpectedSeq cnt).encode ∈
      asked.requests.map MoldUdp64Header.encode := by
    rw [← hasked, hkept.gapExpectedSeq]
    exact List.mem_map_of_mem (List.mem_append_right _ List.mem_cons_self)
  obtain ⟨rs, hrs, hserve⟩ := @leads_serve plan { s with receiver := asked } hs.idle _ hsent
  have hmem : q ∈ (s.server.replies ++ rs).map Reply.bytes := by
    rw [List.map_append, hrs]
    exact List.mem_append_right _ (List.mem_of_mem_head? hanswer)
  have hserved := ((hroomy.trans hask).trans hserve).keeps hs.inv
  -- the reply is published
  have hqmem := hs.inv.mem_packets hq
  obtain ⟨u, hreply, hgrow, halloc, hstopped, hroom, hdel⟩ := Receiver.reply_fills hserved.receiver
    hserved.held hserved.admissible hserved.tracked.1 (by rw [← hasked]; exact hset)
    (hfd.trans_eq hserved.gapRewinderFd.symm) (by rw [← hasked]; exact hfree)
    (accepted_of_mem hqmem) (fits_of_mem hqmem)
    (by rw [← hasked]; exact hseq.trans hkept.gapExpectedSeq.symm) 0
  have hlast := @leads_receiver plan { s with
    receiver := asked
    server := { s.server with replies := s.server.replies ++ rs } }
    ⟨hs.receiving.opened, hasking⟩ (.reply q 0 []) u hmem trivial hreply
  have hall := ((hroomy.trans hask).trans hserve).trans hlast
  have hsame : asked.gapExpectedSeq = s.receiver.gapExpectedSeq ∧
      asked.allocFailures = s.receiver.allocFailures ∧
      asked.delivered = s.receiver.delivered := by
    rw [← hasked]
    exact ⟨hkept.gapExpectedSeq, hkept.allocFailures, hkept.delivered⟩
  have hgrow' : s.receiver.gapExpectedSeq < u.gapExpectedSeq := hsame.1 ▸ hgrow
  refine ⟨_, hall, ?_, hgrow', ⟨[q], ?_⟩⟩
  · exact {
      inv := hall.keeps hs.inv
      cache := hs.cache
      feed := hs.feed
      idle := hs.idle
      receiving := ⟨hs.receiving.opened, hstopped.trans hasking⟩
      few := hs.few
      slots := (halloc.trans hsame.2.1).trans hs.slots
      room := hroom
      cached := fun p hp hle => hs.cached p hp (le_trans (Nat.le_of_lt hgrow') hle) }
  · rw [← hsame.2.2]
    exact hdel.symm

theorem Inv.expected_le (hs : Inv plan fd made s) :
    s.receiver.gapExpectedSeq ≤ plan.messages.length + 1 := by
  by_cases hset : s.receiver.gapSessionSet = true
  · obtain ⟨p, hp, _, hle⟩ := hs.receiver.sequenced.reach hset
    exact hle.trans (Plan.mem_bounds (hs.delivered_packets hp)).2.2
  · rw [(hs.receiver.sequenced.unset (Bool.eq_false_iff.mpr hset)).2.2]
    exact Nat.zero_le _

end Round

end TradingPipeline.MarketData
