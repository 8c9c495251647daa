import TradingPipeline.Afxdp.Send
import TradingPipeline.Afxdp.ValidFrame

/-! # The frames of the transmit path over whole runs

Every frame but the one of the template is either free or in flight. A send therefore never
writes over a frame that the kernel still has, nor over the template, and each descriptor
refers to a valid frame until it is completed.
-/
namespace TradingPipeline.Afxdp
open Lib

def poolFrames : List ℕ := (List.range' 1 (numFrames - 1)).map (· * frameSize)

theorem mem_poolFrames {a : ℕ} : a ∈ poolFrames ↔ ∃ i, 1 ≤ i ∧ i ≤ 511 ∧ a = i * 4096 := by
  simp only [poolFrames, numFrames, frameSize, List.mem_map, List.mem_range'_1]
  constructor
  · rintro ⟨i, hi, rfl⟩
    exact ⟨i, by omega, by omega, rfl⟩
  · rintro ⟨i, hlo, hhi, rfl⟩
    exact ⟨i, by omega, rfl⟩

theorem poolFrames_nodup : poolFrames.Nodup :=
  List.Nodup.map (fun _ _ h => Nat.eq_of_mul_eq_mul_right (by decide) h) (List.nodup_range' 1)

theorem poolFrames_length : poolFrames.length = 511 := by
  simp [poolFrames, numFrames]

theorem poolFrames_disjoint {a b : ℕ} (ha : a ∈ poolFrames) (hb : b ∈ poolFrames) (h : a ≠ b) :
    a + frameSize ≤ b ∨ b + frameSize ≤ a := by
  obtain ⟨i, _, _, rfl⟩ := mem_poolFrames.mp ha
  obtain ⟨j, _, _, rfl⟩ := mem_poolFrames.mp hb
  simp only [frameSize]
  omega

/-- The frames that were submitted and have not been drained. -/
def Tx.inFlight (t : Tx) : List ℕ := t.submitted.map Desc.addr ++ t.completed

structure Inv (avx2 : Bool) (cfg : Config) (umem : Memory) (t : Tx) : Prop where
  frames : (t.ctx.freeFrames ++ t.inFlight).Perm poolFrames
  cfg_eq : t.ctx.cfg = cfg
  template : t.ctx.umem.load 0 hdrTotal = (buildTemplate avx2 cfg maxPayload umem).load 0 hdrTotal
  valid : ∀ d ∈ t.submitted, ∃ payload : List UInt8, payload.length ≤ maxPayload ∧
    d.len = hdrTotal + payload.length ∧ ValidFrame avx2 cfg payload (t.ctx.umem.load d.addr d.len)

section Release
variable {ctx : Ctx} {addrs : List ℕ}

theorem foldl_releaseFrame (h : ctx.freeFrames.length + addrs.length ≤ numFrames) :
    addrs.foldl Ctx.releaseFrame ctx =
      { ctx with freeFrames := addrs.reverse ++ ctx.freeFrames } := by
  induction addrs generalizing ctx with
  | nil => rfl
  | cons a addrs ih =>
    rw [List.length_cons] at h
    have hpush : ctx.releaseFrame a = { ctx with freeFrames := a :: ctx.freeFrames } :=
      if_neg (by omega)
    rw [List.foldl_cons, hpush, ih (by rw [List.length_cons]; omega), List.reverse_cons,
      List.append_assoc, List.singleton_append]

end Release

section Invariant
variable {avx2 : Bool} {cfg : Config} {umem : Memory} {t : Tx}

theorem Inv.length (h : Inv avx2 cfg umem t) :
    t.ctx.freeFrames.length + t.submitted.length + t.completed.length = 511 := by
  have hlength := h.frames.length_eq
  rw [poolFrames_length, List.length_append, Tx.inFlight, List.length_append, List.length_map]
    at hlength
  omega

theorem Inv.mem_pool (h : Inv avx2 cfg umem t) {a : ℕ}
    (ha : a ∈ t.ctx.freeFrames ++ t.inFlight) : a ∈ poolFrames := h.frames.mem_iff.mp ha

theorem Inv.perm_of_count (h : Inv avx2 cfg umem t) {l : List ℕ}
    (hl : ∀ a, l.count a = (t.ctx.freeFrames ++ t.inFlight).count a) : l.Perm poolFrames :=
  (List.perm_iff_count.mpr hl).trans h.frames

theorem Inv.drain_eq (h : Inv avx2 cfg umem t) (peeked : ℕ) :
    (afxdpTxDrainCompletions t peeked).2 = { t with
      ctx := { t.ctx with
        freeFrames := (t.completed.take (min peeked numFrames)).reverse ++ t.ctx.freeFrames }
      completed := t.completed.drop (t.completed.take (min peeked numFrames)).length } := by
  have hlength := h.length
  unfold afxdpTxDrainCompletions
  dsimp only
  rw [foldl_releaseFrame (by rw [List.length_take, numFrames]; omega)]

theorem Inv.drain (h : Inv avx2 cfg umem t) (peeked : ℕ) :
    Inv avx2 cfg umem (afxdpTxDrainCompletions t peeked).2 := by
  have hsplit : t.completed.take (min peeked numFrames) ++
      t.completed.drop (t.completed.take (min peeked numFrames)).length = t.completed :=
    List.prefix_iff_eq_append.mp (List.take_prefix _ _)
  rw [h.drain_eq]
  refine ⟨h.perm_of_count fun a => ?_, h.cfg_eq, h.template, h.valid⟩
  have htaken := congrArg (List.count a) hsplit
  simp only [Tx.inFlight, List.count_append, List.count_reverse] at htaken ⊢
  omega

theorem Inv.fill (h : Inv avx2 cfg umem t) {addr : ℕ} {rest : List ℕ} {payload : List UInt8}
    (hfree : t.ctx.freeFrames = addr :: rest) (hn : payload.length ≤ maxPayload) :
    (t.ctx.fill avx2 addr payload).umem.load 0 hdrTotal = t.ctx.umem.load 0 hdrTotal ∧
      (∀ d ∈ t.submitted, (t.ctx.fill avx2 addr payload).umem.load d.addr d.len =
        t.ctx.umem.load d.addr d.len) ∧
      ValidFrame avx2 cfg payload
        ((t.ctx.fill avx2 addr payload).umem.load addr (hdrTotal + payload.length)) := by
  have hnodup : (t.ctx.freeFrames ++ t.inFlight).Nodup := h.frames.nodup_iff.mpr poolFrames_nodup
  have haddr : addr ∈ poolFrames := h.mem_pool (by simp [hfree])
  have hfits : hdrTotal + payload.length ≤ frameSize := by
    simp only [maxPayload, frameSize, hdrTotal_eq] at hn ⊢
    omega
  refine ⟨Memory.load_store_of_disjoint (.inl ?_), fun d hd => Memory.load_store_of_disjoint ?_, ?_⟩
  · obtain ⟨i, hi, _, rfl⟩ := mem_poolFrames.mp haddr
    rw [hdrTotal_eq]
    omega
  · obtain ⟨bs, hbs, hlen, _⟩ := h.valid d hd
    have hflight : d.addr ∈ t.inFlight :=
      List.mem_append_left _ (List.mem_map_of_mem hd)
    have hne : d.addr ≠ addr := by
      rintro rfl
      exact (List.disjoint_of_nodup_append hnodup) (by simp [hfree]) hflight
    have hpool : d.addr ∈ poolFrames := h.mem_pool (List.mem_append_right _ hflight)
    have hdisjoint := poolFrames_disjoint hpool haddr hne
    rw [Memory.load_length]
    simp only [maxPayload, frameSize, hdrTotal_eq] at hbs hlen hfits hdisjoint ⊢
    omega
  · have hload : (t.ctx.fill avx2 addr payload).umem.load addr (hdrTotal + payload.length) =
        (fillFrame avx2 t.ctx.cfg t.ctx.umem (t.ctx.umem.behind addr) payload).load 0
          (hdrTotal + payload.length) :=
      Memory.load_store_load _ _ addr 0 (b := 0) (by omega)
    rw [hload, h.cfg_eq, fillFrame_congr h.template]
    exact fillFrame_valid avx2 cfg maxPayload umem _ hn

end Invariant

section Send
variable (avx2 : Bool) (t : Tx) (payload : Option (List UInt8)) (peeked : ℕ) (reserved : Bool)

theorem afxdpTxSend_cases :
    ((∀ bs, payload = some bs → bs.length = 0 ∨ maxPayload < bs.length) ∧
      afxdpTxSend avx2 t payload peeked reserved = (.error .einval, t)) ∨
    ((afxdpTxDrainCompletions t peeked).2.ctx.freeFrames = [] ∧
      afxdpTxSend avx2 t payload peeked reserved =
        (.error .enospc, (afxdpTxDrainCompletions t peeked).2)) ∨
    ∃ bs addr rest, payload = some bs ∧ bs.length ≤ maxPayload ∧
      (afxdpTxDrainCompletions t peeked).2.ctx.freeFrames = addr :: rest ∧
      afxdpTxSend avx2 t payload peeked reserved =
        let u := (afxdpTxDrainCompletions t peeked).2
        let ctx := { u.ctx.fill avx2 addr bs with freeFrames := rest }
        if reserved then
          (.ok (), { u with
            ctx := ctx
            submitted := u.submitted ++ [⟨addr, hdrTotal + bs.length⟩] })
        else (.error .eagain, { u with ctx := ctx.releaseFrame addr }) := by
  unfold afxdpTxSend
  cases payload with
  | none =>
    left
    exact ⟨nofun, rfl⟩
  | some bs =>
    dsimp only
    split
    · next hlen =>
      left
      exact ⟨fun bs' hbs => Option.some.inj hbs ▸ hlen, rfl⟩
    · next hlen =>
      refine .inr ?_
      cases hfree : (afxdpTxDrainCompletions t peeked).2.ctx.freeFrames with
      | nil =>
        left
        simp only [Ctx.allocFrame, hfree, and_self]
      | cons addr rest =>
        right
        refine ⟨bs, addr, rest, rfl, by omega, rfl, ?_⟩
        simp only [Ctx.allocFrame, hfree]
        rfl

end Send

section Runs
variable {avx2 : Bool} {cfg : Config} {umem : Memory} {t : Tx}

theorem afxdpTxInit_freeFrames (avx2 : Bool) (cfg : Config) (umem : Memory) :
    (afxdpTxInit avx2 cfg umem).freeFrames = poolFrames := by
  unfold afxdpTxInit pushedFrames
  dsimp only
  rw [List.foldl_flip_cons_eq_append', List.append_nil, List.reverse_reverse]
  rfl

theorem Inv.initial (avx2 : Bool) (cfg : Config) (umem : Memory) :
    Inv avx2 cfg umem (initialTx avx2 cfg umem) where
  frames := by
    rw [initialTx, Tx.inFlight, afxdpTxInit_freeFrames, List.map_nil, List.append_nil,
      List.append_nil]
  cfg_eq := rfl
  template := rfl
  valid := by
    intro d hd
    cases hd

theorem Inv.releaseFrame (h : Inv avx2 cfg umem t) {addr : ℕ} {rest : List ℕ}
    (hfree : t.ctx.freeFrames = addr :: rest) (ctx : Ctx) :
    { ctx with freeFrames := rest }.releaseFrame addr =
      { ctx with freeFrames := addr :: rest } := by
  have hlength := h.length
  rw [hfree, List.length_cons] at hlength
  have hroom : ¬numFrames ≤ rest.length := by
    rw [numFrames]
    omega
  exact if_neg hroom

theorem Inv.send (h : Inv avx2 cfg umem t) (payload : Option (List UInt8)) (peeked : ℕ)
    (reserved : Bool) : Inv avx2 cfg umem (afxdpTxSend avx2 t payload peeked reserved).2 := by
  have hu := h.drain peeked
  rcases afxdpTxSend_cases avx2 t payload peeked reserved with
    ⟨_, heq⟩ | ⟨_, heq⟩ | ⟨bs, addr, rest, _, hn, hfree, heq⟩
  · rwa [heq]
  · rwa [heq]
  · generalize (afxdpTxDrainCompletions t peeked).2 = u at hu hfree heq
    obtain ⟨htemplate, hothers, hvalid⟩ := hu.fill hfree hn
    have hsubmitted : ∀ d ∈ u.submitted, ∃ payload : List UInt8, payload.length ≤ maxPayload ∧
        d.len = hdrTotal + payload.length ∧
        ValidFrame avx2 cfg payload ((u.ctx.fill avx2 addr bs).umem.load d.addr d.len) := by
      intro d hd
      rw [hothers d hd]
      exact hu.valid d hd
    rw [heq]
    cases reserved with
    | true =>
      simp only [↓reduceIte]
      refine ⟨hu.perm_of_count fun a => ?_, hu.cfg_eq, htemplate.trans hu.template, ?_⟩
      · simp only [hfree, Tx.inFlight, List.map_append, List.map_cons, List.map_nil,
          List.count_append, List.count_cons, List.count_nil]
        omega
      · intro d hd
        rcases List.mem_append.mp hd with hd | hd
        · exact hsubmitted d hd
        · obtain rfl := List.mem_singleton.mp hd
          exact ⟨bs, hn, rfl, hvalid⟩
    | false =>
      dsimp only
      rw [hu.releaseFrame hfree]
      exact ⟨hfree ▸ hu.frames, hu.cfg_eq, htemplate.trans hu.template, hsubmitted⟩

theorem Inv.complete (h : Inv avx2 cfg umem t) {desc : Desc} (hd : desc ∈ t.submitted) :
    Inv avx2 cfg umem { t with
      submitted := t.submitted.erase desc
      completed := t.completed ++ [desc.addr] } := by
  refine ⟨h.perm_of_count fun a => ?_, h.cfg_eq, h.template,
    fun d hd => h.valid d (List.mem_of_mem_erase hd)⟩
  have herase := ((List.perm_cons_erase hd).map Desc.addr).count_eq a
  simp only [Tx.inFlight, List.map_cons, List.count_append, List.count_cons, List.count_nil]
    at herase ⊢
  omega

theorem Reachable.inv (h : Reachable avx2 cfg umem t) : Inv avx2 cfg umem t := by
  obtain ⟨actions, hruns⟩ := h
  refine hruns.invariant (Inv.initial avx2 cfg umem) fun t a u ht hstep => ?_
  cases hstep with
  | send payload peeked reserved => exact ht.send payload peeked reserved
  | drain peeked => exact ht.drain peeked
  | complete hd => exact ht.complete hd

theorem Inv.send_error (h : Inv avx2 cfg umem t) {payload : Option (List UInt8)} {peeked : ℕ}
    {reserved : Bool} {e : Errno}
    (he : (afxdpTxSend avx2 t payload peeked reserved).1 = .error e) :
    (afxdpTxSend avx2 t payload peeked reserved).2.ctx.freeFrames =
      if e = .einval then t.ctx.freeFrames
      else (afxdpTxDrainCompletions t peeked).2.ctx.freeFrames := by
  have hu := h.drain peeked
  rcases afxdpTxSend_cases avx2 t payload peeked reserved with
    ⟨_, heq⟩ | ⟨_, heq⟩ | ⟨bs, addr, rest, _, _, hfree, heq⟩
  · rw [heq] at he ⊢
    cases he
    rfl
  · rw [heq] at he ⊢
    cases he
    rfl
  · rw [heq] at he ⊢
    cases reserved with
    | true => cases he
    | false =>
      cases he
      dsimp only
      rw [hu.releaseFrame hfree, if_neg (by decide), hfree]
      rfl

end Runs

/-- The free frames and those in flight are the frames 1..511, each once. The frame of the template
is never allocated, every frame that is released becomes free, and a send that fails leaves the
free frames as they were after its drain. -/
theorem frame_pool_conserved (avx2 : Bool) (cfg : Config) (umem : Memory) (t : Tx)
    (h : Reachable avx2 cfg umem t) :
    (t.ctx.freeFrames ++ t.inFlight).Nodup ∧
      (∀ a, a ∈ t.ctx.freeFrames ++ t.inFlight ↔ ∃ i, 1 ≤ i ∧ i ≤ 511 ∧ a = i * 4096) ∧
      (∀ a ctx, t.ctx.allocFrame = some (a, ctx) → a ≠ 0) ∧
      (∀ peeked, (afxdpTxDrainCompletions t peeked).2.ctx.freeFrames =
        (t.completed.take (min peeked 512)).reverse ++ t.ctx.freeFrames) ∧
      ∀ payload peeked reserved e, (afxdpTxSend avx2 t payload peeked reserved).1 = .error e →
        (afxdpTxSend avx2 t payload peeked reserved).2.ctx.freeFrames =
          if e = .einval then t.ctx.freeFrames
          else (afxdpTxDrainCompletions t peeked).2.ctx.freeFrames := by
  have hinv := h.inv
  refine ⟨hinv.frames.nodup_iff.mpr poolFrames_nodup,
    fun a => hinv.frames.mem_iff.trans mem_poolFrames, fun a ctx halloc => ?_,
    fun peeked => by rw [hinv.drain_eq]; rfl, fun payload peeked reserved e => hinv.send_error⟩
  have hmem : a ∈ t.ctx.freeFrames := by
    unfold Ctx.allocFrame at halloc
    split at halloc
    · cases halloc
    · next hfree =>
      cases halloc
      rw [hfree]
      exact List.mem_cons_self
  obtain ⟨i, hi, _, rfl⟩ := mem_poolFrames.mp (hinv.mem_pool (List.mem_append_left _ hmem))
  omega

def sampleConfig : Config where
  srcIpBe := 0x0100000A
  dstIpBe := 0x0200000A
  srcPort := 4000
  dstPort := 5000
  srcMac := Vector.replicate 6 0x11
  dstMac := Vector.replicate 6 0x22

def sentTx : Tx :=
  (afxdpTxSend true (initialTx true sampleConfig fun _ => 0) (some [1, 2, 3]) 0 true).2

def sampleTx : Tx :=
  { sentTx with
    submitted := sentTx.submitted.erase ⟨4096, 45⟩
    completed := sentTx.completed ++ [4096] }

theorem sampleTx_reachable : Reachable true sampleConfig (fun _ => 0) sampleTx :=
  have hsent : (⟨4096, 45⟩ : Desc) ∈ sentTx.submitted := by decide +kernel
  ⟨_, (Runs.single (.send _ (some [1, 2, 3]) 0 true)).snoc (.complete hsent)⟩

theorem frame_pool_conserved_sampleTx :
    Reachable true sampleConfig (fun _ => 0) sampleTx ∧
      (sampleTx.ctx.freeFrames ++ sampleTx.inFlight).Nodup :=
  ⟨sampleTx_reachable,
    (frame_pool_conserved true sampleConfig (fun _ => 0) sampleTx sampleTx_reachable).1⟩

/-- A send with a payload of 1 to 4054 bytes submits a frame if one is free and the ring has room,
and the frame is valid. What the kernel still has to send is valid too, whatever was sent since. -/
theorem sent_frame_valid (avx2 : Bool) (cfg : Config) (umem : Memory) (t : Tx)
    (h : Reachable avx2 cfg umem t) (payload : List UInt8) (hlo : 1 ≤ payload.length)
    (hhi : payload.length ≤ 4054) (peeked : ℕ) (reserved : Bool) :
    ((afxdpTxSend avx2 t (some payload) peeked reserved).1 = .ok () ↔
      reserved = true ∧ (afxdpTxDrainCompletions t peeked).2.ctx.freeFrames ≠ []) ∧
    ((afxdpTxSend avx2 t (some payload) peeked reserved).1 = .ok () →
      ∃ d, (afxdpTxSend avx2 t (some payload) peeked reserved).2.submitted = t.submitted ++ [d] ∧
        d.len = 42 + payload.length ∧ ValidFrame avx2 cfg payload
          ((afxdpTxSend avx2 t (some payload) peeked reserved).2.ctx.umem.load d.addr d.len)) ∧
    ∀ d ∈ t.submitted, ∃ sent : List UInt8, d.len = 42 + sent.length ∧
      ValidFrame avx2 cfg sent (t.ctx.umem.load d.addr d.len) := by
  rw [← and_assoc]
  refine ⟨?_, fun d hd => ?_⟩
  swap
  · obtain ⟨sent, _, hlen, hvalid⟩ := h.inv.valid d hd
    exact ⟨sent, hlen, hvalid⟩
  have hu := h.inv.drain peeked
  rcases afxdpTxSend_cases avx2 t (some payload) peeked reserved with
    ⟨hbad, _⟩ | ⟨hnone, heq⟩ | ⟨bs, addr, rest, hbs, hn, hfree, heq⟩
  · have hmax : maxPayload = 4054 := rfl
    have hlen := hbad payload rfl
    omega
  · rw [heq, hnone]
    simp
  · obtain rfl := Option.some.inj hbs
    obtain ⟨_, _, hvalid⟩ := hu.fill hfree hn
    rw [heq, hfree]
    cases reserved with
    | false => simp
    | true =>
      refine ⟨by simp, fun _ => ⟨⟨addr, hdrTotal + payload.length⟩, rfl, rfl, hvalid⟩⟩

theorem sent_frame_valid_sampleTx :
    (afxdpTxSend true sampleTx (some [4]) 1 true).1 = .ok () ∧
      ∃ d, (afxdpTxSend true sampleTx (some [4]) 1 true).2.submitted = sampleTx.submitted ++ [d] ∧
        d.len = 43 ∧ ValidFrame true sampleConfig [4]
          ((afxdpTxSend true sampleTx (some [4]) 1 true).2.ctx.umem.load d.addr d.len) := by
  obtain ⟨hiff, hvalid, -⟩ := sent_frame_valid true sampleConfig (fun _ => 0) sampleTx
    sampleTx_reachable [4] (by decide) (by decide) 1 true
  have hok := hiff.mpr ⟨rfl, by decide +kernel⟩
  exact ⟨hok, hvalid hok⟩

end TradingPipeline.Afxdp
