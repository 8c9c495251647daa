import TradingPipeline.Afxdp.Frame
import TradingPipeline.Lib.Runs

/-! # The transmit path and the kernel

Frames of the UMEM go from the stack of free frames into the TX ring, and come back through the
completion ring. The kernel completes what was submitted in any order and at any time, and each
descriptor once.
-/
namespace TradingPipeline.Afxdp
open Lib

def numFrames : ℕ := 512

/-- The members of `afxdp_tx_ctx`. `freeFrames` are the first `free_count` entries of
`free_frames`, the last one at the head. -/
structure Ctx where
  cfg : Config
  umem : Memory
  freeFrames : List ℕ

/-- The addresses in the order in which `afxdp_tx_init` pushes them. -/
def pushedFrames : List ℕ := ((List.range' 1 (numFrames - 1)).map (· * frameSize)).reverse

/-- `afxdp_tx_init`, for a UMEM with any contents. -/
def afxdpTxInit (avx2 : Bool) (cfg : Config) (umem : Memory) : Ctx where
  cfg := cfg
  umem := buildTemplate avx2 cfg maxPayload umem
  freeFrames := pushedFrames.foldl (fun free addr => addr :: free) []

namespace Ctx

/-- `alloc_frame`. The source has `UINT64_MAX`, which is not an address, for `none`. -/
def allocFrame (ctx : Ctx) : Option (ℕ × Ctx) :=
  match ctx.freeFrames with
  | [] => none
  | addr :: rest => some (addr, { ctx with freeFrames := rest })

def releaseFrame (ctx : Ctx) (addr : ℕ) : Ctx :=
  if numFrames ≤ ctx.freeFrames.length then ctx
  else { ctx with freeFrames := addr :: ctx.freeFrames }

/-- The frame at `addr` is filled for a payload. -/
def fill (avx2 : Bool) (ctx : Ctx) (addr : ℕ) (payload : List UInt8) : Ctx :=
  let frame := fillFrame avx2 ctx.cfg ctx.umem (ctx.umem.behind addr) payload
  { ctx with umem := ctx.umem.store addr (frame.load 0 (hdrTotal + payload.length)) }

end Ctx

structure Desc where
  addr : ℕ
  len : ℕ
  deriving DecidableEq, Repr

/-- The context together with the rings: the descriptors that were submitted and are not yet
completed, and the addresses in the completion ring, oldest first. -/
structure Tx where
  ctx : Ctx
  submitted : List Desc
  completed : List ℕ

/-- `afxdp_tx_drain_completions`. The peek sees some of the completed addresses. -/
def afxdpTxDrainCompletions (t : Tx) (peeked : ℕ) : ℕ × Tx :=
  let addrs := t.completed.take (min peeked numFrames)
  (addrs.length, { t with
    ctx := addrs.foldl Ctx.releaseFrame t.ctx
    completed := t.completed.drop addrs.length })

inductive Errno
  | einval | enospc | eagain
  deriving DecidableEq, Repr

/-- `afxdp_tx_send`. `payload` is `none` for a null pointer, and `reserved` is whether the TX ring
has room. -/
def afxdpTxSend (avx2 : Bool) (t : Tx) (payload : Option (List UInt8)) (peeked : ℕ)
    (reserved : Bool) : Except Errno Unit × Tx :=
  match payload with
  | none => (.error .einval, t)
  | some payload =>
    if payload.length = 0 ∨ maxPayload < payload.length then (.error .einval, t)
    else
      let t := (afxdpTxDrainCompletions t peeked).2
      match t.ctx.allocFrame with
      | none => (.error .enospc, t)
      | some (addr, ctx) =>
        let ctx := ctx.fill avx2 addr payload
        if reserved then
          (.ok (), { t with
            ctx := ctx
            submitted := t.submitted ++ [⟨addr, hdrTotal + payload.length⟩] })
        else (.error .eagain, { t with ctx := ctx.releaseFrame addr })

inductive Action
  | send (payload : Option (List UInt8)) (peeked : ℕ) (reserved : Bool)
  | drain (peeked : ℕ)
  | complete (desc : Desc)
  deriving Repr

/-- The calls, and what the kernel does between them. -/
inductive Step (avx2 : Bool) : Tx → Action → Tx → Prop
  | send (t : Tx) (payload : Option (List UInt8)) (peeked : ℕ) (reserved : Bool) :
      Step avx2 t (.send payload peeked reserved) (afxdpTxSend avx2 t payload peeked reserved).2
  | drain (t : Tx) (peeked : ℕ) :
      Step avx2 t (.drain peeked) (afxdpTxDrainCompletions t peeked).2
  | complete {t : Tx} {desc : Desc} (h : desc ∈ t.submitted) :
      Step avx2 t (.complete desc) { t with
        submitted := t.submitted.erase desc
        completed := t.completed ++ [desc.addr] }

def initialTx (avx2 : Bool) (cfg : Config) (umem : Memory) : Tx where
  ctx := afxdpTxInit avx2 cfg umem
  submitted := []
  completed := []

def Reachable (avx2 : Bool) (cfg : Config) (umem : Memory) (t : Tx) : Prop :=
  ∃ actions, Runs (Step avx2) (initialTx avx2 cfg umem) actions t

end TradingPipeline.Afxdp
