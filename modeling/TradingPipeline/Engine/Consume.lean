import TradingPipeline.Engine.Dispatcher
import TradingPipeline.Itch.SimdDecode
import TradingPipeline.Lib.BoundedLoop
import TradingPipeline.Mold.Packets

/-! # From a payload to events

`consume` walks over the length-prefixed blocks of a payload and hands each to the handler of
its first byte. It checks that a block lies within the payload, but not that it is long enough
for its type: a short block is decoded together with the bytes behind it.
-/
namespace TradingPipeline.Engine
open Lib Mold Itch

/-- The characters that `apply_event` distinguishes. -/
def msgTypeOf : Char → MsgType
  | 'A' => .add
  | 'F' => .addMpid
  | 'X' => .cancelPartial
  | 'D' => .delete
  | 'E' => .execute
  | 'C' => .executeWithPrice
  | 'U' => .replace
  | _ => .other

def eventWith (field : EventField → ℕ) : Event where
  ts := field .ts
  orderId := field .orderId
  aux := field .aux
  price := field .price
  qty := field .qty
  stockLocate := field .stockLocate
  type := msgTypeOf (Char.ofNat (field .type))
  side := Char.ofNat (field .side)

/-- What `consume` reads of a `packet_ref`: the memory behind `data`, and `len` and `ts`. -/
structure Payload where
  data : Memory
  len : ℕ
  ts : ℕ
  ts_lt : ts < 2 ^ 64

section Loop
variable (pshufb : Bool) (stack : ℕ → Memory) (p : Payload)

/-- The event of the block whose message stands at `a`, if its handler makes one. `stack` is
what the memory of `ev` holds before. -/
def Payload.handled (a : ℕ) : Option Event :=
  match dispatchTable pshufb (p.data (a % 2 ^ 32)) with
  | none => none
  | some fn =>
    let (result, ev) := fn (p.data.behind a) (stack a)
    if result = 0 then some (eventWith fun f => f.get (EventField.ts.set p.ts ev)) else none

/-- One turn of the loop over the blocks, with the events applied so far. -/
def Payload.turn (s : ℕ × List Event) : (ℕ × List Event) ⊕ List Event :=
  let offset := s.1
  if (offset + 2) % 2 ^ 32 ≤ p.len then
    let msgSize := be16toh (p.data.uint 2 offset)
    let nextOffset := (offset + 2 + msgSize) % 2 ^ 32
    if p.len < nextOffset then .inr s.2
    else .inl (nextOffset, s.2 ++ (p.handled pshufb stack (offset + 2)).toList)
  else .inr s.2

/-- The events that `consume` applies for a payload. A payload of `len` bytes has less than
`len + 1` blocks. -/
def Payload.consume : Option (List Event) :=
  boundedLoop (p.turn pshufb stack) (p.len + 1) (0, [])

end Loop

def orderMessageOf (c : Char) : Option OrderMessage :=
  [OrderMessage.addOrder, .addOrderMpid, .orderModify, .orderExecutedPrice, .orderCancel,
    .orderDelete, .orderReplace].find? fun k => k.char = c

/-- The event that a message should become. -/
def orderEvent (k : OrderMessage) (ts : ℕ) (msg : Memory) : Event :=
  eventWith fun f => if f = .ts then ts else k.field msg f

/-- The event of a block, decoded from its own bytes, if it is as long as its type asks. -/
def blockEvent (ts : ℕ) (m : List UInt8) : Option Event :=
  match m.head? with
  | none => none
  | some t =>
    match orderMessageOf (Char.ofNat t.toNat) with
    | none => none
    | some k => if k.length ≤ m.length then some (orderEvent k ts fun i => m.getD i 0) else none

/-- The messages of blocks that begin at `off`, with the addresses of their first bytes. -/
def blocksAt : ℕ → List (List UInt8) → List (ℕ × List UInt8)
  | _, [] => []
  | off, m :: ms => (off + 2, m) :: blocksAt (off + 2 + m.length) ms

section Dispatch

theorem lookup_dispatchEntries (c : Char) (pshufb : Bool) :
    match (dispatchEntries pshufb).lookup c with
    | none => orderMessageOf c = none
    | some fn => (∃ k, orderMessageOf c = some k ∧ fn = k.handler pshufb) ∨
      (orderMessageOf c = none ∧ fn = handleNothing) := by
  by_cases hc : c ∈ (dispatchEntries pshufb).map (·.1)
  · simp only [dispatchEntries, List.map_cons, List.map_nil, List.mem_cons, List.not_mem_nil,
      or_false] at hc
    rcases hc with rfl | rfl | rfl | rfl | rfl | rfl | rfl | rfl | rfl | rfl | rfl | rfl | rfl |
      rfl | rfl | rfl | rfl | rfl | rfl | rfl | rfl | rfl | rfl
    all_goals first | exact .inl ⟨_, rfl, rfl⟩ | exact .inr ⟨rfl, rfl⟩
  · have hentries : (dispatchEntries pshufb).lookup c = none := by
      refine List.lookup_eq_none_iff.mpr fun x hx => ?_
      rw [bne_iff_ne]
      rintro rfl
      exact hc (List.mem_map_of_mem hx)
    simp only [dispatchEntries, List.map_cons, List.map_nil, List.mem_cons, List.not_mem_nil,
      or_false, not_or] at hc
    have horder : orderMessageOf c = none :=
      List.find?_eq_none.mpr (by simp [OrderMessage.char, eq_comm, hc])
    rw [hentries]
    exact horder

theorem eventWith_handler (k : OrderMessage) (pshufb : Bool) {ts : ℕ} (hts : ts < 2 ^ 64)
    (msg out : Memory) :
    (eventWith fun f => f.get (EventField.ts.set ts (k.handler pshufb msg out).2)) =
      orderEvent k ts msg := by
  refine congrArg eventWith (funext fun f => ?_)
  by_cases hf : f = .ts
  · rw [if_pos hf, hf]
    exact EventField.get_set_same .ts hts _
  · rw [if_neg hf, EventField.get_set_of_ne hf, handler_field k pshufb msg out hf]

theorem handled_eq (pshufb : Bool) (stack : ℕ → Memory) (p : Payload) {a : ℕ} (ha : a < 2 ^ 32) :
    p.handled pshufb stack a =
      (orderMessageOf (Char.ofNat (p.data a).toNat)).map fun k =>
        orderEvent k p.ts (p.data.behind a) := by
  have hentry := lookup_dispatchEntries (Char.ofNat (p.data a).toNat) pshufb
  unfold Payload.handled dispatchTable
  rw [Nat.mod_eq_of_lt ha]
  cases hl : (dispatchEntries pshufb).lookup (Char.ofNat (p.data a).toNat) with
  | none =>
    rw [hl] at hentry
    rw [hentry]
    rfl
  | some fn =>
    rw [hl] at hentry
    rcases hentry with ⟨k, hk, rfl⟩ | ⟨hk, rfl⟩
    · have hzero : (k.handler pshufb (p.data.behind a) (stack a)).1 = 0 := by rw [handler_eq]
      rw [hk, Option.map_some, ← eventWith_handler k pshufb p.ts_lt _ (stack a)]
      exact if_pos hzero
    · rw [hk]
      rfl

end Dispatch

section Blocks
variable (pshufb : Bool) (stack : ℕ → Memory) {p : Payload} {off : ℕ} (acc : List Event)
  {ms : List (List UInt8)} {m rest tail : List UInt8}

theorem msgSize_eq (hoff : off + 2 ≤ p.len) :
    be16toh (p.data.uint 2 off) = readBE ((p.data.load off (p.len - off)).take 2) := by
  rw [Memory.take_load _ _ (by omega)]
  exact beToH_uint p.data 2 off

theorem turn_of_incomplete (hlen : p.len + 65537 < 2 ^ 32) (hoff : off ≤ p.len)
    (hinc : Incomplete (p.data.load off (p.len - off))) :
    p.turn pshufb stack (off, acc) = .inr acc := by
  unfold Payload.turn
  dsimp only
  rw [Nat.mod_eq_of_lt (a := off + 2) (by omega)]
  by_cases hle : off + 2 ≤ p.len
  · have hsize := readBE_lt ((p.data.load off (p.len - off)).take 2)
    rw [List.length_take, Memory.load_length, Nat.min_eq_left (by omega)] at hsize
    unfold Incomplete at hinc
    rw [Memory.load_length] at hinc
    rw [if_pos hle, msgSize_eq hle, Nat.mod_eq_of_lt (by omega), if_pos (by omega)]
  · rw [if_neg hle]

theorem turn_of_block (hlen : p.len + 65537 < 2 ^ 32) (hoff : off ≤ p.len)
    (hm : m.length < 2 ^ 16) (hdata : p.data.load off (p.len - off) = block m ++ rest) :
    p.turn pshufb stack (off, acc) =
      .inl (off + 2 + m.length, acc ++ (p.handled pshufb stack (off + 2)).toList) := by
  have hinside : off + 2 + m.length ≤ p.len := by
    have hlength := congrArg List.length hdata
    rw [Memory.load_length, List.length_append, block_length] at hlength
    omega
  unfold Payload.turn
  dsimp only
  rw [Nat.mod_eq_of_lt (a := off + 2) (by omega), if_pos (by omega), msgSize_eq (by omega), hdata,
    readBE_block hm, Nat.mod_eq_of_lt (by omega), if_neg (by omega)]

theorem load_behind_block (hoff : off ≤ p.len)
    (hdata : p.data.load off (p.len - off) = block m ++ rest) :
    off + 2 + m.length ≤ p.len ∧ p.data.load (off + 2) m.length = m ∧
      p.data.load (off + 2 + m.length) (p.len - (off + 2 + m.length)) = rest := by
  have hlength := congrArg List.length hdata
  rw [Memory.load_length, List.length_append, block_length] at hlength
  have hinside : off + 2 + m.length ≤ p.len := by omega
  obtain ⟨n, hn⟩ : ∃ n, p.len - off = 2 + (m.length + n) := ⟨p.len - (off + 2 + m.length), by omega⟩
  rw [hn, Memory.load_add, Memory.load_add, block, List.append_assoc] at hdata
  obtain ⟨_, hdata⟩ := List.append_inj hdata (by simp)
  obtain ⟨hmsg, hrest⟩ := List.append_inj hdata (by simp)
  have hn' : p.len - (off + 2 + m.length) = n := by omega
  exact ⟨hinside, hmsg, hn' ▸ hrest⟩

theorem boundedLoop_turn (hlen : p.len + 65537 < 2 ^ 32) (hms : ∀ m ∈ ms, m.length < 2 ^ 16)
    (htail : Incomplete tail) (hoff : off ≤ p.len)
    (hdata : p.data.load off (p.len - off) = ms.flatMap block ++ tail) {n : ℕ}
    (hn : ms.length < n) :
    boundedLoop (p.turn pshufb stack) n (off, acc) =
      some (acc ++ (blocksAt off ms).filterMap fun x => p.handled pshufb stack x.1) := by
  induction ms generalizing off acc n with
  | nil =>
    obtain ⟨n, rfl⟩ : ∃ k, n = k + 1 := ⟨n - 1, by omega⟩
    have hturn := turn_of_incomplete pshufb stack acc hlen hoff (hdata ▸ htail)
    simp only [boundedLoop, hturn, blocksAt, List.filterMap_nil, List.append_nil]
  | cons m ms ih =>
    rw [List.length_cons] at hn
    obtain ⟨n, rfl⟩ : ∃ k, n = k + 1 := ⟨n - 1, by omega⟩
    rw [List.flatMap_cons, List.append_assoc] at hdata
    have hturn := turn_of_block pshufb stack acc hlen hoff (hms m List.mem_cons_self) hdata
    obtain ⟨hinside, _, hrest⟩ := load_behind_block hoff hdata
    have hloop := ih (acc ++ (p.handled pshufb stack (off + 2)).toList)
      (fun x hx => hms x (List.mem_cons_of_mem m hx)) hinside hrest (n := n) (by omega)
    rw [boundedLoop, hturn]
    dsimp only
    rw [hloop, blocksAt, List.filterMap_cons, List.append_assoc]
    cases p.handled pshufb stack (off + 2) <;> rfl

theorem load_of_mem_blocksAt (hoff : off ≤ p.len)
    (hdata : p.data.load off (p.len - off) = ms.flatMap block ++ tail) {x : ℕ × List UInt8}
    (hx : x ∈ blocksAt off ms) : x.1 ≤ p.len ∧ p.data.load x.1 x.2.length = x.2 := by
  induction ms generalizing off with
  | nil => cases hx
  | cons m ms ih =>
    rw [List.flatMap_cons, List.append_assoc] at hdata
    obtain ⟨hinside, hmsg, hrest⟩ := load_behind_block hoff hdata
    rcases List.mem_cons.mp hx with rfl | hx
    · exact ⟨by omega, hmsg⟩
    · exact ih hinside hrest hx

theorem blocksAt_map_snd (off : ℕ) (ms : List (List UInt8)) : (blocksAt off ms).map (·.2) = ms := by
  induction ms generalizing off with
  | nil => rfl
  | cons m ms ih => rw [blocksAt, List.map_cons, ih]

end Blocks

/-- The block of a message is as long as the type at its address asks. -/
def Payload.LongEnough (p : Payload) (x : ℕ × List UInt8) : Prop :=
  ∀ k ∈ orderMessageOf (Char.ofNat (p.data x.1).toNat), k.length ≤ x.2.length

instance (p : Payload) (x : ℕ × List UInt8) : Decidable (p.LongEnough x) :=
  inferInstanceAs (Decidable (∀ k ∈ orderMessageOf _, _))

section Lengths
variable (pshufb : Bool) (stack : ℕ → Memory) {p : Payload} {x : ℕ × List UInt8}

theorem longEnough_none (h : orderMessageOf (Char.ofNat (p.data x.1).toNat) = none) :
    p.LongEnough x := by
  simp [Payload.LongEnough, h]

theorem longEnough_some {k : OrderMessage}
    (h : orderMessageOf (Char.ofNat (p.data x.1).toNat) = some k) :
    p.LongEnough x ↔ k.length ≤ x.2.length := by
  simp [Payload.LongEnough, h]

theorem blockEvent_load (p : Payload) (a : ℕ) {n : ℕ} (hn : n ≠ 0) :
    blockEvent p.ts (p.data.load a n) =
      match orderMessageOf (Char.ofNat (p.data a).toNat) with
      | none => none
      | some k => if k.length ≤ n then some (orderEvent k p.ts (p.data.behind a)) else none := by
  unfold blockEvent
  rw [Memory.head?_load _ _ hn]
  dsimp only
  cases orderMessageOf (Char.ofNat (p.data a).toNat) with
  | none => rfl
  | some k =>
    rw [Memory.load_length]
    by_cases hk : k.length ≤ n
    · have hfield : ∀ f, k.field (fun i => (p.data.load a n).getD i 0) f =
          k.field (p.data.behind a) f :=
        k.field_congr fun i hi => Memory.getD_load _ _ (by omega) 0
      simp only [if_pos hk, orderEvent, hfield]
    · simp only [if_neg hk]

theorem length_pos (k : OrderMessage) : 0 < k.length := by
  cases k <;> decide

theorem blockEvent_eq (ha : x.1 < 2 ^ 32) (hload : p.data.load x.1 x.2.length = x.2) :
    blockEvent p.ts x.2 = if p.LongEnough x then p.handled pshufb stack x.1 else none := by
  rw [handled_eq pshufb stack p ha]
  by_cases hempty : x.2.length = 0
  · have hnone : blockEvent p.ts x.2 = none := by
      rw [List.length_eq_zero_iff.mp hempty]
      rfl
    rw [hnone]
    cases hk : orderMessageOf (Char.ofNat (p.data x.1).toNat) with
    | none => simp
    | some k =>
      have hpos := length_pos k
      rw [if_neg (by rw [longEnough_some hk]; omega)]
  · have hevent := blockEvent_load p x.1 hempty
    rw [hload] at hevent
    rw [hevent]
    cases hk : orderMessageOf (Char.ofNat (p.data x.1).toNat) with
    | none => simp
    | some k => simp only [longEnough_some hk, Option.map_some]

/-- A block that is too short makes an event nevertheless. -/
theorem handled_isSome_of_short (ha : x.1 < 2 ^ 32) (h : ¬p.LongEnough x) :
    (p.handled pshufb stack x.1).isSome := by
  rw [handled_eq pshufb stack p ha, Option.isSome_map]
  cases hk : orderMessageOf (Char.ofNat (p.data x.1).toNat) with
  | none => exact absurd (longEnough_none hk) h
  | some k => rfl

end Lengths

theorem filterMap_ite_eq_iff {α β : Type*} {f : α → Option β} {P : α → Prop} [DecidablePred P]
    {l : List α} (hf : ∀ x ∈ l, ¬P x → (f x).isSome) :
    l.filterMap f = l.filterMap (fun x => if P x then f x else none) ↔ ∀ x ∈ l, P x := by
  induction l with
  | nil => simp
  | cons x l ih =>
    have ih := ih fun y hy => hf y (List.mem_cons_of_mem x hy)
    by_cases hx : P x
    · rw [List.filterMap_cons, List.filterMap_cons, if_pos hx, List.forall_mem_cons,
        and_iff_right hx, ← ih]
      cases f x with
      | none => exact Iff.rfl
      | some v => exact List.cons_inj_right v
    · obtain ⟨v, hv⟩ := Option.isSome_iff_exists.mp (hf x List.mem_cons_self hx)
      refine iff_of_false (fun heq => ?_) fun h => hx (h x List.mem_cons_self)
      have hle : (l.filterMap fun y => if P y then f y else none).length ≤
          (l.filterMap f).length := by
        rw [List.length_filterMap_eq_countP, List.length_filterMap_eq_countP]
        refine List.countP_mono_left fun y _ hy => ?_
        by_cases hPy : P y
        · rwa [if_pos hPy] at hy
        · rw [if_neg hPy] at hy
          cases hy
      have hlength := congrArg List.length heq
      simp only [List.filterMap_cons, hv, if_neg hx, List.length_cons] at hlength
      omega

/-- The events that `consume` applies are those of the blocks in the payload that are as long
as their types ask, if and only if all blocks are. -/
theorem consume_exact_iff (pshufb : Bool) (stack : ℕ → Memory) (p : Payload)
    (hlen : p.len + 65537 < 2 ^ 32) :
    p.consume pshufb stack =
        some ((messages (p.data.load 0 p.len)).filterMap (blockEvent p.ts)) ↔
      ∀ x ∈ blocksAt 0 (messages (p.data.load 0 p.len)), p.LongEnough x := by
  obtain ⟨ms, tail, hdata, hms, htail⟩ := exists_blocks (p.data.load 0 p.len)
  have hcount : ms.length < p.len + 1 := by
    have hle := length_le_blocks_append ms tail
    rw [← hdata, Memory.load_length] at hle
    omega
  have hloop := boundedLoop_turn pshufb stack [] hlen hms htail (Nat.zero_le _) hdata hcount
  have hload := fun x (hx : x ∈ blocksAt 0 ms) => load_of_mem_blocksAt (Nat.zero_le _) hdata hx
  have haddr : ∀ x ∈ blocksAt 0 ms, x.1 < 2 ^ 32 := by
    intro x hx
    have hle := (hload x hx).1
    omega
  have hspec : ms.filterMap (blockEvent p.ts) = (blocksAt 0 ms).filterMap fun x =>
      if p.LongEnough x then p.handled pshufb stack x.1 else none := by
    conv_lhs => rw [← blocksAt_map_snd 0 ms]
    rw [List.filterMap_map]
    refine List.filterMap_congr fun x hx => ?_
    exact blockEvent_eq pshufb stack (haddr x hx) (hload x hx).2
  rw [hdata, messages_append hms htail, Payload.consume, hloop, List.nil_append, hspec,
    Option.some_inj]
  exact filterMap_ite_eq_iff fun x hx h => handled_isSome_of_short pshufb stack (haddr x hx) h

/-- A payload in memory that holds zeros behind it. -/
def payloadOf (bytes : List UInt8) : Payload where
  data := fun i => bytes.getD i 0
  len := bytes.length
  ts := 0
  ts_lt := by decide

def sampleDelete : List UInt8 := 'D'.toUInt8 :: writeBE 2 1 ++ writeBE 8 0 ++ writeBE 8 7

theorem consume_exact_iff_sampleDelete :
    (payloadOf (block sampleDelete)).consume true (fun _ _ => 0xFF) =
      some ((messages ((payloadOf (block sampleDelete)).data.load 0 21)).filterMap
        (blockEvent 0)) :=
  (consume_exact_iff true _ (payloadOf (block sampleDelete)) (by decide)).mpr (by decide +kernel)

/-- A block with nothing but the type of a delete message, and a whole one behind it. -/
def shortThenWhole : Payload := payloadOf (block ['D'.toUInt8] ++ block sampleDelete)

/-- Two deletes are applied, the first one with the length and the first bytes of the second
block for its fields, where only the second block is long enough. -/
theorem short_block_applied :
    ((shortThenWhole.consume true fun _ _ => 0xFF).map fun events =>
        events.map fun e => (e.type, e.stockLocate, e.orderId)) =
      some [(.delete, 19, 0), (.delete, 1, 7)] ∧
    ((messages (shortThenWhole.data.load 0 shortThenWhole.len)).filterMap (blockEvent 0)).map
        (fun e => (e.type, e.stockLocate, e.orderId)) = [(.delete, 1, 7)] := by
  decide +kernel

end TradingPipeline.Engine
