import TradingPipeline.Itch.Handlers

/-! # Both ways to decode a message

The PSHUFB kernels make the same assignments as the scalar code. An event is then described
field by field: each of its fields, but for `ts`, is zero or a big-endian member of the message.
-/
namespace TradingPipeline.Itch
open Lib

section Fields
variable {f g : EventField} {v : ℕ} {out : Memory}

theorem EventField.disjoint (h : f ≠ g) :
    f.offset + f.size ≤ g.offset ∨ g.offset + g.size ≤ f.offset := by
  revert h
  cases f <;> cases g <;> decide

theorem EventField.get_set_same (f : EventField) (hv : v < 256 ^ f.size) (out : Memory) :
    f.get (f.set v out) = v := out.uint_store_same f.offset hv

theorem EventField.get_set_of_ne (h : f ≠ g) (v : ℕ) (out : Memory) :
    f.get (g.set v out) = f.get out := by
  refine Memory.uint_store_of_disjoint ?_
  rw [writeLE_length]
  exact EventField.disjoint h

theorem EventField.store_eq_set (f : EventField) {bs : List UInt8} (hbs : bs.length = f.size)
    (out : Memory) : out.store f.offset bs = f.set (readLE bs) out := by
  rw [set, ← hbs, writeLE_readLE]

end Fields

section Conversions
variable (msg : Memory)

theorem beToH_readLE (bs : List UInt8) : beToH bs.length (readLE bs) = readBE bs := by
  rw [beToH, writeLE_readLE]

theorem beToH_uint (w a : ℕ) : beToH w (msg.uint w a) = readBE (msg.load a w) := by
  have h := beToH_readLE (msg.load a w)
  rwa [Memory.load_length] at h

end Conversions

section Kernels
variable (msg out : Memory)

theorem simdUnpackAf_eq : simdUnpackAf msg out =
    EventField.side.set (readBE (msg.load 19 1)) (EventField.qty.set (readBE (msg.load 20 4))
      (EventField.orderId.set (readBE (msg.load 11 8)) out)) := by
  have hid : (shuffleEpi8 (loadu msg 8) maskAf).bytes 0 8 = (msg.load 11 8).reverse := rfl
  have hqty : (shuffleEpi8 (loadu msg 8) maskAf).bytes 8 4 = (msg.load 20 4).reverse := rfl
  have hside : (shuffleEpi8 (loadu msg 8) maskAf).bytes 12 1 = (msg.load 19 1).reverse := rfl
  simp only [simdUnpackAf, storel, extractEpi32, extractEpi8, hid, hqty, hside, readLE_reverse]
  rw [EventField.orderId.store_eq_set (by simp [EventField.size]), readLE_reverse]

theorem simdUnpackEx_eq : simdUnpackEx msg out =
    EventField.qty.set (readBE (msg.load 19 4))
      (EventField.orderId.set (readBE (msg.load 11 8)) out) := by
  have hid : (shuffleEpi8 (loadu msg 8) maskEx).bytes 0 8 = (msg.load 11 8).reverse := rfl
  have hqty : (shuffleEpi8 (loadu msg 8) maskEx).bytes 8 4 = (msg.load 19 4).reverse := rfl
  simp only [simdUnpackEx, storel, extractEpi32, hid, hqty, readLE_reverse]
  rw [EventField.orderId.store_eq_set (by simp [EventField.size]), readLE_reverse]

theorem simdUnpackD_eq : simdUnpackD msg out =
    EventField.orderId.set (readBE (msg.load 11 8)) out := by
  have hid : (shuffleEpi8 (loadu msg 11) maskD).bytes 0 8 = (msg.load 11 8).reverse := rfl
  rw [simdUnpackD, storel, hid, EventField.orderId.store_eq_set (by simp [EventField.size]),
    readLE_reverse]

theorem simdUnpackU_eq : simdUnpackU msg out =
    EventField.aux.set (readBE (msg.load 19 8))
      (EventField.orderId.set (readBE (msg.load 11 8)) out) := by
  have hboth : (shuffleEpi8 (loadu msg 11) maskU).bytes 0 16 =
      (msg.load 11 8).reverse ++ (msg.load 19 8).reverse := rfl
  have hnext : EventField.orderId.offset + (msg.load 11 8).reverse.length =
      EventField.aux.offset := by simp [EventField.offset]
  rw [simdUnpackU, storeu, hboth, Memory.store_append, hnext,
    EventField.orderId.store_eq_set (by simp [EventField.size]),
    EventField.aux.store_eq_set (by simp [EventField.size]), readLE_reverse, readLE_reverse]

end Kernels

section Assignments
variable {f : EventField} {v : ℕ} {l : List (EventField × ℕ)}

def assign (l : List (EventField × ℕ)) (out : Memory) : Memory :=
  l.foldl (fun out x => x.1.set x.2 out) out

theorem get_assign_of_notMem (hf : f ∉ l.map (·.1)) (out : Memory) :
    f.get (assign l out) = f.get out := by
  induction l generalizing out with
  | nil => rfl
  | cons x l ih =>
    rw [List.map_cons, List.mem_cons, not_or] at hf
    exact (ih hf.2 _).trans (EventField.get_set_of_ne hf.1 _ _)

theorem get_assign (hl : (l.map (·.1)).Nodup) (hx : (f, v) ∈ l) (hv : v < 256 ^ f.size)
    (out : Memory) : f.get (assign l out) = v := by
  induction l generalizing out with
  | nil => cases hx
  | cons x l ih =>
    rw [List.map_cons, List.nodup_cons] at hl
    rcases List.mem_cons.mp hx with rfl | hx
    · exact (get_assign_of_notMem hl.1 _).trans (f.get_set_same hv out)
    · exact ih hl.2 hx _

end Assignments

section Handlers
variable (pshufb : Bool) (msg out : Memory)

theorem toNat_eq_readBE (a : ℕ) : (msg a).toNat = readBE (msg.load a 1) := (Nat.zero_add _).symm

theorem uint_one (a : ℕ) : msg.uint 1 a = readBE (msg.load a 1) := toNat_eq_readBE msg a

theorem handleAdd_eq {s : Packed} (hid : s.read msg .orderReferenceNumber = msg.uint 8 11)
    (hshares : s.read msg .shares = msg.uint 4 20)
    (hside : s.read msg .buySellIndicator = msg.uint 1 19) :
    handleAdd pshufb s msg out = (0, assign
      [(.aux, 0), (.type, readBE (msg.load 0 1)), (.stockLocate, readBE (msg.load 1 2)),
        (.price, readBE (msg.load 32 4)), (.orderId, readBE (msg.load 11 8)),
        (.qty, readBE (msg.load 20 4)), (.side, readBE (msg.load 19 1))] out) := by
  cases pshufb <;>
    simp only [handleAdd, ↓reduceIte, Bool.false_eq_true, simdUnpackAf_eq, hid, hshares, hside,
      be16toh, be32toh, be64toh, beToH_uint, uint_one, toNat_eq_readBE, assign, List.foldl]

theorem handleTake_eq {s : Packed} {taken : ItchField}
    (hid : s.read msg .orderReferenceNumber = msg.uint 8 11)
    (htaken : s.read msg taken = msg.uint 4 19) :
    handleTake pshufb s taken msg out = (0, assign
      [(.aux, 0), (.type, readBE (msg.load 0 1)), (.stockLocate, readBE (msg.load 1 2)),
        (.price, 0), (.side, 0), (.orderId, readBE (msg.load 11 8)),
        (.qty, readBE (msg.load 19 4))] out) := by
  cases pshufb <;>
    simp only [handleTake, ↓reduceIte, Bool.false_eq_true, simdUnpackEx_eq, hid, htaken, be16toh,
      be32toh, be64toh, beToH_uint, toNat_eq_readBE, assign, List.foldl]

theorem handleOrderExecutedPrice_eq : handleOrderExecutedPrice pshufb msg out = (0, assign
    [(.aux, 0), (.type, readBE (msg.load 0 1)), (.stockLocate, readBE (msg.load 1 2)), (.side, 0),
      (.orderId, readBE (msg.load 11 8)), (.qty, readBE (msg.load 19 4)),
      (.price, readBE (msg.load 32 4))] out) := by
  have hid : itchOrderExecutedPrice.read msg .orderReferenceNumber = msg.uint 8 11 := rfl
  have hshares : itchOrderExecutedPrice.read msg .executedShares = msg.uint 4 19 := rfl
  cases pshufb <;>
    simp only [handleOrderExecutedPrice, ↓reduceIte, Bool.false_eq_true, simdUnpackEx_eq, hid,
      hshares, be16toh, be32toh, be64toh, beToH_uint, toNat_eq_readBE, assign, List.foldl]

theorem handleOrderDelete_eq : handleOrderDelete pshufb msg out = (0, assign
    [(.aux, 0), (.type, readBE (msg.load 0 1)), (.stockLocate, readBE (msg.load 1 2)), (.qty, 0),
      (.price, 0), (.side, 0), (.orderId, readBE (msg.load 11 8))] out) := by
  have hid : itchOrderDelete.read msg .orderReferenceNumber = msg.uint 8 11 := rfl
  cases pshufb <;>
    simp only [handleOrderDelete, ↓reduceIte, Bool.false_eq_true, simdUnpackD_eq, hid, be16toh,
      be64toh, beToH_uint, toNat_eq_readBE, assign, List.foldl]

theorem handleOrderReplace_eq : handleOrderReplace pshufb msg out = (0, assign
    [(.type, readBE (msg.load 0 1)), (.stockLocate, readBE (msg.load 1 2)), (.side, 0),
      (.qty, readBE (msg.load 27 4)), (.price, readBE (msg.load 31 4)),
      (.orderId, readBE (msg.load 11 8)), (.aux, readBE (msg.load 19 8))] out) := by
  have hold : itchOrderReplace.read msg .originalOrderReferenceNumber = msg.uint 8 11 := rfl
  have hnew : itchOrderReplace.read msg .newOrderReferenceNumber = msg.uint 8 19 := rfl
  cases pshufb <;>
    simp only [handleOrderReplace, ↓reduceIte, Bool.false_eq_true, simdUnpackU_eq, hold, hnew,
      be16toh, be32toh, be64toh, beToH_uint, toNat_eq_readBE, assign, List.foldl]

end Handlers

namespace OrderMessage

/-- The member of the message that an event takes a field from. -/
def source : OrderMessage → EventField → Option ItchField
  | .orderReplace, .orderId => some .originalOrderReferenceNumber
  | .orderReplace, .aux => some .newOrderReferenceNumber
  | _, .orderId => some .orderReferenceNumber
  | .addOrder, .qty | .addOrderMpid, .qty | .orderReplace, .qty => some .shares
  | .orderModify, .qty | .orderExecutedPrice, .qty => some .executedShares
  | .orderCancel, .qty => some .cancelledShares
  | .addOrder, .price | .addOrderMpid, .price | .orderReplace, .price => some .price
  | .orderExecutedPrice, .price => some .executionPrice
  | .addOrder, .side | .addOrderMpid, .side => some .buySellIndicator
  | _, _ => none

/-- Where that member stands. The type and the locate are in the header. -/
def place (k : OrderMessage) : EventField → Option ℕ
  | .type => some 0
  | .stockLocate => some 1
  | f => (k.source f).map k.struct.offset

def field (k : OrderMessage) (msg : Memory) (f : EventField) : ℕ :=
  match k.place f with
  | some a => readBE (msg.load a f.size)
  | none => 0

/-- The fields in the order in which the scalar code assigns them. -/
def assigned : OrderMessage → List EventField
  | .addOrder | .addOrderMpid => [.aux, .type, .stockLocate, .price, .orderId, .qty, .side]
  | .orderModify | .orderCancel => [.aux, .type, .stockLocate, .price, .side, .orderId, .qty]
  | .orderExecutedPrice => [.aux, .type, .stockLocate, .side, .orderId, .qty, .price]
  | .orderDelete => [.aux, .type, .stockLocate, .qty, .price, .side, .orderId]
  | .orderReplace => [.type, .stockLocate, .side, .qty, .price, .orderId, .aux]

theorem assigned_nodup (k : OrderMessage) : k.assigned.Nodup := by
  cases k <;> decide

theorem place_le (k : OrderMessage) (f : EventField) :
    ∀ a ∈ k.place f, a + f.size ≤ k.length := by
  cases k <;> cases f <;> decide

theorem field_lt (k : OrderMessage) (msg : Memory) (f : EventField) :
    k.field msg f < 256 ^ f.size := by
  unfold field
  split
  · next a _ =>
    have hlt := readBE_lt (msg.load a f.size)
    rwa [Memory.load_length] at hlt
  · exact Nat.pow_pos (by decide)

theorem field_congr (k : OrderMessage) {msg msg' : Memory} (h : ∀ i < k.length, msg' i = msg i)
    (f : EventField) : k.field msg' f = k.field msg f := by
  unfold field
  split
  · next a ha =>
    have hle := k.place_le f a ha
    rw [Memory.load_congr fun i _ hi => h i (by omega)]
  · rfl

end OrderMessage

theorem handler_eq (k : OrderMessage) (pshufb : Bool) (msg out : Memory) :
    k.handler pshufb msg out = (0, assign (k.assigned.map fun f => (f, k.field msg f)) out) := by
  cases k with
  | addOrder => exact handleAdd_eq pshufb msg out rfl rfl rfl
  | addOrderMpid => exact handleAdd_eq pshufb msg out rfl rfl rfl
  | orderModify => exact handleTake_eq pshufb msg out rfl rfl
  | orderExecutedPrice => exact handleOrderExecutedPrice_eq pshufb msg out
  | orderCancel => exact handleTake_eq pshufb msg out rfl rfl
  | orderDelete => exact handleOrderDelete_eq pshufb msg out
  | orderReplace => exact handleOrderReplace_eq pshufb msg out

theorem handler_field (k : OrderMessage) (pshufb : Bool) (msg out : Memory) {f : EventField}
    (hf : f ≠ .ts) : f.get (k.handler pshufb msg out).2 = k.field msg f := by
  have hmem : f ∈ k.assigned := by
    revert hf
    cases k <;> cases f <;> decide
  have hassigned : (f, k.field msg f) ∈ k.assigned.map fun f => (f, k.field msg f) :=
    List.mem_map_of_mem hmem
  rw [handler_eq]
  refine get_assign ?_ hassigned (k.field_lt msg f) out
  rw [List.map_map]
  exact (List.map_id k.assigned).symm ▸ k.assigned_nodup

/-- The kernels decode a message as the scalar code does, whatever the memory of the event held
before, and the bytes behind the message do not matter. -/
theorem simd_decode_eq_scalar (k : OrderMessage) (msg out out' : Memory) :
    (k.handler true msg out).1 = (k.handler false msg out').1 ∧
      (∀ f : EventField, f ≠ .ts →
        f.get (k.handler true msg out).2 = f.get (k.handler false msg out').2) ∧
      ∀ msg' : Memory, (∀ i < k.length, msg' i = msg i) →
        ∀ f : EventField, f ≠ .ts →
          f.get (k.handler true msg' out').2 = f.get (k.handler true msg out).2 := by
  refine ⟨by simp only [handler_eq], fun f hf => ?_, fun msg' hmsg f hf => ?_⟩
  · rw [handler_field k true msg out hf, handler_field k false msg out' hf]
  · rw [handler_field k true msg' out' hf, handler_field k true msg out hf,
      k.field_congr hmsg f]

example : [OrderMessage.addOrder, .addOrderMpid, .orderModify, .orderCancel, .orderExecutedPrice,
    .orderDelete, .orderReplace].map OrderMessage.length = [36, 40, 31, 23, 36, 19, 35] := by
  decide

end TradingPipeline.Itch
