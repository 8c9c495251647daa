import TradingPipeline.Lib.Bytes
import TradingPipeline.Order.Ring

/-! # The order message on the wire

`wire_order` as the 36 bytes that it has in memory, and its checksum: the 16-bit
ones' complement sum over all fields before it.
-/
namespace TradingPipeline.OrderSession
open Lib OrderRing

structure WireOrder where
  msgType : UInt8
  side : UInt8
  symbolId : UInt16
  qty : UInt32
  price : UInt32
  pad0 : UInt32
  seq : UInt64
  ts : UInt64
  checksum : UInt16
  pad1 : UInt16
  deriving DecidableEq, Repr

def wireMsgNew : UInt8 := 78
def wireMsgCancel : UInt8 := 67

def wireOrderSize : ℕ := 36

def WireOrder.bytes (o : WireOrder) : List UInt8 :=
  writeLE 1 o.msgType.toNat ++ (writeLE 1 o.side.toNat ++ (writeLE 2 o.symbolId.toNat ++
    (writeLE 4 o.qty.toNat ++ (writeLE 4 o.price.toNat ++ (writeLE 4 o.pad0.toNat ++
      (writeLE 8 o.seq.toNat ++ (writeLE 8 o.ts.toNat ++
        (writeLE 2 o.checksum.toNat ++ writeLE 2 o.pad1.toNat))))))))

/-- `memcpy(&o, buf, sizeof(o))`. -/
def WireOrder.ofBytes (buf : List UInt8) : WireOrder where
  msgType := .ofNat (readLE (buf.take 1))
  side := .ofNat (readLE ((buf.drop 1).take 1))
  symbolId := .ofNat (readLE ((buf.drop 2).take 2))
  qty := .ofNat (readLE ((buf.drop 4).take 4))
  price := .ofNat (readLE ((buf.drop 8).take 4))
  pad0 := .ofNat (readLE ((buf.drop 12).take 4))
  seq := .ofNat (readLE ((buf.drop 16).take 8))
  ts := .ofNat (readLE ((buf.drop 24).take 8))
  checksum := .ofNat (readLE ((buf.drop 32).take 2))
  pad1 := .ofNat (readLE ((buf.drop 34).take 2))

/-- `sum += word`, with the carry added back in. -/
def addWord (sum word : UInt32) : UInt32 :=
  if 0xFFFF < sum + word then ((sum + word) &&& 0xFFFF) + 1 else sum + word

def checksumLoop (sum : UInt32) : List UInt8 → UInt32
  | lo :: hi :: buf => checksumLoop (addWord sum (lo.toUInt32 ||| (hi.toUInt32 <<< 8))) buf
  | [last] => addWord sum last.toUInt32
  | [] => sum

def wireChecksum (buf : List UInt8) : UInt16 := (~~~(checksumLoop 0 buf) &&& 0xFFFF).toUInt16

/-- `wire_checksum` with the field zeroed, over what precedes it. -/
def WireOrder.wantCsum (o : WireOrder) : UInt16 :=
  wireChecksum (({ o with checksum := 0 } : WireOrder).bytes.take
    (wireOrderSize - 2 - 2))

/-- The last two assignments before a message is sent. -/
def WireOrder.withChecksum (o : WireOrder) : WireOrder := { o with checksum := o.wantCsum }

def wireOrder (slot : Order) (nextSeq sendNs : UInt64) : WireOrder :=
  WireOrder.withChecksum
    { msgType := if UInt32.ofNat (slot .qty) = 0 then wireMsgCancel else wireMsgNew
      side := .ofNat (slot .side)
      symbolId := .ofNat (slot .stockLocate)
      qty := .ofNat (slot .qty)
      price := .ofNat (slot .price)
      pad0 := 0
      seq := nextSeq
      ts := sendNs
      checksum := 0
      pad1 := 0 }

@[simp] theorem wireOrder_seq (slot : Order) (nextSeq sendNs : UInt64) :
    (wireOrder slot nextSeq sendNs).seq = nextSeq := rfl

@[simp] theorem WireOrder.bytes_length (o : WireOrder) : o.bytes.length = wireOrderSize := by
  simp [WireOrder.bytes, wireOrderSize]

theorem WireOrder.ofBytes_bytes (o : WireOrder) : WireOrder.ofBytes o.bytes = o := by
  have hlast : (writeLE 2 o.pad1.toNat).take 2 = writeLE 2 o.pad1.toNat := rfl
  simp [WireOrder.ofBytes, WireOrder.bytes, drop_writeLE_append, hlast, readLE_writeLE_uint8,
    readLE_writeLE_uint16, readLE_writeLE_uint32, readLE_writeLE_uint64]

end TradingPipeline.OrderSession
