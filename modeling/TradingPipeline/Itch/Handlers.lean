import TradingPipeline.Lib.Memory

/-! # The handlers of ITCH messages

A handler reads a message at fixed offsets and writes an `event`. Both are bytes in memory: the
kernels for PSHUFB load and store 16 bytes at a time, across the bounds of fields and, for
short messages, past the end. `pshufb` is whether the kernels are compiled in.
-/
namespace TradingPipeline.Itch
open Lib

inductive EventField
  | ts | orderId | aux | price | qty | stockLocate | type | side
  deriving DecidableEq, Repr

namespace EventField

def size : EventField → ℕ
  | .ts | .orderId | .aux => 8
  | .price | .qty => 4
  | .stockLocate => 2
  | .type | .side => 1

def offset : EventField → ℕ
  | .ts => 0
  | .orderId => 8
  | .aux => 16
  | .price => 24
  | .qty => 28
  | .stockLocate => 32
  | .type => 34
  | .side => 35

def get (f : EventField) (out : Memory) : ℕ := out.uint f.size f.offset

def set (f : EventField) (v : ℕ) (out : Memory) : Memory := out.store f.offset (writeLE f.size v)

end EventField

/-- The conversion of a big-endian integer of `w` bytes that was loaded by a little-endian
machine. -/
def beToH (w x : ℕ) : ℕ := readBE (writeLE w x)

def be16toh : ℕ → ℕ := beToH 2
def be32toh : ℕ → ℕ := beToH 4
def be64toh : ℕ → ℕ := beToH 8

section Packed

/-- The members of the packed structs of the order messages. -/
inductive ItchField
  | header | orderReferenceNumber | buySellIndicator | shares | stock | price | attribution
  | executedShares | matchNumber | printable | executionPrice | cancelledShares
  | originalOrderReferenceNumber | newOrderReferenceNumber
  deriving DecidableEq, Repr

/-- A packed struct: its members with their sizes. -/
abbrev Packed := List (ItchField × ℕ)

namespace Packed

def size (s : Packed) : ℕ := (s.map (·.2)).sum

def offset (s : Packed) (f : ItchField) : ℕ := ((s.takeWhile fun x => x.1 ≠ f).map (·.2)).sum

def width (s : Packed) (f : ItchField) : ℕ := (s.lookup f).getD 0

/-- `ptr->f`. -/
def read (s : Packed) (msg : Memory) (f : ItchField) : ℕ := msg.uint (s.width f) (s.offset f)

end Packed

def itchAddOrder : Packed :=
  [(.header, 11), (.orderReferenceNumber, 8), (.buySellIndicator, 1), (.shares, 4), (.stock, 8),
    (.price, 4)]

def itchAddOrderMpid : Packed :=
  [(.header, 11), (.orderReferenceNumber, 8), (.buySellIndicator, 1), (.shares, 4), (.stock, 8),
    (.price, 4), (.attribution, 4)]

def itchOrderModify : Packed :=
  [(.header, 11), (.orderReferenceNumber, 8), (.executedShares, 4), (.matchNumber, 8)]

def itchOrderExecutedPrice : Packed :=
  [(.header, 11), (.orderReferenceNumber, 8), (.executedShares, 4), (.matchNumber, 8),
    (.printable, 1), (.executionPrice, 4)]

def itchOrderCancel : Packed :=
  [(.header, 11), (.orderReferenceNumber, 8), (.cancelledShares, 4)]

def itchOrderDelete : Packed := [(.header, 11), (.orderReferenceNumber, 8)]

def itchOrderReplace : Packed :=
  [(.header, 11), (.originalOrderReferenceNumber, 8), (.newOrderReferenceNumber, 8), (.shares, 4),
    (.price, 4)]

end Packed

section Kernels

/-- A 128-bit register as its 16 bytes. -/
abbrev M128 := Fin 16 → UInt8

/-- `_mm_loadu_si128`. -/
def loadu (m : Memory) (a : ℕ) : M128 := fun i => m (a + i)

/-- `_mm_shuffle_epi8`. -/
def shuffleEpi8 (v : M128) (mask : List ℤ) : M128 := fun i =>
  let k := mask.getD i (-1)
  if k < 0 then 0 else v (Fin.ofNat 16 k.toNat)

def M128.bytes (s : M128) (lo n : ℕ) : List UInt8 :=
  (List.range n).map fun i => s (Fin.ofNat 16 (lo + i))

/-- `_mm_storel_epi64`. -/
def storel (out : Memory) (a : ℕ) (s : M128) : Memory := out.store a (s.bytes 0 8)

/-- `_mm_storeu_si128`. -/
def storeu (out : Memory) (a : ℕ) (s : M128) : Memory := out.store a (s.bytes 0 16)

/-- `_mm_extract_epi32`. -/
def extractEpi32 (s : M128) (lane : ℕ) : ℕ := readLE (s.bytes (4 * lane) 4)

/-- `_mm_extract_epi8`. -/
def extractEpi8 (s : M128) (lane : ℕ) : ℕ := readLE (s.bytes lane 1)

def maskAf : List ℤ := [10, 9, 8, 7, 6, 5, 4, 3, 15, 14, 13, 12, 11, -1, -1, -1]
def maskEx : List ℤ := [10, 9, 8, 7, 6, 5, 4, 3, 14, 13, 12, 11, -1, -1, -1, -1]
def maskD : List ℤ := [7, 6, 5, 4, 3, 2, 1, 0, -1, -1, -1, -1, -1, -1, -1, -1]
def maskU : List ℤ := [7, 6, 5, 4, 3, 2, 1, 0, 15, 14, 13, 12, 11, 10, 9, 8]

def simdUnpackAf (msg out : Memory) : Memory :=
  let s := shuffleEpi8 (loadu msg 8) maskAf
  let out := storel out EventField.orderId.offset s
  let out := EventField.qty.set (extractEpi32 s 2) out
  EventField.side.set (extractEpi8 s 12) out

def simdUnpackEx (msg out : Memory) : Memory :=
  let s := shuffleEpi8 (loadu msg 8) maskEx
  let out := storel out EventField.orderId.offset s
  EventField.qty.set (extractEpi32 s 2) out

def simdUnpackD (msg out : Memory) : Memory :=
  storel out EventField.orderId.offset (shuffleEpi8 (loadu msg 11) maskD)

/-- The store covers `order_id` and `aux`. -/
def simdUnpackU (msg out : Memory) : Memory :=
  storeu out EventField.orderId.offset (shuffleEpi8 (loadu msg 11) maskU)

end Kernels

/-- A handler: from the message and the memory of the event to its result and that memory. -/
abbrev Handler := Memory → Memory → ℤ × Memory

section Orders
variable (pshufb : Bool)

/-- The common body of `handle_add_order` and `handle_add_order_mpid`. -/
def handleAdd (s : Packed) : Handler := fun msg out =>
  let out := EventField.aux.set 0 out
  let out := EventField.type.set (msg 0).toNat out
  let out := EventField.stockLocate.set (be16toh (msg.uint 2 1)) out
  let out := EventField.price.set (be32toh (msg.uint 4 32)) out
  if pshufb then (0, simdUnpackAf msg out)
  else
    let out := EventField.orderId.set (be64toh (s.read msg .orderReferenceNumber)) out
    let out := EventField.qty.set (be32toh (s.read msg .shares)) out
    (0, EventField.side.set (s.read msg .buySellIndicator) out)

def handleAddOrder : Handler := handleAdd pshufb itchAddOrder

def handleAddOrderMpid : Handler := handleAdd pshufb itchAddOrderMpid

/-- The common body of `handle_order_modify` and `handle_order_cancel`. -/
def handleTake (s : Packed) (taken : ItchField) : Handler := fun msg out =>
  let out := EventField.aux.set 0 out
  let out := EventField.type.set (msg 0).toNat out
  let out := EventField.stockLocate.set (be16toh (msg.uint 2 1)) out
  let out := EventField.price.set 0 out
  let out := EventField.side.set 0 out
  if pshufb then (0, simdUnpackEx msg out)
  else
    let out := EventField.orderId.set (be64toh (s.read msg .orderReferenceNumber)) out
    (0, EventField.qty.set (be32toh (s.read msg taken)) out)

def handleOrderModify : Handler := handleTake pshufb itchOrderModify .executedShares

def handleOrderCancel : Handler := handleTake pshufb itchOrderCancel .cancelledShares

def handleOrderExecutedPrice : Handler := fun msg out =>
  let out := EventField.aux.set 0 out
  let out := EventField.type.set (msg 0).toNat out
  let out := EventField.stockLocate.set (be16toh (msg.uint 2 1)) out
  let out := EventField.side.set 0 out
  let out :=
    if pshufb then simdUnpackEx msg out
    else
      let out := EventField.orderId.set
        (be64toh (itchOrderExecutedPrice.read msg .orderReferenceNumber)) out
      EventField.qty.set (be32toh (itchOrderExecutedPrice.read msg .executedShares)) out
  (0, EventField.price.set (be32toh (msg.uint 4 32)) out)

def handleOrderDelete : Handler := fun msg out =>
  let out := EventField.aux.set 0 out
  let out := EventField.type.set (msg 0).toNat out
  let out := EventField.stockLocate.set (be16toh (msg.uint 2 1)) out
  let out := EventField.qty.set 0 out
  let out := EventField.price.set 0 out
  let out := EventField.side.set 0 out
  if pshufb then (0, simdUnpackD msg out)
  else (0, EventField.orderId.set (be64toh (itchOrderDelete.read msg .orderReferenceNumber)) out)

def handleOrderReplace : Handler := fun msg out =>
  let out := EventField.type.set (msg 0).toNat out
  let out := EventField.stockLocate.set (be16toh (msg.uint 2 1)) out
  let out := EventField.side.set 0 out
  let out := EventField.qty.set (be32toh (msg.uint 4 27)) out
  let out := EventField.price.set (be32toh (msg.uint 4 31)) out
  if pshufb then (0, simdUnpackU msg out)
  else
    let out := EventField.orderId.set
      (be64toh (itchOrderReplace.read msg .originalOrderReferenceNumber)) out
    (0, EventField.aux.set (be64toh (itchOrderReplace.read msg .newOrderReferenceNumber)) out)

end Orders

section Administrative

/-- The common body of the handlers of the other messages. -/
def handleNothing : Handler := fun _ out => (-1, out)

def handleSystemEvent : Handler := handleNothing
def handleStockDirectory : Handler := handleNothing
def handleStockTradingAction : Handler := handleNothing
def handleRegSho : Handler := handleNothing
def handleMktParticipantPos : Handler := handleNothing
def handleMwcbDeclineLevel : Handler := handleNothing
def handleMwcbStatus : Handler := handleNothing
def handleIpoQuotingPeriodUpdate : Handler := handleNothing
def handleLuldAuctionCollar : Handler := handleNothing
def handleOperationalHalt : Handler := handleNothing
def handleNonCrossTrade : Handler := handleNothing
def handleCrossTrade : Handler := handleNothing
def handleBrokenTrade : Handler := handleNothing
def handleNoii : Handler := handleNothing
def handleRpii : Handler := handleNothing
def handleDlcr : Handler := handleNothing

end Administrative

/-- The initialised entries of `dispatch_table`. -/
def dispatchEntries (pshufb : Bool) : List (Char × Handler) :=
  [('S', handleSystemEvent), ('R', handleStockDirectory), ('H', handleStockTradingAction),
    ('Y', handleRegSho), ('L', handleMktParticipantPos), ('V', handleMwcbDeclineLevel),
    ('W', handleMwcbStatus), ('K', handleIpoQuotingPeriodUpdate), ('J', handleLuldAuctionCollar),
    ('h', handleOperationalHalt), ('A', handleAddOrder pshufb), ('F', handleAddOrderMpid pshufb),
    ('E', handleOrderModify pshufb), ('C', handleOrderExecutedPrice pshufb),
    ('X', handleOrderCancel pshufb), ('D', handleOrderDelete pshufb),
    ('U', handleOrderReplace pshufb), ('P', handleNonCrossTrade), ('Q', handleCrossTrade),
    ('B', handleBrokenTrade), ('I', handleNoii), ('N', handleRpii), ('O', handleDlcr)]

/-- `dispatch_table`; the other entries are null. -/
def dispatchTable (pshufb : Bool) (msgType : UInt8) : Option Handler :=
  (dispatchEntries pshufb).lookup (Char.ofNat msgType.toNat)

/-- The messages that become events. -/
inductive OrderMessage
  | addOrder | addOrderMpid | orderModify | orderExecutedPrice | orderCancel | orderDelete
  | orderReplace
  deriving DecidableEq, Repr

namespace OrderMessage

def char : OrderMessage → Char
  | .addOrder => 'A'
  | .addOrderMpid => 'F'
  | .orderModify => 'E'
  | .orderExecutedPrice => 'C'
  | .orderCancel => 'X'
  | .orderDelete => 'D'
  | .orderReplace => 'U'

def struct : OrderMessage → Packed
  | .addOrder => itchAddOrder
  | .addOrderMpid => itchAddOrderMpid
  | .orderModify => itchOrderModify
  | .orderExecutedPrice => itchOrderExecutedPrice
  | .orderCancel => itchOrderCancel
  | .orderDelete => itchOrderDelete
  | .orderReplace => itchOrderReplace

def handler (pshufb : Bool) : OrderMessage → Handler
  | .addOrder => handleAddOrder pshufb
  | .addOrderMpid => handleAddOrderMpid pshufb
  | .orderModify => handleOrderModify pshufb
  | .orderExecutedPrice => handleOrderExecutedPrice pshufb
  | .orderCancel => handleOrderCancel pshufb
  | .orderDelete => handleOrderDelete pshufb
  | .orderReplace => handleOrderReplace pshufb

def length (k : OrderMessage) : ℕ := k.struct.size

end OrderMessage

end TradingPipeline.Itch
