import TradingPipeline.Lib.MachineInt

/-! # The order book library

The matching book is a separate library that the adapter calls through a handful
of functions. It is a parameter of the development: its book and its order handles
are abstract types, and what a result needs of it is stated as a hypothesis there.
`PriceTicks` and `Quantity` are signed integers.
-/
namespace TradingPipeline.Book

inductive Side
  | buy | sell
  deriving DecidableEq, Repr

/-- `AddCommand` with a `LimitOrder` of default time in force. -/
structure AddCommand where
  px : ℤ
  orderId : ℕ
  qty : ℤ
  side : Side
  deriving DecidableEq, Repr

/-- The calls the engine makes into the library, with the conversions to its integer
types. The orders live in the book's pool, so a handle is read through the book. -/
structure OrderBookApi where
  OrderBook : Type
  OrderPointer : Type
  create : ℕ → OrderBook
  processAdd : OrderBook → AddCommand → Option OrderPointer × OrderBook
  processCancel : OrderBook → OrderPointer → OrderBook
  getSide : OrderBook → OrderPointer → Side
  getPrice : OrderBook → OrderPointer → ℤ
  getQuantity : OrderBook → OrderPointer → ℤ
  setQuantity : OrderBook → OrderPointer → ℤ → OrderBook
  hasBid : OrderBook → Bool
  hasAsk : OrderBook → Bool
  bestBidPrice : OrderBook → ℤ
  bestAskPrice : OrderBook → ℤ
  bestBidQty : OrderBook → ℤ
  bestAskQty : OrderBook → ℤ
  toOrderId : ℕ → ℕ
  toQuantity : ℕ → ℤ
  toPriceTicks : ℕ → ℤ
  maxLevel : ℤ

end TradingPipeline.Book
