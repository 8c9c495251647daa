import TradingPipeline.Book.LiveOrderTable

/-! # The ITCH book adapter

`ItchBookAdapter` turns order messages into commands for the book library and keeps
the table from order references to handles in step with it. A result `none` is a
call that does not return: the unbounded probe of `insert`, or a null handle.
-/
namespace TradingPipeline.Book
open Lib

structure ItchBookAdapter (api : OrderBookApi) where
  book : api.OrderBook
  liveOrders : LiveOrderTable api.OrderPointer

structure OrderInfo where
  side : Side
  px : ℤ
  deriving DecidableEq, Repr

variable {api : OrderBookApi}

def toTicks (api : OrderBookApi) (itchPx : ℕ) : ℤ := api.toPriceTicks (itchPx / 100)

def inBookRange (api : OrderBookApi) (px : ℤ) : Bool := px > 0 && int32 px < api.maxLevel

def sideFromChar (c : Char) : Side := if c = 'B' then .buy else .sell

namespace ItchBookAdapter

def create (api : OrderBookApi) (poolSize : ℕ) : ItchBookAdapter api :=
  { book := api.create poolSize, liveOrders := LiveOrderTable.create (poolSize * 2) }

/-- The common end of `onAdd` and `onReplace`: process an add and record its handle. -/
def addOrder (a : ItchBookAdapter api) (ref : ℕ) (side : Side) (shares itchPx : ℕ) :
    Option (ItchBookAdapter api) :=
  let px := toTicks api itchPx
  if inBookRange api px then
    match api.processAdd a.book ⟨px, api.toOrderId ref, api.toQuantity shares, side⟩ with
    | (some h, book) => (a.liveOrders.insert ref h).map fun live => ⟨book, live⟩
    -- the add was matched completely on insertion
    | (none, book) => some { a with book := book }
  else some a

def eraseOrder (a : ItchBookAdapter api) (idx : ℤ) : Option (ItchBookAdapter api) :=
  (a.liveOrders.handle idx).map fun h =>
    { book := api.processCancel a.book h, liveOrders := a.liveOrders.erase idx }

def decrementOrErase (a : ItchBookAdapter api) (idx : ℤ) (delta : ℤ) :
    Option (ItchBookAdapter api) :=
  (a.liveOrders.handle idx).bind fun o =>
    let remaining := api.getQuantity a.book o - delta
    if remaining > 0 then some { a with book := api.setQuantity a.book o remaining }
    else a.eraseOrder idx

/-- `E`, `C` and `X` messages take shares off a live order and are ignored for any
other reference. -/
def takeShares (a : ItchBookAdapter api) (ref shares : ℕ) : Option (ItchBookAdapter api) :=
  let idx := a.liveOrders.find ref
  if idx < 0 then some a else a.decrementOrErase idx (api.toQuantity shares)

def onAdd (a : ItchBookAdapter api) (ref : ℕ) (buySell : Char) (shares itchPx : ℕ) :
    Option (ItchBookAdapter api) :=
  a.addOrder ref (sideFromChar buySell) shares itchPx

def onCancelPartial (a : ItchBookAdapter api) (ref cancelledShares : ℕ) :
    Option (ItchBookAdapter api) :=
  a.takeShares ref cancelledShares

def onDelete (a : ItchBookAdapter api) (ref : ℕ) : Option (ItchBookAdapter api) :=
  let idx := a.liveOrders.find ref
  if idx < 0 then some a else a.eraseOrder idx

def onExecute (a : ItchBookAdapter api) (ref executedShares : ℕ) :
    Option (ItchBookAdapter api) :=
  a.takeShares ref executedShares

/-- The print price and the printable flag are not used for the displayed book. -/
def onExecuteWithPrice (a : ItchBookAdapter api) (ref executedShares _itchPx : ℕ)
    (_printable : Char) : Option (ItchBookAdapter api) :=
  a.takeShares ref executedShares

def onReplace (a : ItchBookAdapter api) (oldRef newRef shares itchPx : ℕ) :
    Option (ItchBookAdapter api) :=
  let idx := a.liveOrders.find oldRef
  if idx < 0 then some a
  else
    (a.liveOrders.handle idx).bind fun h =>
      let side := api.getSide a.book h
      (a.eraseOrder idx).bind fun a => a.addOrder newRef side shares itchPx

def peek (a : ItchBookAdapter api) (ref : ℕ) : Option OrderInfo :=
  let idx := a.liveOrders.find ref
  if idx < 0 then none
  else (a.liveOrders.handle idx).map fun h => ⟨api.getSide a.book h, api.getPrice a.book h⟩

end ItchBookAdapter
end TradingPipeline.Book
