import TradingPipeline.Lib.Format
import TradingPipeline.Order.Acks
import TradingPipeline.Telemetry.ControlLoop
import Mathlib.Data.List.TakeWhile

/-! # The lines of the telemetry socket

The wire observer and the engine's statistics thread report to the control service in lines of
JSON, each printed into a buffer of fixed size. Every line fits its buffer, whatever the
numbers in it are, and its only newline is its last byte.
-/
namespace TradingPipeline.Telemetry
open Lib Engine OrderSession

section Formats

/-- A format that opens an object, and closes it before a newline. -/
def object (fields : List Spec) : List Spec :=
  .text (ascii "\x7b") :: (fields ++ [.text (ascii "\x7d\n")])

def feedFields : List Spec :=
  [.text (ascii "\"type\":\"feed\",\"ts\":"), .unsigned 64,
    .text (ascii ",\"seq\":"), .unsigned 64,
    .text (ascii ",\"msgCount\":"), .unsigned 32,
    .text (ascii ",\"payloadBytes\":"), .unsigned 32]

def orderFields : List Spec :=
  [.text (ascii "\"type\":\"order\",\"ts\":"), .unsigned 64,
    .text (ascii ",\"seq\":"), .unsigned 64,
    .text (ascii ",\"symbolId\":"), .unsigned 32,
    .text (ascii ",\"side\":\""), .char,
    .text (ascii "\",\"qty\":"), .unsigned 32,
    .text (ascii ",\"price\":"), .unsigned 32,
    .text (ascii ",\"msgType\":\""), .char,
    .text (ascii "\",\"clientSendTs\":"), .unsigned 64]

def ackFields : List Spec :=
  [.text (ascii "\"type\":\"ack\",\"ts\":"), .unsigned 64,
    .text (ascii ",\"seq\":"), .unsigned 64,
    .text (ascii ",\"flag\":"), .unsigned 32,
    .text (ascii ",\"recvTs\":"), .unsigned 64]

def healthFields : List Spec :=
  [.text (ascii "\"type\":\"health\",\"ts\":"), .unsigned 64,
    .text (ascii ",\"feedPackets\":"), .unsigned 64,
    .text (ascii ",\"feedMessages\":"), .unsigned 64,
    .text (ascii ",\"orders\":"), .unsigned 64,
    .text (ascii ",\"acks\":"), .unsigned 64,
    .text (ascii ",\"ackOk\":"), .unsigned 64,
    .text (ascii ",\"ackBadCsum\":"), .unsigned 64,
    .text (ascii ",\"ackSeqGap\":"), .unsigned 64,
    .text (ascii ",\"lastAckSeq\":"), .unsigned 64,
    .text (ascii ",\"transportDrops\":"), .unsigned 64]

def latStatsFields : List Spec :=
  [.text (ascii "\"type\":\"lat_stats\",\"ts\":"), .signed 64,
    .text (ascii ",\"p50_ns\":"), .unsigned 32,
    .text (ascii ",\"p90_ns\":"), .unsigned 32,
    .text (ascii ",\"p99_ns\":"), .unsigned 32,
    .text (ascii ",\"max_ns\":"), .unsigned 32,
    .text (ascii ",\"n\":"), .unsigned 32,
    .text (ascii ",\"label\":\"parse_to_send\"")]

def mmStatsFields : List Spec :=
  [.text (ascii "\"type\":\"mm_stats\",\"ts\":"), .signed 64, .text (ascii ",\"symbols\":[")]

def kNames : List String :=
  ["QQQ", "SPY", "TQQQ", "AMD", "IWM", "MSFT", "FB", "AAPL", "SH", "DIA", "TSLA", "TNA", "TVIX",
    "XLK", "MU"]

/-- The format of a shard's entry, with the two strings it is given. -/
def symbolFormat (shard : Shard) : List Spec :=
  [.text (if shard.val = 0 then [] else ascii ","),
    .text (ascii "\x7b\"symbol\":\""), .text (ascii (kNames.getD shard "")),
    .text (ascii "\",\"locate\":"), .unsigned 32,
    .text (ascii ",\"quotes\":"), .unsigned 64,
    .text (ascii ",\"fills\":"), .unsigned 64,
    .text (ascii ",\"inventory\":"), .signed 32,
    .text (ascii ",\"realized_pnl_ticks\":"), .signed 64,
    .text (ascii ",\"unrealized_pnl_ticks\":"), .signed 64,
    .text (ascii ",\"quoted_both\":"), .unsigned 64,
    .text (ascii ",\"skip_no_tob\":"), .unsigned 64,
    .text (ascii ",\"skip_crossed\":"), .unsigned 64,
    .text (ascii ",\"skip_bad_px\":"), .unsigned 64,
    .text (ascii ",\"skip_hard_band\":"), .unsigned 64,
    .text (ascii ",\"skip_panic\":"), .unsigned 64,
    .text (ascii ",\"rate_limited\":"), .unsigned 64,
    .text (ascii "\x7d")]

end Formats

section Messages

structure Counters where
  feedPackets : UInt64
  feedMessages : UInt64
  orders : UInt64
  acks : UInt64
  ackOk : UInt64
  ackBadCsum : UInt64
  ackSeqGap : UInt64
  transportDrops : UInt64
  lastAckSeq : UInt64
  deriving DecidableEq, Repr

/-- What `stats_loop` reads of a shard. -/
structure ShardStats where
  totalQuotes : UInt64
  totalFills : UInt64
  inventory : Int32
  realizedPnlTicks : Int64
  unrealizedPnlTicks : Int64
  quotedBoth : UInt64
  skipNoTob : UInt64
  skipCrossed : UInt64
  skipBadPx : UInt64
  skipHardBand : UInt64
  skipPanic : UInt64
  rateLimited : UInt64
  deriving DecidableEq

/-- The observer's events, and the reports of the engine's statistics thread. -/
inductive Message
  | feed (ts seq : UInt64) (msgCount : UInt16) (payloadBytes : UInt32)
  | order (ts : UInt64) (order : WireOrder)
  | ack (ts : UInt64) (ack : WireAck)
  | health (ts : UInt64) (counters : Counters)
  | mmStats (nowNs : Int64) (stats : Shard → ShardStats)
  | latStats (nowNs : Int64) (p50 p90 p99 mx n : UInt32)

/-- What `send_json` sends of a buffer: up to the first NUL. -/
def upToNul (w : Written) : List UInt8 := w.text.takeWhile (· ≠ 0)

/-- What `tele_send_line` sends of a buffer, if the count does not lead behind the text. -/
def counted (w : Written) : Option (List UInt8) :=
  if w.n ≤ w.text.length then some (w.text.take w.n) else none

def symbolArgs (stats : ShardStats) (shard : Shard) : List ℤ :=
  [locateOf shard, stats.totalQuotes.toNat, stats.totalFills.toNat, stats.inventory.toInt,
    stats.realizedPnlTicks.toInt, stats.unrealizedPnlTicks.toInt, stats.quotedBoth.toNat,
    stats.skipNoTob.toNat, stats.skipCrossed.toNat, stats.skipBadPx.toNat,
    stats.skipHardBand.toNat, stats.skipPanic.toNat, stats.rateLimited.toNat]

/-- The bytes that are to be sent for a message, `none` if a buffer does not hold them. -/
def Message.text : Message → Option (List UInt8)
  | .feed ts seq msgCount payloadBytes =>
    (snprintf 256 ⟨[], 0⟩ (object feedFields)
      [ts.toNat, seq.toNat, msgCount.toNat, payloadBytes.toNat]).map upToNul
  | .order ts o =>
    (snprintf 320 ⟨[], 0⟩ (object orderFields)
      [ts.toNat, o.seq.toNat, o.symbolId.toNat, o.side.toNat, o.qty.toNat, o.price.toNat,
        o.msgType.toNat, o.ts.toNat]).map upToNul
  | .ack ts a =>
    (snprintf 256 ⟨[], 0⟩ (object ackFields)
      [ts.toNat, a.seq.toNat, a.flag.toNat, a.recvTs.toNat]).map upToNul
  | .health ts c =>
    (snprintf 384 ⟨[], 0⟩ (object healthFields)
      [ts.toNat, c.feedPackets.toNat, c.feedMessages.toNat, c.orders.toNat, c.acks.toNat,
        c.ackOk.toNat, c.ackBadCsum.toNat, c.ackSeqGap.toNat, c.lastAckSeq.toNat,
        c.transportDrops.toNat]).map upToNul
  | .mmStats nowNs stats => do
    let w ← snprintf 8192 ⟨[], 0⟩ (.text (ascii "\x7b") :: mmStatsFields) [nowNs.toInt]
    let w ← (List.finRange kSize).foldlM
      (fun w shard => snprintf 8192 w (symbolFormat shard) (symbolArgs (stats shard) shard)) w
    let w ← snprintf 8192 w [.text (ascii "]\x7d\n")] []
    counted w
  | .latStats nowNs p50 p90 p99 mx n =>
    (snprintf 8192 ⟨[], 0⟩ (object latStatsFields)
      [nowNs.toInt, p50.toNat, p90.toNat, p99.toNat, mx.toNat, n.toNat]).bind counted

/-- An order event copies two bytes of the message as they are. -/
def Message.Plain : Message → Prop
  | .order _ o => Printable [o.side, o.msgType]
  | .feed .. | .ack .. | .health .. | .mmStats .. | .latStats .. => True

end Messages

/-- An object of printable characters with the newline behind it. -/
def IsLine (line : List UInt8) : Prop :=
  ∃ inner, line = 123 :: (inner ++ [125, newline]) ∧ Printable inner

section Lines
variable {fields : List Spec} {args : List ℤ} {size : ℕ} {line : List UInt8}

theorem format_object (fields : List Spec) (args : List ℤ) :
    format (object fields) args = 123 :: (format fields args ++ [125, newline]) := by
  have hopen : ascii "\x7b" = [123] := by decide
  have hclose : ascii "\x7d\n" = [125, newline] := by decide
  rw [object, format, format_append_text, hopen, hclose, List.singleton_append]

theorem isLine_object (hplain : ∀ p ∈ fields, p.Plain) (hchars : Printable (charArgs fields args)) :
    IsLine (format (object fields) args) :=
  ⟨format fields args, format_object fields args, printable_format hplain hchars⟩

theorem IsLine.nul_not_mem (h : IsLine line) : 0 ∉ line := by
  obtain ⟨inner, rfl, hinner⟩ := h
  intro hmem
  rcases List.mem_cons.mp hmem with hzero | hmem
  · cases hzero
  · rcases List.mem_append.mp hmem with hmem | hmem
    · exact absurd (hinner 0 hmem) (by decide)
    · exact absurd hmem (by decide)

theorem upToNul_object (hplain : ∀ p ∈ fields, p.Plain)
    (hwidth : formatWidth (object fields) < size)
    (hchars : Printable (charArgs fields args)) :
    ∃ line, (snprintf size ⟨[], 0⟩ (object fields) args).map upToNul = some line ∧ IsLine line := by
  have hline := isLine_object hplain hchars
  refine ⟨format (object fields) args, ?_, hline⟩
  have hle := length_format_le (object fields) args
  have hne : ∀ b ∈ format (object fields) args, decide (b ≠ 0) = true := by
    intro b hb
    refine decide_eq_true fun hzero => hline.nul_not_mem ?_
    rwa [← hzero]
  rw [snprintf_of_fits (by dsimp only; omega), Option.map_some, upToNul, List.nil_append,
    List.takeWhile_eq_self_iff.mpr hne]

theorem counted_of_length {w : Written} (h : w.n = w.text.length) : counted w = some w.text := by
  rw [counted, if_pos (Nat.le_of_eq h), h, List.take_length]

end Lines

section Texts

theorem latStats_line (nowNs : Int64) (p50 p90 p99 mx n : UInt32) :
    ∃ line, (Message.latStats nowNs p50 p90 p99 mx n).text = some line ∧ IsLine line := by
  have hchars := charArgs_nil (show Spec.char ∉ latStatsFields by decide +kernel)
    [nowNs.toInt, p50.toNat, p90.toNat, p99.toNat, mx.toNat, n.toNat]
  have hline := isLine_object (show ∀ p ∈ latStatsFields, p.Plain by decide +kernel)
    (by rw [hchars]; exact List.forall_mem_nil _)
  have hwidth : formatWidth (object latStatsFields) < 8192 := by decide +kernel
  refine ⟨_, ?_, hline⟩
  have hle := length_format_le (object latStatsFields)
    [nowNs.toInt, p50.toNat, p90.toNat, p99.toNat, mx.toNat, n.toNat]
  rw [Message.text, snprintf_of_fits (by dsimp only; omega), Option.bind_some,
    counted_of_length (by simp), List.nil_append]

/-- An entry is at most 512 bytes long, so fifteen of them leave room for the rest. -/
theorem symbolFormat_width (shard : Shard) : formatWidth (symbolFormat shard) ≤ 512 := by
  revert shard
  decide +kernel

theorem symbolFormat_plain (shard : Shard) :
    (∀ p ∈ symbolFormat shard, p.Plain) ∧ .char ∉ symbolFormat shard := by
  have hname : ∀ shard : Shard, Printable (ascii (kNames.getD shard "")) := by decide +kernel
  have hcomma : Printable (if shard.val = 0 then [] else ascii ",") := by
    split <;> decide +kernel
  -- only the first and the third part depend on the shard
  refine ⟨List.forall_mem_cons.mpr ⟨hcomma, List.forall_mem_cons.mpr ⟨?_,
    List.forall_mem_cons.mpr ⟨hname shard, ?_⟩⟩⟩, by simp [symbolFormat]⟩ <;> decide +kernel

/-- The entries of all shards, as `stats_loop` prints them one behind the other. -/
def entries (stats : Shard → ShardStats) : List UInt8 :=
  (List.finRange kSize).flatMap fun shard =>
    format (symbolFormat shard) (symbolArgs (stats shard) shard)

theorem printable_entries (stats : Shard → ShardStats) : Printable (entries stats) := by
  intro b hb
  obtain ⟨shard, -, hb⟩ := List.mem_flatMap.mp hb
  obtain ⟨hplain, hchar⟩ := symbolFormat_plain shard
  refine printable_format hplain ?_ b hb
  rw [charArgs_nil hchar]
  exact List.forall_mem_nil _

theorem length_entries_le (stats : Shard → ShardStats) : (entries stats).length ≤ 7680 := by
  have hle := @length_flatMap_format_le _ symbolFormat
    (fun shard => symbolArgs (stats shard) shard) 512 (List.finRange kSize)
    fun shard _ => symbolFormat_width shard
  rw [List.length_finRange] at hle
  exact hle

theorem foldlM_entries (stats : Shard → ShardStats) {w : Written} (hw : w.n + 7680 < 8192) :
    (List.finRange kSize).foldlM
      (fun w shard => snprintf 8192 w (symbolFormat shard) (symbolArgs (stats shard) shard)) w =
      some ⟨w.text ++ entries stats, w.n + (entries stats).length⟩ := by
  refine snprintf_foldlM (M := 512) (fun shard _ => symbolFormat_width shard) ?_
  rw [List.length_finRange]
  exact hw

theorem mmStats_line (nowNs : Int64) (stats : Shard → ShardStats) :
    ∃ line, (Message.mmStats nowNs stats).text = some line ∧ IsLine line := by
  have hopen : ascii "\x7b" = [123] := by decide
  have hclose : ascii "]\x7d\n" = [93, 125, newline] := by decide
  have hentries := length_entries_le stats
  have hhead : formatWidth (.text (ascii "\x7b") :: mmStatsFields) ≤ 64 := by decide +kernel
  have hle := length_format_le (.text (ascii "\x7b") :: mmStatsFields) [nowNs.toInt]
  refine ⟨123 :: ((format mmStatsFields [nowNs.toInt] ++ entries stats ++ [93]) ++ [125, newline]),
    ?_, _, rfl, ?_⟩
  · have htext : 123 :: format mmStatsFields [nowNs.toInt] =
        format (.text (ascii "\x7b") :: mmStatsFields) [nowNs.toInt] := by
      rw [format, hopen, List.singleton_append]
    rw [Message.text, snprintf_of_fits (by dsimp only; omega), List.append_assoc,
      List.append_assoc, ← List.cons_append, htext]
    generalize format (.text (ascii "\x7b") :: mmStatsFields) [nowNs.toInt] = head at hle ⊢
    dsimp only [Option.bind_eq_bind, Option.bind_some, List.nil_append]
    have htail : format [.text (ascii "]\x7d\n")] [] = [93, 125, newline] := by
      rw [hclose, format, format, List.append_nil]
    have hfits : 0 + head.length + (entries stats).length + [93, 125, newline].length < 8192 := by
      rw [List.length_cons, List.length_cons, List.length_singleton]
      omega
    rw [foldlM_entries stats (by dsimp only; omega), Option.bind_some,
      snprintf_of_fits (by rwa [htail]), htail, Option.bind_some,
        counted_of_length (by simp [Nat.add_assoc]),
      List.append_assoc]
    rfl
  · have hchars := charArgs_nil (show Spec.char ∉ mmStatsFields by decide +kernel) [nowNs.toInt]
    have hclosing : Printable [93] := by decide +kernel
    refine printable_append.mpr ⟨printable_append.mpr ⟨?_, printable_entries stats⟩, hclosing⟩
    refine printable_format (by decide +kernel) ?_
    rw [hchars]
    exact List.forall_mem_nil _

theorem Message.text_line {m : Message} (hm : m.Plain) :
    ∃ line, m.text = some line ∧ IsLine line := by
  cases m with
  | feed ts seq msgCount payloadBytes =>
    refine upToNul_object (by decide +kernel) (by decide +kernel) ?_
    rw [charArgs_nil (by decide +kernel)]
    exact List.forall_mem_nil _
  | order ts o =>
    refine upToNul_object (by decide +kernel) (by decide +kernel) ?_
    change Printable [byteOf o.side.toNat, byteOf o.msgType.toNat]
    rw [byteOf_toNat, byteOf_toNat]
    exact hm
  | ack ts a =>
    refine upToNul_object (by decide +kernel) (by decide +kernel) ?_
    rw [charArgs_nil (by decide +kernel)]
    exact List.forall_mem_nil _
  | health ts c =>
    refine upToNul_object (by decide +kernel) (by decide +kernel) ?_
    rw [charArgs_nil (by decide +kernel)]
    exact List.forall_mem_nil _
  | mmStats nowNs stats => exact mmStats_line nowNs stats
  | latStats nowNs p50 p90 p99 mx n => exact latStats_line nowNs p50 p90 p99 mx n

end Texts

end TradingPipeline.Telemetry
