import TradingPipeline.Engine.Dispatcher
import TradingPipeline.Lib.CString
import TradingPipeline.Lib.Lines

/-! # The control connection

`control_loop` reads a client's bytes into a buffer of 256, cuts the lines out of it by
writing a NUL over each newline, and hands each one to `apply_command_line`; the bytes of
an unfinished line move to the front of the buffer. The loop is written over any handler
of lines. What `read` returns is up to the socket: at most what was asked for, at most
what the client has sent, and nothing once the connection ends.
-/
namespace TradingPipeline.Telemetry
open Lib Book Engine

def ascii (s : String) : List UInt8 := s.toList.map fun c => c.toNat.toUInt8

def newline : UInt8 := 10
def blank : UInt8 := 32

section Command

def isSpace (b : UInt8) : Bool := b = 32 || (9 ≤ b && b ≤ 13)
def isDigit (b : UInt8) : Bool := 48 ≤ b && b ≤ 57

/-- `strtoul` in base ten: the value and what `end` points to, `none` if `end` stays at
the start. A value out of range becomes the largest one. -/
def strtoul (s : List UInt8) : Option (ℕ × List UInt8) :=
  let s := s.dropWhile isSpace
  let negative := s.head? = some 45
  let s := if s.head? = some 45 ∨ s.head? = some 43 then s.tail else s
  let digits := s.takeWhile isDigit
  let value := digits.foldl (fun v b => v * 10 + (b.toNat - 48)) 0
  if digits = [] then none
  else some (if 2 ^ 64 ≤ value then 2 ^ 64 - 1
    else if negative then (2 ^ 64 - value) % 2 ^ 64 else value, s.dropWhile isDigit)

/-- The control a line asks for. -/
def commandOf (line : List UInt8) : Option Control :=
  if line = ascii "kill_global" then some .killGlobal
  else if line = ascii "arm_all" then some .armAll
  else if blank ∉ line then none
  else do
    let op := line.takeWhile (· ≠ blank)
    let arg := (line.dropWhile (· ≠ blank)).tail
    let (locate, rest) ← strtoul arg
    if rest ≠ [] ∨ 65535 < locate then none
    else do
      let shard ← shardForLocate locate
      if op = ascii "kill_symbol" then some (.kill shard)
      else if op = ascii "arm_symbol" then some (.arm shard)
      else none

variable {api : OrderBookApi} {D : Type}

/-- `none` is a null `g_mm`. -/
def applyCommandLine (mm : Option (Dispatcher api D)) (line : List UInt8) :
    Option (Dispatcher api D) :=
  mm.map fun g => (commandOf line).elim g g.control

/-- The text the control service sends for a control, without its newline. -/
def commandText : Control → List UInt8
  | .kill shard => ascii "kill_symbol " ++ ascii (toString (locateOf shard))
  | .arm shard => ascii "arm_symbol " ++ ascii (toString (locateOf shard))
  | .killGlobal => ascii "kill_global"
  | .armAll => ascii "arm_all"

theorem commandOf_commandText (c : Control) : commandOf (commandText c) = some c := by
  cases c with
  | kill shard =>
    revert shard
    decide
  | arm shard =>
    revert shard
    decide
  | killGlobal => decide
  | armAll => decide

end Command

section Loop
variable {σ : Type} (apply : σ → List UInt8 → σ)

/-- `sizeof(buf)`. -/
def bufSize : ℕ := 256

/-- The `while` over the newlines behind the cursor: the buffer and the cursor it leaves,
and what the handler has made of the lines. -/
def applyLines : ℕ → List UInt8 → ℕ → σ → Option (List UInt8 × ℕ × σ)
  | 0, _, _, _ => none
  | fuel + 1, buf, cursor, target => do
    match ← strchr newline (buf.drop cursor) with
    | none => some (buf, cursor, target)
    | some k =>
      let buf ← copyTo buf (cursor + k) [0]
      let line ← cString (buf.drop cursor)
      applyLines fuel buf (cursor + k + 1) (apply target line)

/-- A connection: `reading` falls when the loop breaks. -/
structure Client (σ : Type) where
  buf : List UInt8
  used : ℕ
  /-- What the client has sent and no `read` has returned. -/
  unread : List UInt8
  reading : Bool
  target : σ

/-- A client right after `accept`; nothing clears the buffer. -/
def Client.accepted (buf stream : List UInt8) (target : σ) : Client σ :=
  ⟨buf, 0, stream, true, target⟩

/-- The body of the loop behind a `read` that returned `got`. -/
def takeIn (c : Client σ) (got : List UInt8) : Option (Client σ) := do
  let buf ← copyTo c.buf c.used got
  let buf ← copyTo buf (c.used + got.length) [0]
  let (buf, cursor, target) ← applyLines apply (bufSize + 1) buf 0 c.target
  let rest ← cString (buf.drop cursor)
  let buf ← copyTo buf 0 rest
  some { c with buf, used := rest.length, unread := c.unread.drop got.length, target }

/-- One turn of the loop, where the socket has `avail` bytes to give. -/
def turn (c : Client σ) (avail : ℕ) : Option (Client σ) :=
  if !c.reading then some c
  -- the size asked for would wrap
  else if bufSize ≤ c.used then none
  else
    let got := c.unread.take (min avail (bufSize - c.used - 1))
    if got = [] then some { c with reading := false } else takeIn apply c got

def controlLoop (c : Client σ) (reads : List ℕ) : Option (Client σ) := reads.foldlM (turn apply) c

variable {apply}

variable (apply) in
theorem applyLines_eq {ls : List (List UInt8)} {rest : List UInt8}
    (hls : ∀ l ∈ ls, newline ∉ l) (hls0 : ∀ l ∈ ls, 0 ∉ l) (hrest : newline ∉ rest)
    (hrest0 : 0 ∉ rest) (pre junk : List UInt8) {fuel : ℕ} (hfuel : ls.length < fuel)
    (target : σ) :
    applyLines apply fuel (pre ++ (joinLines newline ls ++ (rest ++ 0 :: junk))) pre.length target =
      some (pre ++ (joinLines 0 ls ++ (rest ++ 0 :: junk)), (pre ++ joinLines 0 ls).length,
        ls.foldl apply target) := by
  induction ls generalizing pre fuel target with
  | nil =>
    obtain ⟨fuel, rfl⟩ := Nat.exists_eq_add_one_of_ne_zero (Nat.ne_of_gt hfuel)
    have hscan : strchr newline (rest ++ 0 :: junk) = some none :=
      strchr_append_nul (by decide) hrest0 hrest junk
    simp [applyLines, hscan]
  | cons l ls ih =>
    obtain ⟨fuel, rfl⟩ := Nat.exists_eq_add_one_of_ne_zero (Nat.ne_zero_of_lt hfuel)
    obtain ⟨hl, hls⟩ := List.forall_mem_cons.mp hls
    obtain ⟨hl0, hls0⟩ := List.forall_mem_cons.mp hls0
    have hscan := strchr_append_self hl0 hl (joinLines newline ls ++ (rest ++ 0 :: junk))
    have hcut (post : List UInt8) :
        copyTo (pre ++ (l ++ newline :: post)) (pre.length + l.length) [0] =
          some (pre ++ (l ++ 0 :: post)) := by
      have hroom : ([0] : List UInt8).length ≤ (newline :: post).length := by simp
      simpa using copyTo_behind hroom (pre ++ l)
    have hline := cString_append_nul hl0 (joinLines newline ls ++ (rest ++ 0 :: junk))
    have hlater := ih hls hls0 (pre ++ (l ++ [0])) (Nat.lt_of_succ_lt_succ hfuel) (apply target l)
    have hcursor : pre.length + l.length + 1 = (pre ++ (l ++ [0])).length := by
      simp [Nat.add_assoc]
    simp only [applyLines, joinLines_cons, List.append_assoc, List.cons_append, List.drop_left,
      hscan, hcut, hline, Option.bind_eq_bind, Option.bind_some, List.foldl_cons, hcursor]
    simpa using hlater

/-- The lines `ls` of what was read are applied and the bytes behind them are in front of
the buffer. -/
structure Kept (apply : σ → List UInt8 → σ) (start : σ) (stream : List UInt8)
    (ls : List (List UInt8)) (c : Client σ) : Prop where
  divided : ∃ text rest, stream = text ++ c.unread ∧ Divided newline text ls rest ∧
    c.used = rest.length ∧ ∃ junk, c.buf = rest ++ junk
  target : c.target = ls.foldl apply start
  size : c.buf.length = bufSize
  used_lt : c.used < bufSize

theorem kept_accepted {buf : List UInt8} (hbuf : buf.length = bufSize) (stream : List UInt8)
    (start : σ) : Kept apply start stream [] (.accepted buf stream start) where
  divided := ⟨[], [], rfl, .nil, rfl, buf, rfl⟩
  target := rfl
  size := hbuf
  used_lt := Nat.zero_lt_succ 255

/-- The copies of a turn before its lines are cut: the bytes that were read and a NUL stand
behind the unfinished line. -/
theorem copyTo_got (rest : List UInt8) {junk got : List UInt8}
    (hroom : got.length < junk.length) :
    ∃ buf junk', copyTo (rest ++ junk) rest.length got = some buf ∧
      copyTo buf (rest.length + got.length) [0] = some (rest ++ got ++ 0 :: junk') ∧
      (rest ++ got ++ 0 :: junk').length = (rest ++ junk).length := by
  have hgot := copyTo_behind (Nat.le_of_lt hroom) rest
  have hleft : ([0] : List UInt8).length ≤ (junk.drop got.length).length := by
    rw [List.length_drop, List.length_singleton]
    omega
  have hnul := copyTo_behind hleft (rest ++ got)
  rw [List.length_append, List.append_assoc rest got (junk.drop got.length)] at hnul
  refine ⟨_, _, hgot, hnul, ?_⟩
  exact (length_copyTo hnul).trans (length_copyTo hgot)

variable (apply) in
theorem takeIn_spec {c : Client σ} {rest junk got rest' : List UInt8} {ls : List (List UInt8)}
    (hused : c.used = rest.length) (hbuf : c.buf = rest ++ junk)
    (hroom : got.length < junk.length) (hsize : c.buf.length = bufSize)
    (hd : Divided newline (rest ++ got) ls rest') (h0 : 0 ∉ rest ++ got) :
    ∃ junk', takeIn apply c got = some { c with
      buf := rest' ++ junk', used := rest'.length, unread := c.unread.drop got.length,
      target := ls.foldl apply c.target } ∧ (rest' ++ junk').length = bufSize := by
  obtain ⟨buf, junk', hgot, hnul, hsize'⟩ := copyTo_got rest hroom
  obtain ⟨hls0, hrest0⟩ := hd.not_mem h0
  rw [hd.text_eq, List.append_assoc] at hnul hsize'
  rw [← hbuf, hsize] at hsize'
  have hfuel : ls.length < bufSize + 1 := by
    have hls : ls.length ≤ (joinLines newline ls).length := length_le_joinLines ls
    rw [List.length_append] at hsize'
    omega
  have hlines := applyLines_eq apply hd.lines hls0 hd.rest hrest0 [] junk' hfuel c.target
  have hrest := cString_append_nul hrest0 junk'
  have hfits : rest'.length ≤ (joinLines 0 ls ++ (rest' ++ 0 :: junk')).length := by
    simp only [List.length_append]
    omega
  have hmove := copyTo_behind hfits []
  simp only [List.nil_append, List.length_nil] at hlines hmove
  refine ⟨(joinLines 0 ls ++ (rest' ++ 0 :: junk')).drop rest'.length, ?_, ?_⟩
  · simp only [takeIn, hbuf, hused, hgot, hnul, hlines, hrest, hmove, List.drop_left,
      Option.bind_eq_bind, Option.bind_some]
  · rw [length_copyTo hmove, List.length_append, length_joinLines_eq 0 newline,
      ← List.length_append]
    exact hsize'

variable {start : σ} {stream : List UInt8} {ls : List (List UInt8)} {c : Client σ}

theorem takeIn_kept (h0 : 0 ∉ stream) (h : Kept apply start stream ls c) {got later : List UInt8}
    (hunread : c.unread = got ++ later) (hroom : c.used + got.length < bufSize) :
    ∃ c' new, takeIn apply c got = some c' ∧ Kept apply start stream (ls ++ new) c' ∧
      c'.reading = c.reading ∧ c'.unread = later := by
  obtain ⟨text, rest, hstream, hd, hused, junk, hbuf⟩ := h.divided
  obtain ⟨new, rest', hd'⟩ := exists_divided newline (rest ++ got)
  rw [hunread, ← List.append_assoc] at hstream
  have hjunk : got.length < junk.length := by
    have hsize := h.size
    rw [hbuf, List.length_append] at hsize
    omega
  have h0' : 0 ∉ rest ++ got := by
    intro hin
    apply h0
    rw [hstream, hd.text_eq, List.append_assoc (joinLines newline ls)]
    exact List.mem_append_left _ (List.mem_append_right _ hin)
  obtain ⟨junk', htake, hsize⟩ := takeIn_spec apply hused hbuf hjunk h.size hd' h0'
  refine ⟨_, new, htake, ⟨⟨text ++ got, rest', ?_, hd.append hd', rfl, junk', rfl⟩, ?_, hsize, ?_⟩,
    rfl, ?_⟩
  · rw [hstream, hunread, List.drop_left]
  · rw [h.target, List.foldl_append]
  · have hlen := congrArg List.length hd'.text_eq
    rw [List.length_append, List.length_append] at hlen
    show rest'.length < bufSize
    omega
  · rw [hunread, List.drop_left]

/-- A turn keeps what was read. It reads on if there is something to read and room for it. -/
theorem turn_kept (h0 : 0 ∉ stream) (h : Kept apply start stream ls c) (avail : ℕ) :
    ∃ c' new, turn apply c avail = some c' ∧ Kept apply start stream (ls ++ new) c' ∧
      (c.reading = true → 0 < avail → c.unread ≠ [] → c.used + 1 < bufSize →
        c'.reading = true ∧ c'.unread.length < c.unread.length) := by
  by_cases hopen : c.reading = true
  swap
  · refine ⟨c, [], if_pos (by simpa using hopen), ?_, fun h => absurd h hopen⟩
    rwa [List.append_nil]
  generalize hgot : c.unread.take (min avail (bufSize - c.used - 1)) = got
  have hturn : turn apply c avail =
      if got = [] then some { c with reading := false } else takeIn apply c got := by
    rw [turn, if_neg (by simp [hopen]), if_neg (Nat.not_le.mpr h.used_lt), hgot]
  have hlen := congrArg List.length hgot
  rw [List.length_take] at hlen
  by_cases hne : got = []
  · rw [if_pos hne] at hturn
    refine ⟨_, [], hturn, ?_, ?_⟩
    · rw [List.append_nil]
      exact ⟨h.divided, h.target, h.size, h.used_lt⟩
    · intro _ havail hunread hroom
      have hpos := List.length_pos_iff.mpr hunread
      rw [hne, List.length_nil] at hlen
      omega
  · rw [if_neg hne] at hturn
    obtain ⟨later, hlater⟩ : got <+: c.unread := hgot ▸ List.take_prefix ..
    have hlt := h.used_lt
    obtain ⟨c', new, htake, hkept, hreading, hunread⟩ :=
      takeIn_kept h0 h hlater.symm (by omega)
    refine ⟨c', new, hturn.trans htake, hkept, fun _ _ _ _ => ⟨hreading.trans hopen, ?_⟩⟩
    have hpos := List.length_pos_iff.mpr hne
    rw [hunread, ← hlater, List.length_append]
    omega

section Lines
variable {lines : List (List UInt8)} {tail : List UInt8}

/-- While a line of at most 254 bytes is outstanding there is something to read and room
for it. -/
theorem Kept.outstanding (hlines : ∀ l ∈ lines, newline ∉ l) (htail : newline ∉ tail)
    (hlen : ∀ l ∈ lines, l.length ≤ 254)
    (h : Kept apply start (joinLines newline lines ++ tail) ls c) :
    ∃ later, lines = ls ++ later ∧
      (later ≠ [] → c.unread ≠ [] ∧ c.used + 1 < bufSize) := by
  obtain ⟨text, rest, hstream, hd, hused, -⟩ := h.divided
  obtain ⟨later, hlater, hrest⟩ := hd.of_prefix hlines htail hstream.symm
  refine ⟨later, hlater, fun hne => ?_⟩
  obtain ⟨l, more, rfl⟩ := List.exists_cons_of_ne_nil hne
  rw [joinLines_cons, List.append_assoc, List.cons_append] at hrest
  constructor
  · intro hnil
    rw [hnil, List.append_nil] at hrest
    exact hd.rest (hrest ▸ List.mem_append_right _ List.mem_cons_self)
  · have hl : l.length ≤ 254 := hlen l (by rw [hlater]; simp)
    have hle := length_le_of_prefix_line hd.rest ⟨c.unread, hrest⟩
    rw [hused]
    exact Nat.lt_of_le_of_lt (Nat.succ_le_succ (hle.trans hl)) (by decide)

/-- Over any reads the lines that are complete are applied; reads that always bring
something end with all of them applied. -/
theorem controlLoop_kept (hlines : ∀ l ∈ lines, newline ∉ l) (htail : newline ∉ tail)
    (hlen : ∀ l ∈ lines, l.length ≤ 254) (h0 : 0 ∉ joinLines newline lines ++ tail)
    (reads : List ℕ) (h : Kept apply start (joinLines newline lines ++ tail) ls c) :
    ∃ c' new, controlLoop apply c reads = some c' ∧
      Kept apply start (joinLines newline lines ++ tail) (ls ++ new) c' ∧
      (c.reading = true → (∀ k ∈ reads, 0 < k) → c.unread.length ≤ reads.length →
        ls ++ new = lines) := by
  induction reads generalizing c ls with
  | nil =>
    refine ⟨c, [], rfl, by rwa [List.append_nil], fun _ _ hall => ?_⟩
    obtain ⟨later, hlater, hmore⟩ := h.outstanding hlines htail hlen
    have hnil : c.unread = [] := List.length_eq_zero_iff.mp (Nat.le_zero.mp hall)
    have hdone : later = [] := by
      by_contra hne
      exact (hmore hne).1 hnil
    rw [hlater, hdone]
  | cons k reads ih =>
    obtain ⟨c₁, new₁, hturn, hkept₁, hon⟩ := turn_kept h0 h k
    obtain ⟨c', new', hrun, hkept, hend⟩ := ih hkept₁
    rw [List.append_assoc] at hkept hend
    refine ⟨c', new₁ ++ new', ?_, hkept, fun hopen hpos hall => ?_⟩
    · rw [controlLoop, List.foldlM_cons, hturn]
      exact hrun
    obtain ⟨later, hlater, hmore⟩ := h.outstanding hlines htail hlen
    obtain ⟨later', hlater', -⟩ := hkept.outstanding hlines htail hlen
    by_cases hdone : later = []
    · -- the lines were complete before this read and no other can follow
      have hext : ls ++ (new₁ ++ new' ++ later') = ls ++ [] := by
        rw [← List.append_assoc, ← hlater', hlater, hdone]
      have hnil := (List.append_eq_nil_iff.mp (List.append_cancel_left hext)).1
      rw [hnil, hlater, hdone]
    · obtain ⟨hunread, hroom⟩ := hmore hdone
      obtain ⟨hk, hpos⟩ := List.forall_mem_cons.mp hpos
      obtain ⟨hopen₁, hless⟩ := hon hopen hk hunread hroom
      rw [List.length_cons] at hall
      exact hend hopen₁ hpos (by omega)

end Lines

end Loop

section Switches
variable {api : OrderBookApi} {D : Type}

theorem foldl_applyCommandLine (g : Dispatcher api D) (lines : List (List UInt8)) :
    lines.foldl applyCommandLine (some g) = some (g.controls (lines.filterMap commandOf)) := by
  induction lines generalizing g with
  | nil => rfl
  | cons line lines ih =>
    rw [List.foldl_cons, applyCommandLine, Option.map_some, ih]
    cases hline : commandOf line with
    | none => rw [List.filterMap_cons_none hline, Option.elim_none]
    | some c => rw [List.filterMap_cons_some hline]; rfl

theorem filterMap_commandText (cs : List Control) :
    (cs.map commandText).filterMap commandOf = cs := by
  rw [List.filterMap_map, show commandOf ∘ commandText = some from funext commandOf_commandText]
  exact List.filterMap_some

/-- Commands are applied exactly once for any reads: whatever they return, no copy or search
leaves the buffer, the handler has seen the lines whose newline was read, each once and in
order, and never the tail; reads that always bring something end with every line applied.
With `apply_command_line` for the handler the switches are then those of the controls the
lines ask for, one after the other. -/
theorem commands_applied_once {σ : Type} (apply : σ → List UInt8 → σ) (start : σ)
    {lines : List (List UInt8)} {tail buf : List UInt8}
    (hlines : ∀ l ∈ lines, l.length ≤ 254 ∧ newline ∉ l ∧ 0 ∉ l)
    (htail : newline ∉ tail ∧ 0 ∉ tail) (hbuf : buf.length = bufSize) (reads : List ℕ) :
    (∃ c read,
      controlLoop apply (.accepted buf (joinLines newline lines ++ tail) start) reads = some c ∧
      joinLines newline lines ++ tail = read ++ c.unread ∧
      c.target = (lines.take (read.count newline)).foldl apply start ∧
      c.buf.length = bufSize ∧ c.used < bufSize ∧
      ((∀ k ∈ reads, 0 < k) → (joinLines newline lines ++ tail).length ≤ reads.length →
        c.target = lines.foldl apply start)) ∧
    (∀ (api : OrderBookApi) (D : Type) (g : Dispatcher api D),
      lines.foldl applyCommandLine (some g) = some (g.controls (lines.filterMap commandOf))) ∧
    ∀ cs : List Control, (cs.map commandText).filterMap commandOf = cs := by
  refine ⟨?_, fun _ _ g => foldl_applyCommandLine g lines, filterMap_commandText⟩
  have hnl : ∀ l ∈ lines, newline ∉ l := fun l hl => (hlines l hl).2.1
  have hlen : ∀ l ∈ lines, l.length ≤ 254 := fun l hl => (hlines l hl).1
  have h0 : 0 ∉ joinLines newline lines ++ tail := by
    intro hin
    rcases List.mem_append.mp hin with hin | hin
    · exact not_mem_joinLines (by decide) (fun l hl => (hlines l hl).2.2) hin
    · exact htail.2 hin
  obtain ⟨c, ls, hrun, hkept, hall⟩ :=
    controlLoop_kept hnl htail.1 hlen h0 reads (kept_accepted hbuf _ start)
  rw [List.nil_append] at hkept hall
  obtain ⟨read, rest, hstream, hd, -⟩ := hkept.divided
  obtain ⟨later, hlater, -⟩ := hkept.outstanding hnl htail.1 hlen
  refine ⟨c, read, hrun, hstream, ?_, hkept.size, hkept.used_lt, fun hpos hmany => ?_⟩
  · rw [hkept.target, hd.count_eq, hlater, List.take_left]
  · rw [hkept.target, hall rfl hpos hmany]

def killArmLines : List (List UInt8) := [ascii "kill_symbol 13", ascii "arm_all"]

/-- Two commands and a piece of a third, read byte by byte. -/
theorem commands_applied_once_killArmLines :
    ∃ c, controlLoop (fun seen line => seen ++ [line])
        (.accepted (List.replicate bufSize 0)
          (joinLines newline killArmLines ++ ascii "kill_gl") [])
        (List.replicate 30 1) = some c ∧ c.target = killArmLines := by
  have hlines : ∀ l ∈ killArmLines, l.length ≤ 254 ∧ newline ∉ l ∧ 0 ∉ l := by decide
  have htail : newline ∉ ascii "kill_gl" ∧ 0 ∉ ascii "kill_gl" := by decide
  obtain ⟨⟨c, read, hrun, -, -, -, -, hall⟩, -⟩ :=
    commands_applied_once (fun seen line => seen ++ [line]) [] hlines htail
      (List.length_replicate (a := 0)) (List.replicate 30 1)
  exact ⟨c, hrun, hall (by decide) (by decide)⟩

end Switches

end TradingPipeline.Telemetry
