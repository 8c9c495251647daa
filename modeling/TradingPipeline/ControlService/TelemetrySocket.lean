import TradingPipeline.Lib.Runs
import TradingPipeline.Telemetry.Reports

/-! # The telemetry socket

The wire observer and the statistics thread each write their lines to a connection of their own,
in as many sends as it takes. A failed send closes the connection, and a later one is opened
anew. The control service collects the bytes of each connection and hands every line
to the JSON parser.
-/
namespace TradingPipeline.ControlService
open Lib Telemetry

section Service

def trim (line : List UInt8) : List UInt8 :=
  ((line.dropWhile isSpace).reverse.dropWhile isSpace).reverse

/-- The `while` over the newlines of the buffer: the lines it hands on and the buffer it leaves. -/
def lineLoop : ℕ → List UInt8 → List (List UInt8) × List UInt8
  | 0, buffer => ([], buffer)
  | fuel + 1, buffer =>
    let idx := buffer.idxOf newline
    if buffer.length ≤ idx then ([], buffer)
    else
      let line := trim (buffer.take idx)
      let r := lineLoop fuel (buffer.drop (idx + 1))
      (if line = [] then r.1 else line :: r.1, r.2)

/-- A connection to the service. `lines` are the lines that were sent to their ends, without
the newline, and `begun` is what was sent of another one. -/
structure Connection where
  unread : List UInt8
  buffer : List UInt8
  handled : List (List UInt8)
  lines : List (List UInt8)
  begun : List UInt8
  deriving DecidableEq, Repr

def Connection.opened : Connection := ⟨[], [], [], [], []⟩

/-- The handler of `data`, with the next `n` bytes; every turn of the loop takes a byte at
least. -/
def Connection.onData (c : Connection) (n : ℕ) : Connection :=
  let buffer := c.buffer ++ c.unread.take n
  let r := lineLoop buffer.length buffer
  { c with
    unread := c.unread.drop n
    buffer := r.2
    handled := c.handled ++ r.1 }

end Service

section Senders

/-- A sender and the connections it has made: the closed ones and the open one. Of the line
that is being sent, `rest` is still to go. `emitted` are the lines that were to be sent,
and `lost` counts those that were given up. -/
structure Link where
  past : List Connection
  fd : Option Connection
  rest : List UInt8
  emitted : List (List UInt8)
  lost : ℕ
  deriving DecidableEq, Repr

def Link.init : Link := ⟨[], none, [], [], 0⟩

def Link.connections (l : Link) : List Connection := l.past ++ l.fd.toList

def Link.lines (l : Link) : List (List UInt8) := l.connections.flatMap Connection.lines

def Link.current (l : Link) : List (List UInt8) :=
  match l.fd with
  | none => []
  | some c => if l.rest = [] then [] else [(c.begun ++ l.rest).dropLast]

def Link.connect (l : Link) : Option Link :=
  if l.fd = none ∧ l.rest = [] then some { l with fd := some .opened } else none

/-- Without a connection the line is given up. -/
def Link.emit (l : Link) (text : List UInt8) : Option Link :=
  if l.rest = [] then
    if l.fd = none then some { l with emitted := l.emitted ++ [text.dropLast], lost := l.lost + 1 }
    else some { l with emitted := l.emitted ++ [text.dropLast], rest := text }
  else none

/-- A `send` takes `n` bytes; the last one ends the line. -/
def Connection.send (c : Connection) (rest : List UInt8) (n : ℕ) : Connection :=
  if n < rest.length then
    { c with unread := c.unread ++ rest.take n, begun := c.begun ++ rest.take n }
  else { c with
    unread := c.unread ++ rest
    lines := c.lines ++ [(c.begun ++ rest).dropLast]
    begun := [] }

def Link.send (l : Link) (n : ℕ) : Option Link :=
  match l.fd with
  | none => none
  | some c =>
    if l.rest ≠ [] ∧ 0 < n ∧ n ≤ l.rest.length then
      some { l with fd := some (c.send l.rest n), rest := l.rest.drop n }
    else none

/-- A failed `send`. -/
def Link.close (l : Link) : Option Link :=
  match l.fd with
  | none => none
  | some c =>
    if l.rest = [] then none
    else some { l with past := l.past ++ [c], fd := none, rest := [], lost := l.lost + 1 }

/-- The service reads the next `n` bytes of a closed connection, or of the open one. -/
def Link.data (l : Link) (i : Option ℕ) (n : ℕ) : Link :=
  match i with
  | some i => { l with past := l.past.modify i (·.onData n) }
  | none => { l with fd := l.fd.map (·.onData n) }

end Senders

section System

inductive Source
  | observer
  | stats
  deriving DecidableEq, Repr

def source : Message → Source
  | .feed .. | .order .. | .ack .. | .health .. => .observer
  | .mmStats .. | .latStats .. => .stats

/-- Both senders, and the counter of the observer. -/
structure State where
  observer : Link
  stats : Link
  transportDrops : UInt64
  deriving DecidableEq, Repr

def init : State := ⟨.init, .init, 0⟩

def State.link (s : State) : Source → Link
  | .observer => s.observer
  | .stats => s.stats

def State.setLink (s : State) (src : Source) (l : Link) : State :=
  match src with
  | .observer => { s with observer := l }
  | .stats => { s with stats := l }

/-- Only the observer counts the lines it gives up. -/
def State.drop (s : State) : Source → State
  | .observer => { s with transportDrops := s.transportDrops + 1 }
  | .stats => s

/-- A health event reports the counter as it stands. -/
def Reports (s : State) : Message → Prop
  | .health _ counters => counters.transportDrops = s.transportDrops
  | .feed .. | .order .. | .ack .. | .mmStats .. | .latStats .. => True

instance (s : State) : DecidablePred (Reports s)
  | .health _ counters => inferInstanceAs (Decidable (counters.transportDrops = s.transportDrops))
  | .feed .. | .order .. | .ack .. | .mmStats .. | .latStats .. => .isTrue trivial

inductive Action
  | connect (src : Source)
  | emit (m : Message)
  | send (src : Source) (n : ℕ)
  | interrupted (src : Source)
  | failed (src : Source)
  | data (src : Source) (i : Option ℕ) (n : ℕ)

/-- The close of a connection and the line that is given up with it. -/
def State.fail (s : State) (src : Source) : Option State := do
  let l ← (s.link src).close
  some ((s.setLink src l).drop src)

def step (s : State) : Action → Option State
  | .connect src => do
    let l ← (s.link src).connect
    some (s.setLink src l)
  | .emit m =>
    if Reports s m then do
      let text ← m.text
      let l ← (s.link (source m)).emit text
      let t := s.setLink (source m) l
      some (if (s.link (source m)).fd = none then t.drop (source m) else t)
    else none
  | .send src n => do
    let l ← (s.link src).send n
    some (s.setLink src l)
  -- only the observer looks at `errno`
  | .interrupted .observer => if s.observer.rest = [] then none else some s
  | .interrupted .stats => s.fail .stats
  | .failed src => s.fail src
  | .data src i n => some (s.setLink src ((s.link src).data i n))

abbrev Step (s : State) (a : Action) (t : State) : Prop := step s a = some t

def Action.Plain : Action → Prop
  | .emit m => m.Plain
  | .connect _ | .send _ _ | .interrupted _ | .failed _ | .data _ _ _ => True

end System

section Lines
variable {line body : List UInt8}

theorem body_of_isLine (h : IsLine (body ++ [newline])) :
    trim body = body ∧ body ≠ [] ∧ newline ∉ body := by
  obtain ⟨inner, heq, hinner⟩ := h
  have hbody : body = 123 :: (inner ++ [125]) := by
    have hsplit : (123 : UInt8) :: (inner ++ [125, newline]) =
        123 :: (inner ++ [125]) ++ [newline] := by simp
    rw [hsplit] at heq
    exact List.append_cancel_right heq
  subst hbody
  refine ⟨?_, by simp, ?_⟩
  · have hopen : isSpace 123 = false := by decide
    have hclose : isSpace 125 = false := by decide
    simp [trim, hopen, hclose]
  · intro hmem
    rcases List.mem_cons.mp hmem with hbad | hmem
    · exact absurd hbad (by decide)
    · rcases List.mem_append.mp hmem with hmem | hmem
      · exact absurd (hinner newline hmem) (by decide)
      · exact absurd hmem (by decide)

theorem isLine_eq_body (h : IsLine line) : line.dropLast ++ [newline] = line := by
  obtain ⟨inner, rfl, -⟩ := h
  have hsplit : (123 : UInt8) :: (inner ++ [125, newline]) =
      (123 :: (inner ++ [125])) ++ [newline] := by simp
  rw [hsplit, List.dropLast_concat]

theorem lineLoop_eq {text rest : List UInt8} {ls : List (List UInt8)}
    (h : Divided newline text ls rest) (hls : ∀ l ∈ ls, trim l = l ∧ l ≠ []) {fuel : ℕ}
    (hfuel : text.length ≤ fuel) : lineLoop fuel text = (ls, rest) := by
  induction fuel generalizing text ls with
  | zero =>
    obtain rfl := List.eq_nil_of_length_eq_zero (Nat.le_zero.mp hfuel)
    have hcount := h.count_eq
    obtain rfl := List.eq_nil_of_length_eq_zero hcount.symm
    rw [lineLoop, h.text_eq]
    rfl
  | succ fuel ih =>
    cases ls with
    | nil =>
      have htext : text = rest := h.text_eq
      have hidx : text.length ≤ text.idxOf newline :=
        (List.idxOf_eq_length (htext ▸ h.rest)).ge
      rw [lineLoop, if_pos hidx, htext]
    | cons l ls =>
      obtain ⟨hl, hrest⟩ := List.forall_mem_cons.mp hls
      obtain ⟨hnl, hlines⟩ := List.forall_mem_cons.mp h.lines
      have htext : text = l ++ newline :: (joinLines newline ls ++ rest) := by
        rw [h.text_eq, joinLines_cons, List.append_assoc, List.cons_append]
      have hidx : text.idxOf newline = l.length := by
        rw [htext, List.idxOf_append_of_notMem hnl, List.idxOf_cons_self, Nat.add_zero]
      have hlen : l.length < text.length := by
        rw [htext, List.length_append, List.length_cons]
        omega
      have hdrop : text.drop (l.length + 1) = joinLines newline ls ++ rest := by
        rw [htext, ← List.drop_drop, List.drop_left]
        rfl
      have htake : text.take l.length = l := by rw [htext, List.take_left]
      have hloop := @ih (text.drop (l.length + 1)) ls ⟨hdrop, hlines, h.rest⟩ hrest
        (by rw [List.length_drop]; omega)
      rw [lineLoop, hidx, if_neg (Nat.not_le.mpr hlen), hloop, htake, hl.1]
      dsimp only
      rw [if_neg hl.2]

end Lines

section Connections
variable {c : Connection}

/-- What the service has read of a connection divides into the lines it handed on and the
buffer, and starts what was sent. -/
structure Connection.Inv (c : Connection) : Prop where
  read : ∃ read, Divided newline read c.handled c.buffer ∧
    read ++ c.unread = joinLines newline c.lines ++ c.begun
  lines : ∀ l ∈ c.lines, IsLine (l ++ [newline])
  begun : newline ∉ c.begun

namespace Connection.Inv

theorem opened : Connection.opened.Inv :=
  ⟨⟨[], .nil, rfl⟩, List.forall_mem_nil _, List.not_mem_nil⟩

theorem newline_not_mem (h : c.Inv) : ∀ l ∈ c.lines, newline ∉ l :=
  fun l hl => (body_of_isLine (h.lines l hl)).2.2

theorem handled_first (h : c.Inv) : c.handled <+: c.lines := by
  obtain ⟨read, hdiv, heq⟩ := h.read
  obtain ⟨later, hlater, -⟩ := hdiv.of_prefix h.newline_not_mem h.begun heq
  exact ⟨later, hlater.symm⟩

/-- Once nothing is unread, no line is missing: its newline would stand in the buffer. -/
theorem all_handled (h : c.Inv) (hunread : c.unread = []) : c.handled = c.lines := by
  obtain ⟨read, hdiv, heq⟩ := h.read
  obtain ⟨later, hlater, hrest⟩ := hdiv.of_prefix h.newline_not_mem h.begun heq
  cases later with
  | nil => rw [hlater, List.append_nil]
  | cons l later =>
    refine absurd ?_ hdiv.rest
    rw [hunread, List.append_nil, joinLines_cons] at hrest
    rw [hrest]
    exact List.mem_append_left _ (List.mem_append_right _ List.mem_cons_self)

theorem onData (h : c.Inv) (n : ℕ) : (c.onData n).Inv := by
  obtain ⟨read, hdiv, heq⟩ := h.read
  obtain ⟨ls, rest, hnew⟩ := exists_divided newline (c.buffer ++ c.unread.take n)
  have hall := hdiv.append hnew
  have heq' : (read ++ c.unread.take n) ++ c.unread.drop n =
      joinLines newline c.lines ++ c.begun := by
    rw [List.append_assoc, List.take_append_drop, heq]
  obtain ⟨later, hlater, -⟩ := hall.of_prefix h.newline_not_mem h.begun heq'
  have hls : ∀ l ∈ ls, trim l = l ∧ l ≠ [] := by
    intro l hl
    have hmem : l ∈ c.lines := by
      rw [hlater]
      exact List.mem_append_left _ (List.mem_append_right _ hl)
    obtain ⟨htrim, hne, -⟩ := body_of_isLine (h.lines l hmem)
    exact ⟨htrim, hne⟩
  have hloop := lineLoop_eq hnew hls (Nat.le_refl _)
  refine ⟨⟨read ++ c.unread.take n, ?_, heq'⟩, h.lines, h.begun⟩
  rw [Connection.onData, hloop]
  exact hall

theorem send (h : c.Inv) {rest : List UInt8} (hline : IsLine (c.begun ++ rest)) (n : ℕ) :
    (c.send rest n).Inv := by
  have hbody := isLine_eq_body hline
  obtain ⟨read, hdiv, heq⟩ := h.read
  by_cases hn : n < rest.length
  · rw [Connection.send, if_pos hn]
    refine ⟨⟨read, hdiv, ?_⟩, h.lines, ?_⟩
    · rw [← List.append_assoc, heq, List.append_assoc]
    · -- what was sent stops short of the newline
      have hpre : c.begun ++ rest.take n <+: c.begun ++ rest :=
        (List.prefix_append_right_inj _).mpr (List.take_prefix n rest)
      have hshort : c.begun ++ rest.take n <+: (c.begun ++ rest).dropLast := by
        refine List.prefix_of_prefix_length_le hpre (List.dropLast_prefix _) ?_
        rw [List.length_dropLast, List.length_append, List.length_append, List.length_take]
        omega
      rw [← hbody] at hline
      exact fun hmem => (body_of_isLine hline).2.2 (hshort.subset hmem)
  · rw [Connection.send, if_neg hn]
    refine ⟨⟨read, hdiv, ?_⟩, ?_, List.not_mem_nil⟩
    · rw [← List.append_assoc, heq, joinLines_append, joinLines_cons, joinLines_nil,
        List.append_nil, hbody, List.append_assoc]
    · refine List.forall_mem_append.mpr ⟨h.lines, List.forall_mem_singleton.mpr ?_⟩
      rw [hbody]
      exact hline

end Connection.Inv

end Connections

section Links
variable {l l' : Link}

theorem forall_mem_modify {α : Type*} {P : α → Prop} {f : α → α} (hf : ∀ a, P a → P (f a))
    {as : List α} (h : ∀ a ∈ as, P a) (i : ℕ) : ∀ a ∈ as.modify i f, P a := by
  induction as generalizing i with
  | nil => rwa [List.modify_nil]
  | cons a as ih =>
    obtain ⟨ha, has⟩ := List.forall_mem_cons.mp h
    cases i with
    | zero => exact List.forall_mem_cons.mpr ⟨hf a ha, has⟩
    | succ i => exact List.forall_mem_cons.mpr ⟨ha, ih has i⟩

theorem flatMap_modify {α β : Type*} {f : α → α} {g : α → List β} (hf : ∀ a, g (f a) = g a)
    (as : List α) (i : ℕ) : (as.modify i f).flatMap g = as.flatMap g := by
  induction as generalizing i with
  | nil => rw [List.modify_nil]
  | cons a as ih =>
    cases i with
    | zero => rw [List.modify_zero_cons, List.flatMap_cons, List.flatMap_cons, hf]
    | succ i => rw [List.modify_succ_cons, List.flatMap_cons, List.flatMap_cons, ih]

/-- Of the lines that were to be sent, those in `sent` were not lost. -/
structure Account (sent emitted : List (List UInt8)) (lost : ℕ) : Prop where
  sublist : sent.Sublist emitted
  count : emitted.length = sent.length + lost

namespace Account
variable {sent emitted : List (List UInt8)} {lost : ℕ} {body : List UInt8}

theorem append (h : Account sent emitted lost) (body : List UInt8) :
    Account (sent ++ [body]) (emitted ++ [body]) lost where
  sublist := h.sublist.append_right [body]
  count := by
    rw [List.length_append, List.length_append, h.count]
    omega

theorem lose (h : Account (sent ++ [body]) emitted lost) : Account sent emitted (lost + 1) where
  sublist := (List.sublist_append_left sent [body]).trans h.sublist
  count := by
    rw [h.count, List.length_append, List.length_singleton]
    omega

end Account

/-- The lines that were sent, the current one with them. -/
def Link.sent (l : Link) : List (List UInt8) := l.lines ++ l.current

theorem Link.lines_eq (l : Link) :
    l.lines = l.past.flatMap Connection.lines ++ l.fd.toList.flatMap Connection.lines :=
  List.flatMap_append

theorem Link.current_of_rest_nil (h : l.rest = []) : l.current = [] := by
  unfold Link.current
  split
  · rfl
  · exact if_pos h

theorem Link.current_of_rest_ne {c : Connection} (hfd : l.fd = some c) (h : l.rest ≠ []) :
    l.current = [(c.begun ++ l.rest).dropLast] := by
  rw [Link.current, hfd]
  exact if_neg h

section Calls

theorem Link.connect_eq (h : l.connect = some l') :
    l.fd = none ∧ l.rest = [] ∧ l' = { l with fd := some .opened } := by
  rw [Link.connect] at h
  split at h
  case isFalse => cases h
  case isTrue hguard =>
    cases h
    exact ⟨hguard.1, hguard.2, rfl⟩

theorem Link.emit_eq {text : List UInt8} (h : l.emit text = some l') : l.rest = [] ∧
    (l.fd = none ∧
        l' = { l with emitted := l.emitted ++ [text.dropLast], lost := l.lost + 1 } ∨
      l.fd ≠ none ∧ l' = { l with emitted := l.emitted ++ [text.dropLast], rest := text }) := by
  rw [Link.emit] at h
  split at h
  case isFalse => cases h
  case isTrue hrest =>
    refine ⟨hrest, ?_⟩
    split at h
    case isTrue hfd =>
      cases h
      exact .inl ⟨hfd, rfl⟩
    case isFalse hfd =>
      cases h
      exact .inr ⟨hfd, rfl⟩

theorem Link.send_eq {n : ℕ} (h : l.send n = some l') : l.rest ≠ [] ∧ ∃ c, l.fd = some c ∧
    l' = { l with fd := some (c.send l.rest n), rest := l.rest.drop n } := by
  rw [Link.send] at h
  split at h
  case h_1 => cases h
  case h_2 c hc =>
    split at h
    case isFalse => cases h
    case isTrue hguard =>
      cases h
      exact ⟨hguard.1, c, hc, rfl⟩

theorem Link.close_eq (h : l.close = some l') : l.rest ≠ [] ∧ ∃ c, l.fd = some c ∧
    l' = { l with past := l.past ++ [c], fd := none, rest := [], lost := l.lost + 1 } := by
  rw [Link.close] at h
  split at h
  case h_1 => cases h
  case h_2 c hc =>
    split at h
    case isTrue => cases h
    case isFalse hrest =>
      cases h
      exact ⟨hrest, c, hc, rfl⟩

theorem Link.lost_data (l : Link) (i : Option ℕ) (n : ℕ) : (l.data i n).lost = l.lost := by
  cases i <;> rfl

end Calls

/-- A sender's connections are well kept, the line being sent is a line, and every line that was
to be sent was sent, is being sent or was lost. -/
structure Link.Inv (l : Link) : Prop where
  past : ∀ c ∈ l.past, c.Inv
  fd : ∀ c, l.fd = some c → c.Inv
  sending : l.rest ≠ [] → ∃ c, l.fd = some c ∧ IsLine (c.begun ++ l.rest)
  waiting : l.rest = [] → ∀ c, l.fd = some c → c.begun = []
  account : Account l.sent l.emitted l.lost

namespace Link.Inv

theorem init : Link.init.Inv where
  past := List.forall_mem_nil _
  fd := fun _ hc => by cases hc
  sending := fun h => absurd rfl h
  waiting := fun _ _ hc => by cases hc
  account := ⟨List.Sublist.refl [], rfl⟩

theorem connect (h : l.Inv) (hl : l.connect = some l') : l'.Inv := by
  obtain ⟨hfd, hrest, rfl⟩ := Link.connect_eq hl
  refine ⟨h.past, ?_, fun hne => absurd hrest hne, ?_, ?_⟩
  · rintro c ⟨⟩
    exact .opened
  · rintro - c ⟨⟩
    rfl
  · have hsent : Link.sent { l with fd := some .opened } = l.sent := by
      rw [Link.sent, Link.sent, @Link.current_of_rest_nil l hrest,
        @Link.current_of_rest_nil { l with fd := some .opened } hrest, Link.lines_eq,
        Link.lines_eq, hfd]
      rfl
    rw [hsent]
    exact h.account

theorem emit (h : l.Inv) {text : List UInt8} (htext : IsLine text)
    (hl : l.emit text = some l') : l'.Inv := by
  obtain ⟨hrest, hcases⟩ := Link.emit_eq hl
  have hsent : l.sent = l.lines := by
    rw [Link.sent, Link.current_of_rest_nil hrest, List.append_nil]
  have haccount := h.account.append text.dropLast
  rw [hsent] at haccount
  rcases hcases with ⟨-, rfl⟩ | ⟨hfd, rfl⟩
  · refine ⟨h.past, h.fd, h.sending, h.waiting, ?_⟩
    have hkeep : Link.sent { l with
        emitted := l.emitted ++ [text.dropLast], lost := l.lost + 1 } = l.lines := hsent
    rw [hkeep]
    exact haccount.lose
  · obtain ⟨c, hc⟩ := Option.ne_none_iff_exists'.mp hfd
    have hbegun := h.waiting hrest c hc
    have hne : text ≠ [] := by
      obtain ⟨inner, rfl, -⟩ := htext
      exact List.cons_ne_nil _ _
    refine ⟨h.past, h.fd, fun _ => ⟨c, hc, ?_⟩, fun hnil => absurd hnil hne, ?_⟩
    · rwa [hbegun]
    · have hcurrent : Link.sent { l with
          emitted := l.emitted ++ [text.dropLast], rest := text } =
          l.lines ++ [text.dropLast] := by
        rw [Link.sent, @Link.current_of_rest_ne { l with
          emitted := l.emitted ++ [text.dropLast], rest := text } c hc hne, hbegun,
          List.nil_append]
        rfl
      rw [hcurrent]
      exact haccount

theorem sent_send {c : Connection} (hc : l.fd = some c) (hrest : l.rest ≠ []) (n : ℕ) :
    Link.sent { l with fd := some (c.send l.rest n), rest := l.rest.drop n } = l.sent := by
  have hsent : l.sent = l.past.flatMap Connection.lines ++ c.lines ++
      [(c.begun ++ l.rest).dropLast] := by
    rw [Link.sent, Link.current_of_rest_ne hc hrest, Link.lines_eq, hc, Option.toList_some,
      List.flatMap_singleton]
  by_cases hlt : n < l.rest.length
  · have hne : l.rest.drop n ≠ [] := fun hnil =>
      Nat.not_le.mpr hlt (List.drop_eq_nil_iff.mp hnil)
    rw [hsent, Link.sent, Link.current_of_rest_ne rfl hne, Link.lines_eq]
    simp only [Connection.send, if_pos hlt, Option.toList_some, List.flatMap_singleton,
      List.append_assoc, List.take_append_drop]
  · have hnil : l.rest.drop n = [] := List.drop_eq_nil_of_le (Nat.not_lt.mp hlt)
    rw [hsent, Link.sent, Link.current_of_rest_nil hnil, Link.lines_eq]
    simp only [Connection.send, if_neg hlt, Option.toList_some, List.flatMap_singleton,
      List.append_assoc, List.append_nil]

theorem send (h : l.Inv) {n : ℕ} (hl : l.send n = some l') : l'.Inv := by
  obtain ⟨hrest, c, hc, rfl⟩ := Link.send_eq hl
  obtain ⟨c', hc', hline⟩ := h.sending hrest
  cases hc.symm.trans hc'
  refine ⟨h.past, ?_, ?_, ?_, ?_⟩
  · rintro d ⟨⟩
    exact (h.fd c hc).send hline n
  · intro hne
    have hlt : n < l.rest.length := by
      by_contra hge
      exact hne (List.drop_eq_nil_of_le (Nat.not_lt.mp hge))
    refine ⟨_, rfl, ?_⟩
    rw [Connection.send, if_pos hlt]
    dsimp only
    rwa [List.append_assoc, List.take_append_drop]
  · rintro hnil d ⟨⟩
    have hge : ¬ n < l.rest.length := Nat.not_lt.mpr (List.drop_eq_nil_iff.mp hnil)
    rw [Connection.send, if_neg hge]
  · rw [sent_send hc hrest n]
    exact h.account

theorem close (h : l.Inv) (hl : l.close = some l') : l'.Inv := by
  obtain ⟨hrest, c, hc, rfl⟩ := Link.close_eq hl
  refine ⟨?_, fun _ hd => (by cases hd), fun hne => absurd rfl hne,
    fun _ _ hd => (by cases hd), ?_⟩
  · exact List.forall_mem_append.mpr ⟨h.past, List.forall_mem_singleton.mpr (h.fd c hc)⟩
  · have haccount := h.account
    rw [Link.sent, Link.current_of_rest_ne hc hrest] at haccount
    have hsent : Link.sent { l with
        past := l.past ++ [c], fd := none, rest := [], lost := l.lost + 1 } = l.lines := by
      rw [Link.sent, Link.current_of_rest_nil rfl, List.append_nil, Link.lines_eq,
        Link.lines_eq, hc]
      simp
    rw [hsent]
    exact haccount.lose

theorem data (h : l.Inv) (i : Option ℕ) (n : ℕ) : (l.data i n).Inv := by
  cases i with
  | some i =>
    refine ⟨?_, h.fd, h.sending, h.waiting, ?_⟩
    · exact forall_mem_modify (fun c hc => Connection.Inv.onData hc n) h.past i
    · have hlines : (l.data (some i) n).lines = l.lines := by
        rw [Link.lines_eq, Link.lines_eq]
        congr 1
        exact @flatMap_modify _ _ (fun c => c.onData n) Connection.lines (fun _ => rfl) l.past i
      rw [Link.sent, hlines]
      exact h.account
  | none =>
    cases hfd : l.fd with
    | none =>
      have hsame : l.data none n = l := by
        rw [Link.data, hfd, Option.map_none, ← hfd]
      rw [hsame]
      exact h
    | some c =>
      have hdata : (l.data none n).fd = some (c.onData n) := by
        rw [Link.data, hfd]
        rfl
      refine ⟨h.past, ?_, ?_, ?_, ?_⟩
      · intro d hd
        cases hdata.symm.trans hd
        exact (h.fd c hfd).onData n
      · intro hne
        obtain ⟨d, hd, hline⟩ := h.sending hne
        cases hfd.symm.trans hd
        exact ⟨_, hdata, hline⟩
      · intro hnil d hd
        cases hdata.symm.trans hd
        exact h.waiting hnil c hfd
      · have hsent : (l.data none n).sent = l.sent := by
          rw [Link.sent, Link.sent, Link.lines_eq, Link.lines_eq, Link.current, Link.current, hdata,
            hfd]
          rfl
        rw [hsent]
        exact h.account

end Link.Inv

end Links

section Runs
variable {s t : State} {src : Source} {l : Link}

structure State.Inv (s : State) : Prop where
  links : ∀ src, (s.link src).Inv
  drops : s.transportDrops = UInt64.ofNat s.observer.lost

theorem inv_init : init.Inv := ⟨fun src => by cases src <;> exact .init, rfl⟩

theorem State.Inv.setLink (h : s.Inv) (hl : l.Inv) (hlost : l.lost = (s.link src).lost) :
    (s.setLink src l).Inv := by
  cases src with
  | observer =>
    refine ⟨fun src => ?_, by rw [State.setLink, h.drops]; exact congrArg _ hlost.symm⟩
    cases src with
    | observer => exact hl
    | stats => exact h.links .stats
  | stats =>
    refine ⟨fun src => ?_, h.drops⟩
    cases src with
    | observer => exact h.links .observer
    | stats => exact hl

theorem State.Inv.lose (h : s.Inv) (hl : l.Inv) (hlost : l.lost = (s.link src).lost + 1) :
    ((s.setLink src l).drop src).Inv := by
  cases src with
  | observer =>
    refine ⟨fun src => ?_, ?_⟩
    · cases src with
      | observer => exact hl
      | stats => exact h.links .stats
    · change s.transportDrops + 1 = UInt64.ofNat l.lost
      rw [hlost, h.drops, UInt64.ofNat_add]
      rfl
  | stats =>
    refine ⟨fun src => ?_, h.drops⟩
    cases src with
    | observer => exact h.links .observer
    | stats => exact hl

theorem inv_fail (h : s.Inv) (ht : s.fail src = some t) : t.Inv := by
  obtain ⟨l, hl, ht⟩ := Option.bind_eq_some_iff.mp ht
  cases ht
  refine h.lose ((h.links src).close hl) ?_
  obtain ⟨-, c, -, rfl⟩ := Link.close_eq hl
  rfl

theorem inv_emit (h : s.Inv) {m : Message} (hm : m.Plain) (ht : Step s (.emit m) t) : t.Inv := by
  rw [Step, step] at ht
  split at ht
  case isFalse => cases ht
  case isTrue =>
    obtain ⟨text, htext, ht⟩ := Option.bind_eq_some_iff.mp ht
    obtain ⟨l, hl, ht⟩ := Option.bind_eq_some_iff.mp ht
    obtain ⟨line, hline, hisLine⟩ := Message.text_line hm
    cases htext.symm.trans hline
    have hinv := (h.links (source m)).emit hisLine hl
    cases ht
    obtain ⟨-, ⟨hfd, rfl⟩ | ⟨hfd, rfl⟩⟩ := Link.emit_eq hl
    · rw [if_pos hfd]
      exact h.lose hinv rfl
    · rw [if_neg hfd]
      exact h.setLink hinv rfl

theorem inv_step (h : s.Inv) {a : Action} (ha : a.Plain) (ht : Step s a t) : t.Inv := by
  cases a with
  | connect src =>
    obtain ⟨l, hl, ht⟩ := Option.bind_eq_some_iff.mp ht
    cases ht
    refine h.setLink ((h.links src).connect hl) ?_
    obtain ⟨-, -, rfl⟩ := Link.connect_eq hl
    rfl
  | emit m => exact inv_emit h ha ht
  | send src n =>
    obtain ⟨l, hl, ht⟩ := Option.bind_eq_some_iff.mp ht
    cases ht
    refine h.setLink ((h.links src).send hl) ?_
    obtain ⟨-, c, -, rfl⟩ := Link.send_eq hl
    rfl
  | interrupted src =>
    cases src with
    | observer =>
      rw [Step, step] at ht
      split at ht
      · cases ht
      · cases ht
        exact h
    | stats => exact inv_fail h ht
  | failed src => exact inv_fail h ht
  | data src i n =>
    cases ht
    exact h.setLink ((h.links src).data i n) (Link.lost_data _ i n)

theorem runs_inv {as : List Action} (hr : Runs Step init as s) (hplain : ∀ a ∈ as, a.Plain) :
    s.Inv := by
  induction hr with
  | nil => exact inv_init
  | snoc _ hstep ih =>
    obtain ⟨has, ha⟩ := List.forall_mem_append.mp hplain
    exact inv_step (ih has) (List.forall_mem_singleton.mp ha) hstep

/-- Every connection hands on its lines in the order in which they were sent, all of them once
nothing is left to read and never a part of one. -/
def Delivers (l : Link) : Prop :=
  ∀ c ∈ l.connections, c.handled <+: c.lines ∧ (c.unread = [] → c.handled = c.lines)

theorem Link.Inv.delivers (h : l.Inv) : Delivers l := by
  intro c hc
  have hinv : c.Inv := by
    rcases List.mem_append.mp hc with hc | hc
    · exact h.past c hc
    · exact h.fd c (Option.mem_toList.mp hc)
  exact ⟨hinv.handled_first, hinv.all_handled⟩

/-- Over every run of both senders and the service, with any short sends, interruptions, failures,
reconnects and pieces read: the service gets the lines that were sent whole, in the order of
each connection, and nothing else; of the observer's lines, `transportDrops` were lost; and
a sender that is not sending can send any message. -/
theorem telemetry_lines_delivered {as : List Action} (hr : Runs Step init as s)
    (hplain : ∀ a ∈ as, a.Plain) :
    (∀ src, Delivers (s.link src) ∧
        Account (s.link src).sent (s.link src).emitted (s.link src).lost) ∧
      s.transportDrops = UInt64.ofNat s.observer.lost ∧
      ∀ m : Message, m.Plain → Reports s m → (s.link (source m)).rest = [] →
        ∃ t, Step s (.emit m) t := by
  have hinv := runs_inv hr hplain
  refine ⟨fun src => ⟨(hinv.links src).delivers, (hinv.links src).account⟩, hinv.drops, ?_⟩
  intro m hm hreports hrest
  obtain ⟨text, htext, -⟩ := Message.text_line hm
  change ∃ t, step s (.emit m) = some t
  rw [step, if_pos hreports, htext]
  simp only [Link.emit, if_pos hrest, Option.bind_eq_bind, Option.bind_some]
  split
  all_goals exact ⟨_, rfl⟩

/-- A feed event in two sends, read in two pieces that do not match them. The second event
breaks off, the third one finds no connection, and the health event reports both. -/
def brokenActions : List Action :=
  [.connect .observer, .emit (.feed 1 2 3 4), .send .observer 10, .data .observer none 7,
    .send .observer 51, .emit (.feed 5 6 7 8), .interrupted .observer, .send .observer 20,
    .failed .observer, .emit (.feed 9 10 11 12), .connect .observer,
    .emit (.health 13 ⟨3, 21, 0, 0, 0, 0, 0, 2, 0⟩), .send .observer 153,
    .data .observer (some 0) 100, .data .observer none 153]

theorem brokenActions_plain : ∀ a ∈ brokenActions, a.Plain := by
  simp [brokenActions, Action.Plain, Message.Plain]

theorem telemetry_lines_delivered_broken : ∃ s, Runs Step init brokenActions s ∧
    s.transportDrops = 2 ∧ s.observer.connections.map (·.handled.length) = [1, 1] ∧
    (∀ src, Delivers (s.link src) ∧
        Account (s.link src).sent (s.link src).emitted (s.link src).lost) ∧
      s.transportDrops = UInt64.ofNat s.observer.lost ∧
      ∀ m : Message, m.Plain → Reports s m → (s.link (source m)).rest = [] →
        ∃ t, Step s (.emit m) t := by
  have hrun : ∃ s ∈ brokenActions.foldlM step init, s.transportDrops = 2 ∧
      s.observer.connections.map (·.handled.length) = [1, 1] := by decide +kernel
  obtain ⟨s, hs, hdrops, hhandled⟩ := hrun
  have hr : Runs Step init brokenActions s := Runs.of_foldlM hs
  exact ⟨s, hr, hdrops, hhandled, telemetry_lines_delivered hr brokenActions_plain⟩

end Runs

end TradingPipeline.ControlService
