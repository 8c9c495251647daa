import Mathlib.Algebra.Order.Group.Int
import Mathlib.Data.Nat.Digits.Defs

/-! # Formatted text

A format is fixed: texts, and conversions that each take the next argument. How long its output
can get is read off the format, whatever the arguments are. A call of `snprintf` behind
the text already in a buffer stores what fits and counts all of it; it must not begin behind
the buffer.
-/
namespace TradingPipeline.Lib

def decimal (n : ℕ) : List UInt8 := (Nat.toDigits 10 n).map fun c => c.toNat.toUInt8

/-- The decimal digits of an integer, after its sign. -/
def signedDecimal (z : ℤ) : List UInt8 := if z < 0 then 45 :: decimal z.natAbs else decimal z.natAbs

/-- The character that an integer stands for. -/
def byteOf (z : ℤ) : UInt8 := UInt8.ofNat (z % 256).toNat

/-- A part of a format: text, or the conversion of an integer of so many bits or of a character. -/
inductive Spec
  | text (s : List UInt8)
  | unsigned (bits : ℕ)
  | signed (bits : ℕ)
  | char
  deriving DecidableEq, Repr

def format : List Spec → List ℤ → List UInt8
  | [], _ => []
  | .text s :: ps, args => s ++ format ps args
  | .unsigned bits :: ps, args => decimal (args.headD 0 % 2 ^ bits).toNat ++ format ps args.tail
  | .signed bits :: ps, args => signedDecimal ((args.headD 0).bmod (2 ^ bits)) ++
    format ps args.tail
  | .char :: ps, args => byteOf (args.headD 0) :: format ps args.tail

def charArgs : List Spec → List ℤ → List UInt8
  | [], _ => []
  | .text _ :: ps, args => charArgs ps args
  | .unsigned _ :: ps, args | .signed _ :: ps, args => charArgs ps args.tail
  | .char :: ps, args => byteOf (args.headD 0) :: charArgs ps args.tail

/-- The most that a part can print. -/
def Spec.width : Spec → ℕ
  | .text s => s.length
  | .unsigned bits => (decimal (2 ^ bits)).length
  | .signed bits => (decimal (2 ^ bits)).length + 1
  | .char => 1

def formatWidth (ps : List Spec) : ℕ := (ps.map Spec.width).sum

/-- The text in a buffer and the count that the calls so far have returned. -/
structure Written where
  text : List UInt8
  n : ℕ
  deriving DecidableEq, Repr

/-- `n += snprintf(buf + n, size - n, …)`. -/
def snprintf (size : ℕ) (w : Written) (ps : List Spec) (args : List ℤ) : Option Written :=
  if size < w.n then none
  else some ⟨w.text ++ (format ps args).take (size - w.n - 1), w.n + (format ps args).length⟩

def Printable (s : List UInt8) : Prop := ∀ b ∈ s, 32 ≤ b ∧ b < 127

instance (s : List UInt8) : Decidable (Printable s) := inferInstanceAs (Decidable (∀ b ∈ s, _))

/-- The part is a conversion or printable text. -/
def Spec.Plain : Spec → Prop
  | .text s => Printable s
  | .unsigned _ | .signed _ | .char => True

instance : DecidablePred Spec.Plain
  | .text s => inferInstanceAs (Decidable (Printable s))
  | .unsigned _ | .signed _ | .char => .isTrue trivial

theorem byteOf_toNat (b : UInt8) : byteOf b.toNat = b := by
  have hlt := b.toNat_lt
  have hmod : ((b.toNat : ℤ) % 256).toNat = b.toNat := by omega
  rw [byteOf, hmod, UInt8.ofNat_toNat]

section Printing
variable {s t : List UInt8}

theorem printable_append : Printable (s ++ t) ↔ Printable s ∧ Printable t := List.forall_mem_append

theorem printable_cons {b : UInt8} :
    Printable (b :: s) ↔ (32 ≤ b ∧ b < 127) ∧ Printable s := List.forall_mem_cons

theorem printable_decimal (n : ℕ) : Printable (decimal n) := by
  intro b hb
  obtain ⟨c, hc, rfl⟩ := List.mem_map.mp hb
  have hdigit := Nat.isDigit_of_mem_toDigits (by decide) (by decide) hc
  rw [Char.isDigit, Bool.and_eq_true, decide_eq_true_iff, decide_eq_true_iff] at hdigit
  have hlo : 48 ≤ c.toNat := hdigit.1
  have hhi : c.toNat ≤ 57 := hdigit.2
  have hnat : c.toNat.toUInt8.toNat = c.toNat := by
    rw [Nat.toUInt8, UInt8.toNat_ofNat']
    omega
  rw [UInt8.le_iff_toNat_le, UInt8.lt_iff_toNat_lt, hnat]
  exact ⟨by simp; omega, by simp; omega⟩

theorem printable_signedDecimal (z : ℤ) : Printable (signedDecimal z) := by
  unfold signedDecimal
  split
  · exact printable_cons.mpr ⟨by decide, printable_decimal _⟩
  · exact printable_decimal _

theorem printable_format {ps : List Spec} (hplain : ∀ p ∈ ps, p.Plain) {args : List ℤ}
    (hchars : Printable (charArgs ps args)) : Printable (format ps args) := by
  induction ps generalizing args with
  | nil => exact hchars
  | cons p ps ih =>
    obtain ⟨hp, hps⟩ := List.forall_mem_cons.mp hplain
    cases p with
    | text s => exact printable_append.mpr ⟨hp, ih hps hchars⟩
    | unsigned bits => exact printable_append.mpr ⟨printable_decimal _, ih hps hchars⟩
    | signed bits => exact printable_append.mpr ⟨printable_signedDecimal _, ih hps hchars⟩
    | char =>
      obtain ⟨hchar, hchars⟩ := printable_cons.mp hchars
      exact printable_cons.mpr ⟨hchar, ih hps hchars⟩

theorem charArgs_nil {ps : List Spec} (h : .char ∉ ps) (args : List ℤ) : charArgs ps args = [] := by
  induction ps generalizing args with
  | nil => rfl
  | cons p ps ih =>
    obtain ⟨hp, hps⟩ := not_or.mp (mt List.mem_cons.mpr h)
    cases p with
    | text s => exact ih hps args
    | unsigned bits => exact ih hps args.tail
    | signed bits => exact ih hps args.tail
    | char => exact absurd rfl hp

theorem format_append_text (ps : List Spec) (s : List UInt8) (args : List ℤ) :
    format (ps ++ [.text s]) args = format ps args ++ s := by
  induction ps generalizing args with
  | nil => exact List.append_nil s
  | cons p ps ih => cases p <;> simp only [List.cons_append, format, ih, List.append_assoc]

end Printing

section Lengths

theorem length_decimal_le {n m : ℕ} (h : n ≤ m) : (decimal n).length ≤ (decimal m).length := by
  rw [decimal, decimal, List.length_map, List.length_map]
  have hpos : 0 < (Nat.toDigits 10 m).length := by
    refine List.length_pos_iff.mpr fun hnil => ?_
    have hlt := (@Nat.length_toDigits_le_iff 10 m 1 (by decide) (by decide)).mp
      (by rw [hnil]; decide)
    rw [Nat.toDigits_of_lt_base (by omega)] at hnil
    cases hnil
  refine (Nat.length_toDigits_le_iff (by decide) hpos).mpr (h.trans_lt ?_)
  exact (Nat.length_toDigits_le_iff (by decide) hpos).mp le_rfl

theorem length_signedDecimal_le {z : ℤ} {m : ℕ} (h : z.natAbs ≤ m) :
    (signedDecimal z).length ≤ (decimal m).length + 1 := by
  have hle := length_decimal_le h
  unfold signedDecimal
  split
  · exact Nat.succ_le_succ hle
  · omega

theorem length_format_le (ps : List Spec) (args : List ℤ) :
    (format ps args).length ≤ formatWidth ps := by
  induction ps generalizing args with
  | nil => exact Nat.le_refl 0
  | cons p ps ih =>
    have hrest := ih args
    have htail := ih args.tail
    unfold formatWidth at hrest htail ⊢
    rw [List.map_cons, List.sum_cons]
    cases p with
    | text s =>
      rw [format, List.length_append, Spec.width]
      omega
    | unsigned bits =>
      have hlt : (args.headD 0 % 2 ^ bits).toNat ≤ 2 ^ bits := by
        have hmod := Int.emod_lt_of_pos (args.headD 0) (show (0 : ℤ) < 2 ^ bits by positivity)
        have hcast : ((2 ^ bits : ℕ) : ℤ) = 2 ^ bits := by norm_cast
        omega
      have hle := length_decimal_le hlt
      rw [format, List.length_append, Spec.width]
      omega
    | signed bits =>
      have hlt : ((args.headD 0).bmod (2 ^ bits)).natAbs ≤ 2 ^ bits := by
        have hlo := @Int.le_bmod (args.headD 0) (2 ^ bits) (by positivity)
        have hhi := @Int.bmod_lt (args.headD 0) (2 ^ bits) (by positivity)
        omega
      have hle := length_signedDecimal_le hlt
      rw [format, List.length_append, Spec.width]
      omega
    | char =>
      rw [format, List.length_cons, Spec.width]
      omega

end Lengths

section Calls
variable {size : ℕ} {w : Written} {ps : List Spec} {args : List ℤ}

theorem snprintf_of_fits (h : w.n + (format ps args).length < size) :
    snprintf size w ps args =
      some ⟨w.text ++ format ps args, w.n + (format ps args).length⟩ := by
  rw [snprintf, if_neg (by omega), List.take_of_length_le (by omega)]

theorem snprintf_foldlM {α : Type*} {spec : α → List Spec} {argsOf : α → List ℤ} {M : ℕ}
    {xs : List α} (hM : ∀ x ∈ xs, formatWidth (spec x) ≤ M) (h : w.n + xs.length * M < size) :
    xs.foldlM (fun w x => snprintf size w (spec x) (argsOf x)) w =
      some ⟨w.text ++ xs.flatMap fun x => format (spec x) (argsOf x),
        w.n + (xs.flatMap fun x => format (spec x) (argsOf x)).length⟩ := by
  induction xs generalizing w with
  | nil => simp
  | cons x xs ih =>
    have hx := (length_format_le (spec x) (argsOf x)).trans (hM x List.mem_cons_self)
    rw [List.length_cons, Nat.add_mul] at h
    have hrest := @ih ⟨w.text ++ format (spec x) (argsOf x),
      w.n + (format (spec x) (argsOf x)).length⟩ (fun y hy => hM y (List.mem_cons_of_mem x hy))
      (by dsimp only; omega)
    rw [List.foldlM_cons, snprintf_of_fits (by omega), List.flatMap_cons, List.length_append,
      ← Nat.add_assoc, ← List.append_assoc]
    exact hrest

theorem length_flatMap_format_le {α : Type*} {spec : α → List Spec} {argsOf : α → List ℤ} {M : ℕ}
    {xs : List α} (hM : ∀ x ∈ xs, formatWidth (spec x) ≤ M) :
    (xs.flatMap fun x => format (spec x) (argsOf x)).length ≤ xs.length * M := by
  induction xs with
  | nil => simp
  | cons x xs ih =>
    have hx := (length_format_le (spec x) (argsOf x)).trans (hM x List.mem_cons_self)
    have hrest := ih fun y hy => hM y (List.mem_cons_of_mem x hy)
    rw [List.flatMap_cons, List.length_append, List.length_cons, Nat.add_mul]
    omega

end Calls

end TradingPipeline.Lib
