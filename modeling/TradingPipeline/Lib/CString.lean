import Mathlib.Data.List.Basic

/-! # Strings in a byte array

Searches that stop at the NUL byte and stores at an offset. All of them are partial:
`none` says that the array ends before the search does or that the store leaves it.
-/
namespace TradingPipeline.Lib

/-- The bytes before the NUL. -/
def cString : List UInt8 → Option (List UInt8)
  | [] => none
  | b :: bs => if b = 0 then some [] else (cString bs).map (b :: ·)

/-- The offset of the first `c` before the NUL, if there is one. -/
def strchr (c : UInt8) : List UInt8 → Option (Option ℕ)
  | [] => none
  | b :: bs =>
    if b = c then some (some 0)
    else if b = 0 then some none
    else (strchr c bs).map (Option.map (· + 1))

/-- A copy of `bs` to an offset of the array. -/
def copyTo (buf : List UInt8) (offset : ℕ) (bs : List UInt8) : Option (List UInt8) :=
  if offset + bs.length ≤ buf.length then
    some (buf.take offset ++ bs ++ buf.drop (offset + bs.length))
  else none

section Search
variable {c : UInt8} {s : List UInt8}

theorem cString_append_nul (hs : 0 ∉ s) (rest : List UInt8) :
    cString (s ++ 0 :: rest) = some s := by
  induction s with
  | nil => rfl
  | cons b s ih =>
    obtain ⟨hb, hs⟩ := not_or.mp (mt List.mem_cons.mpr hs)
    rw [List.cons_append, cString, if_neg (Ne.symm hb), ih hs]
    rfl

theorem strchr_append_self (hs : 0 ∉ s) (hc : c ∉ s) (rest : List UInt8) :
    strchr c (s ++ c :: rest) = some (some s.length) := by
  induction s with
  | nil => exact if_pos rfl
  | cons b s ih =>
    obtain ⟨hb, hs⟩ := not_or.mp (mt List.mem_cons.mpr hs)
    obtain ⟨hcb, hc⟩ := not_or.mp (mt List.mem_cons.mpr hc)
    rw [List.cons_append, strchr, if_neg (Ne.symm hcb), if_neg (Ne.symm hb), ih hs hc]
    rfl

theorem strchr_append_nul (h0 : c ≠ 0) (hs : 0 ∉ s) (hc : c ∉ s) (rest : List UInt8) :
    strchr c (s ++ 0 :: rest) = some none := by
  induction s with
  | nil =>
    rw [List.nil_append, strchr, if_neg (Ne.symm h0)]
    exact if_pos rfl
  | cons b s ih =>
    obtain ⟨hb, hs⟩ := not_or.mp (mt List.mem_cons.mpr hs)
    obtain ⟨hcb, hc⟩ := not_or.mp (mt List.mem_cons.mpr hc)
    rw [List.cons_append, strchr, if_neg (Ne.symm hcb), if_neg (Ne.symm hb), ih hs hc]
    rfl

end Search

theorem copyTo_behind {bs post : List UInt8} (h : bs.length ≤ post.length)
    (pre : List UInt8) :
    copyTo (pre ++ post) pre.length bs = some (pre ++ (bs ++ post.drop bs.length)) := by
  have hle : pre.length + bs.length ≤ (pre ++ post).length := by
    rw [List.length_append]
    omega
  rw [copyTo, if_pos hle, List.take_left, List.drop_length_add_append, List.append_assoc]

theorem length_copyTo {buf buf' bs : List UInt8} {offset : ℕ}
    (h : copyTo buf offset bs = some buf') : buf'.length = buf.length := by
  unfold copyTo at h
  split at h
  · obtain rfl := Option.some.inj h
    simp only [List.length_append, List.length_take, List.length_drop]
    omega
  · exact absurd h (by simp)

end TradingPipeline.Lib
