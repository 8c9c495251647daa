import Mathlib.Data.List.Basic
import Mathlib.Data.List.Infix

/-! # Terminated lines

A text is its terminated lines and a rest that holds no terminator. The division is
unique, grows with the text, and is found piece by piece from the rest alone.
-/
namespace TradingPipeline.Lib

variable {α : Type*} {nl : α}

def joinLines (nl : α) (ls : List (List α)) : List α := ls.flatMap (· ++ [nl])

@[simp] theorem joinLines_nil : joinLines nl [] = [] := rfl

@[simp] theorem joinLines_cons (l : List α) (ls : List (List α)) :
    joinLines nl (l :: ls) = l ++ nl :: joinLines nl ls := by
  simp [joinLines]

theorem joinLines_append (ls ms : List (List α)) :
    joinLines nl (ls ++ ms) = joinLines nl ls ++ joinLines nl ms := List.flatMap_append

theorem length_le_joinLines (ls : List (List α)) : ls.length ≤ (joinLines nl ls).length := by
  induction ls with
  | nil => exact Nat.le_refl 0
  | cons l ls ih =>
    rw [joinLines_cons, List.length_cons, List.length_append, List.length_cons]
    omega

theorem length_joinLines_eq (a b : α) (ls : List (List α)) :
    (joinLines a ls).length = (joinLines b ls).length := by
  simp only [joinLines, List.length_flatMap, List.length_append, List.length_singleton]

theorem not_mem_joinLines {a : α} (hnl : a ≠ nl) {ls : List (List α)} (h : ∀ l ∈ ls, a ∉ l) :
    a ∉ joinLines nl ls := by
  intro ha
  obtain ⟨l, hl, ha⟩ := List.mem_flatMap.mp ha
  rcases List.mem_append.mp ha with ha | ha
  · exact h l hl ha
  · exact hnl (List.mem_singleton.mp ha)

/-- The terminated lines of a text and what follows the last terminator. -/
structure Divided (nl : α) (text : List α) (ls : List (List α)) (rest : List α) : Prop where
  text_eq : text = joinLines nl ls ++ rest
  lines : ∀ l ∈ ls, nl ∉ l
  rest : nl ∉ rest

namespace Divided
variable {text more rest rest' : List α} {ls ls' : List (List α)}

theorem nil : Divided nl [] [] [] := ⟨rfl, by simp, List.not_mem_nil⟩

theorem append (h : Divided nl text ls rest) (h' : Divided nl (rest ++ more) ls' rest') :
    Divided nl (text ++ more) (ls ++ ls') rest' where
  text_eq := by
    rw [h.text_eq, List.append_assoc, h'.text_eq, joinLines_append, List.append_assoc]
  lines := by
    intro l hl
    exact (List.mem_append.mp hl).elim (h.lines l) (h'.lines l)
  rest := h'.rest

theorem not_mem {a : α} (h : Divided nl text ls rest) (ha : a ∉ text) :
    (∀ l ∈ ls, a ∉ l) ∧ a ∉ rest := by
  rw [h.text_eq] at ha
  refine ⟨fun l hl hal => ha (List.mem_append_left _ ?_), fun hr => ha (List.mem_append_right _ hr)⟩
  exact List.mem_flatMap.mpr ⟨l, hl, List.mem_append_left _ hal⟩

theorem count_eq [DecidableEq α] (h : Divided nl text ls rest) : text.count nl = ls.length := by
  rw [h.text_eq, List.count_append, List.count_eq_zero_of_not_mem h.rest, Nat.add_zero]
  have hls := h.lines
  clear h
  induction ls with
  | nil => rfl
  | cons l ls ih =>
    obtain ⟨hl, hls⟩ := List.forall_mem_cons.mp hls
    rw [joinLines_cons, List.count_append, List.count_eq_zero_of_not_mem hl, List.count_cons_self,
      ih hls, Nat.zero_add, List.length_cons]

end Divided

theorem exists_divided [DecidableEq α] (nl : α) (text : List α) :
    ∃ ls rest, Divided nl text ls rest := by
  induction text with
  | nil => exact ⟨[], [], .nil⟩
  | cons a text ih =>
    obtain ⟨ls, rest, h⟩ := ih
    by_cases ha : a = nl
    · subst ha
      refine ⟨[] :: ls, rest, by rw [h.text_eq]; simp, ?_, h.rest⟩
      exact List.forall_mem_cons.mpr ⟨List.not_mem_nil, h.lines⟩
    · cases ls with
      | nil =>
        refine ⟨[], a :: rest, by rw [h.text_eq]; rfl, by simp, ?_⟩
        exact fun hin => (List.mem_cons.mp hin).elim (fun e => ha e.symm) h.rest
      | cons l ls =>
        refine ⟨(a :: l) :: ls, rest, by rw [h.text_eq]; simp, ?_, h.rest⟩
        obtain ⟨hl, hls⟩ := List.forall_mem_cons.mp h.lines
        refine List.forall_mem_cons.mpr ⟨?_, hls⟩
        exact fun hin => (List.mem_cons.mp hin).elim (fun e => ha e.symm) hl

section Prefix
variable {l rest tail : List α}

theorem length_le_of_prefix_line (hrest : nl ∉ rest) (h : rest <+: l ++ nl :: tail) :
    rest.length ≤ l.length := by
  by_contra hlt
  have hle : (l ++ [nl]).length ≤ rest.length := by
    rw [List.length_append, List.length_singleton]
    omega
  have hpre : l ++ [nl] <+: rest :=
    List.prefix_of_prefix_length_le ⟨tail, by simp⟩ h hle
  exact hrest (hpre.subset (List.mem_append_right _ (List.mem_singleton_self _)))

theorem line_eq_of_append_eq {l m x y : List α} (hl : nl ∉ l) (hm : nl ∉ m)
    (h : l ++ nl :: x = m ++ nl :: y) : l = m ∧ x = y := by
  have hlm : l.length = m.length := by
    apply Nat.le_antisymm
    · exact length_le_of_prefix_line hl ⟨nl :: x, h⟩
    · exact length_le_of_prefix_line hm ⟨nl :: y, h.symm⟩
  obtain ⟨rfl, hxy⟩ := List.append_inj h hlm
  exact ⟨rfl, (List.cons.inj hxy).2⟩

/-- The lines of a text that was read so far are the first lines of the whole, and its
rest starts what follows them. -/
theorem Divided.of_prefix {text more : List α} {ls lines : List (List α)}
    (h : Divided nl text ls rest) (hlines : ∀ l ∈ lines, nl ∉ l) (htail : nl ∉ tail)
    (heq : text ++ more = joinLines nl lines ++ tail) :
    ∃ later, lines = ls ++ later ∧ rest ++ more = joinLines nl later ++ tail := by
  have hls := h.lines
  rw [h.text_eq, List.append_assoc] at heq
  clear h
  induction ls generalizing lines with
  | nil => exact ⟨lines, rfl, heq⟩
  | cons l ls ih =>
    obtain ⟨hl, hls⟩ := List.forall_mem_cons.mp hls
    cases lines with
    | nil =>
      -- the tail has no terminator, so it cannot hold a line
      refine absurd ?_ htail
      have heq : l ++ nl :: joinLines nl ls ++ (rest ++ more) = tail := by simpa using heq
      rw [← heq]
      exact List.mem_append_left _ (List.mem_append_right _ List.mem_cons_self)
    | cons m lines =>
      obtain ⟨hm, hmore⟩ := List.forall_mem_cons.mp hlines
      simp only [joinLines_cons, List.append_assoc, List.cons_append] at heq
      obtain ⟨rfl, htext⟩ := line_eq_of_append_eq hl hm heq
      obtain ⟨later, rfl, hrest⟩ := ih hmore htext hls
      exact ⟨later, rfl, hrest⟩

end Prefix

end TradingPipeline.Lib
