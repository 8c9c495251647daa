import TradingPipeline.Lib.Bytes

/-! # Length-prefixed blocks

A block is a 16-bit big-endian length followed by as many bytes. A scan hands the blocks
that are complete one after the other to a state and stops at the first one that is cut
off, or that the state refuses.
-/
namespace TradingPipeline.Lib

variable {σ : Type*}

def block (m : List UInt8) : List UInt8 := writeBE 2 m.length ++ m

/-- No complete block stands at the front. -/
def Incomplete (bs : List UInt8) : Prop := bs.length < 2 ∨ bs.length < 2 + readBE (bs.take 2)

instance (bs : List UInt8) : Decidable (Incomplete bs) := inferInstanceAs (Decidable (_ ∨ _))

/-- The state after the blocks that it took, and the bytes from the first one on that it
did not take. The first argument after `f` bounds the number of blocks. -/
def scanBlocks (f : σ → List UInt8 → Option σ) : ℕ → σ → List UInt8 → σ × List UInt8
  | 0, s, bs => (s, bs)
  | fuel + 1, s, bs =>
    if Incomplete bs then (s, bs)
    else
      let size := readBE (bs.take 2)
      match f s ((bs.drop 2).take size) with
      | none => (s, bs)
      | some t => scanBlocks f fuel t (bs.drop (2 + size))

/-- The state after the items that it took, and the others. -/
def foldSome {β : Type*} (f : σ → β → Option σ) : σ → List β → σ × List β
  | s, [] => (s, [])
  | s, m :: ms =>
    match f s m with
    | none => (s, m :: ms)
    | some t => foldSome f t ms

theorem foldSome_some {β : Type*} (f : σ → β → σ) (s : σ) (ms : List β) :
    foldSome (fun s m => some (f s m)) s ms = (ms.foldl f s, []) := by
  induction ms generalizing s with
  | nil => rfl
  | cons m ms ih => exact ih (f s m)

section Blocks
variable {m tail : List UInt8} {ms : List (List UInt8)}

@[simp] theorem block_length (m : List UInt8) : (block m).length = 2 + m.length := by
  simp [block]

theorem block_take_two (m rest : List UInt8) : (block m ++ rest).take 2 = writeBE 2 m.length := by
  rw [block, List.append_assoc]
  exact List.take_left' (writeBE_length 2 _)

theorem block_drop_two (m rest : List UInt8) : (block m ++ rest).drop 2 = m ++ rest := by
  rw [block, List.append_assoc]
  exact List.drop_left' (writeBE_length 2 _)

theorem readBE_block (hm : m.length < 2 ^ 16) (rest : List UInt8) :
    readBE ((block m ++ rest).take 2) = m.length := by
  rw [block_take_two]
  exact readBE_writeBE hm

theorem not_incomplete_block (hm : m.length < 2 ^ 16) (rest : List UInt8) :
    ¬Incomplete (block m ++ rest) := by
  have hread := readBE_block hm rest
  have hlen : (block m ++ rest).length = 2 + m.length + rest.length := by simp
  unfold Incomplete
  omega

theorem Incomplete.of_append {bs more : List UInt8} (h : Incomplete (bs ++ more)) :
    Incomplete bs := by
  rcases Nat.lt_or_ge bs.length 2 with hlt | hge
  · exact Or.inl hlt
  · unfold Incomplete at h
    rw [List.take_append_of_le_length hge, List.length_append] at h
    exact Or.inr (by omega)

theorem Incomplete.length_lt {front back rest : List UInt8} (h : Incomplete front)
    (hm : m.length < 2 ^ 16) (hcut : front ++ back = block m ++ rest) :
    front.length < 2 + m.length := by
  rcases Nat.lt_or_ge front.length 2 with hlt | hge
  · omega
  · have hread := readBE_block hm rest
    rw [← hcut, List.take_append_of_le_length hge] at hread
    unfold Incomplete at h
    omega

theorem scanBlocks_incomplete (f : σ → List UInt8 → Option σ) (fuel : ℕ) (s : σ)
    (h : Incomplete tail) : scanBlocks f fuel s tail = (s, tail) := by
  cases fuel with
  | zero => rfl
  | succ fuel => rw [scanBlocks, if_pos h]

theorem scanBlocks_block (f : σ → List UInt8 → Option σ) (fuel : ℕ) (s : σ)
    (hm : m.length < 2 ^ 16) (rest : List UInt8) :
    scanBlocks f (fuel + 1) s (block m ++ rest) =
      match f s m with
      | none => (s, block m ++ rest)
      | some t => scanBlocks f fuel t rest := by
  have hbody : ((block m ++ rest).drop 2).take m.length = m := by
    rw [block_drop_two]
    exact List.take_left
  have hrest : (block m ++ rest).drop (2 + m.length) = rest := List.drop_left' (block_length m)
  simp only [scanBlocks, if_neg (not_incomplete_block hm rest), readBE_block hm rest, hbody, hrest]

/-- On encoded blocks a scan is a fold over what they carry. -/
theorem scanBlocks_blocks (f : σ → List UInt8 → Option σ) (hms : ∀ m ∈ ms, m.length < 2 ^ 16)
    (htail : Incomplete tail) {fuel : ℕ} (hfuel : ms.length ≤ fuel) (s : σ) :
    scanBlocks f fuel s (ms.flatMap block ++ tail) =
      ((foldSome f s ms).1, (foldSome f s ms).2.flatMap block ++ tail) := by
  induction ms generalizing fuel s with
  | nil => exact scanBlocks_incomplete f fuel s htail
  | cons m ms ih =>
    obtain ⟨fuel, rfl⟩ : ∃ k, fuel = k + 1 := ⟨fuel - 1, by rw [List.length_cons] at hfuel; omega⟩
    rw [List.flatMap_cons, List.append_assoc, scanBlocks_block f fuel s (hms m List.mem_cons_self)]
    cases hf : f s m with
    | none => simp [foldSome, hf]
    | some t =>
      simp only [foldSome, hf]
      exact ih (fun x hx => hms x (List.mem_cons_of_mem m hx))
        (by rw [List.length_cons] at hfuel; omega) t

theorem length_le_blocks (ms : List (List UInt8)) : ms.length ≤ (ms.flatMap block).length := by
  induction ms with
  | nil => exact Nat.zero_le _
  | cons m ms ih =>
    rw [List.flatMap_cons, List.length_append, List.length_cons, block_length]
    omega

theorem length_le_blocks_append (ms : List (List UInt8)) (tail : List UInt8) :
    ms.length ≤ (ms.flatMap block ++ tail).length := by
  rw [List.length_append]
  exact (length_le_blocks ms).trans (Nat.le_add_right _ _)

theorem exists_blocks (bs : List UInt8) :
    ∃ (ms : List (List UInt8)) (tail : List UInt8), bs = ms.flatMap block ++ tail ∧
      (∀ m ∈ ms, m.length < 2 ^ 16) ∧ Incomplete tail := by
  induction hn : bs.length using Nat.strong_induction_on generalizing bs with
  | _ n ih =>
    by_cases hinc : Incomplete bs
    · exact ⟨[], bs, rfl, by simp, hinc⟩
    · unfold Incomplete at hinc
      have hsize := readBE_lt (bs.take 2)
      rw [List.length_take, Nat.min_eq_left (by omega)] at hsize
      generalize hk : readBE (bs.take 2) = k at hinc hsize
      have hlen : ((bs.drop 2).take k).length = k := by
        rw [List.length_take, List.length_drop]
        omega
      have hfront : block ((bs.drop 2).take k) = bs.take (2 + k) := by
        have htwo := writeBE_readBE (bs.take 2)
        rw [List.length_take, Nat.min_eq_left (by omega), hk] at htwo
        rw [block, hlen, htwo, List.take_add]
      obtain ⟨ms, tail, hrest, hms, htail⟩ := ih (bs.drop (2 + k)).length
        (by rw [List.length_drop]; omega) (bs.drop (2 + k)) rfl
      refine ⟨(bs.drop 2).take k :: ms, tail, ?_, ?_, htail⟩
      · rw [List.flatMap_cons, hfront, List.append_assoc, ← hrest, List.take_append_drop]
      · intro m hm
        rcases List.mem_cons.mp hm with rfl | hm
        · omega
        · exact hms m hm

/-- Wherever a stream of blocks is cut, the front part is some of the blocks and a part of
the next one. -/
theorem blocks_split (hms : ∀ m ∈ ms, m.length < 2 ^ 16) (htail : Incomplete tail)
    {front back : List UInt8} (h : front ++ back = ms.flatMap block ++ tail) :
    ∃ ms₁ ms₂ part, ms = ms₁ ++ ms₂ ∧ front = ms₁.flatMap block ++ part ∧
      part ++ back = ms₂.flatMap block ++ tail ∧ Incomplete part := by
  induction ms generalizing front with
  | nil =>
    have hfront : front ++ back = tail := h
    exact ⟨[], [], front, rfl, rfl, h, Incomplete.of_append (hfront ▸ htail)⟩
  | cons m ms ih =>
    have hm := hms m List.mem_cons_self
    rw [List.flatMap_cons, List.append_assoc] at h
    rcases Nat.lt_or_ge front.length (2 + m.length) with hlt | hge
    · refine ⟨[], m :: ms, front, rfl, rfl,
        by rw [List.flatMap_cons, List.append_assoc]; exact h, ?_⟩
      rcases Nat.lt_or_ge front.length 2 with hlt2 | hge2
      · exact Or.inl hlt2
      · have hread := readBE_block hm (ms.flatMap block ++ tail)
        rw [← h, List.take_append_of_le_length hge2] at hread
        exact Or.inr (by omega)
    · obtain ⟨front', rfl⟩ : ∃ front', front = block m ++ front' := by
        have hpre : block m <+: front :=
          List.prefix_of_prefix_length_le (List.prefix_append _ _)
            (h ▸ List.prefix_append front back)
            (by rwa [block_length])
        exact ⟨_, hpre.choose_spec.symm⟩
      rw [List.append_assoc] at h
      obtain ⟨ms₁, ms₂, part, rfl, rfl, hback, hpart⟩ :=
        ih (fun x hx => hms x (List.mem_cons_of_mem m hx)) (List.append_cancel_left h)
      exact ⟨m :: ms₁, ms₂, part, rfl, by rw [List.flatMap_cons, List.append_assoc], hback, hpart⟩

end Blocks

end TradingPipeline.Lib
