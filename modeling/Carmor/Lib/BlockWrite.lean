import Mathlib.Tactic.Ring

/-!
# Writing a range through a block buffer

Data is written to cells in chunks of one length. A chunk is put at the start of a buffer, and then
a whole block of the buffer is written at the chunk's place. What a block holds past the chunk's
end is what the buffer held before, and it is overwritten by the next chunk, if there is one.
`writeRange_eq_iff` says when the write of a range changes only the range.
-/

namespace Lib

variable {β : Type*}

/-- A buffer, and cells counted from the start of a range. -/
structure BlockState (β : Type*) where
  buffer : Nat → β
  cells : Nat → β

/-- `d` on the first `k` indices, `old` after them. -/
def overlay (d old : Nat → β) (k : Nat) (i : Nat) : β := if i < k then d i else old i

/-- The chunk of `k` data from `start` on is written, in a block of `block` cells. -/
def writeChunk (d : Nat → β) (block start k : Nat) (s : BlockState β) : BlockState β where
  buffer x := if x < k then d (start + x) else s.buffer x
  cells i :=
    if start ≤ i ∧ i < start + block then
      if i < start + k then d i else s.buffer (i - start)
    else s.cells i

/-- The first `j` chunks of `chunk` data are written. -/
def writeChunks (d : Nat → β) (block chunk : Nat) : Nat → BlockState β → BlockState β
  | 0, s => s
  | j + 1, s => writeChunk d block (j * chunk) chunk (writeChunks d block chunk j s)

/-- The number of chunks before the last one of a range of `n` data. -/
def fullChunks (chunk n : Nat) : Nat := (n - 1) / chunk

/-- A range of `n` data is written. -/
def writeRange (d : Nat → β) (block chunk n : Nat) (s : BlockState β) : BlockState β :=
  if n = 0 then s
  else writeChunk d block (fullChunks chunk n * chunk) (n - fullChunks chunk n * chunk)
    (writeChunks d block chunk (fullChunks chunk n) s)

/-- What the buffer holds at `x` when the last chunk of a range of `n` data is put into it: data of
the chunk before the last one, or what it held at first. -/
def leftover (d buffer : Nat → β) (chunk n x : Nat) : β :=
  if x < chunk ∧ 0 < fullChunks chunk n then d ((fullChunks chunk n - 1) * chunk + x) else buffer x

section Write

variable {d : Nat → β} {block chunk n : Nat} {s : BlockState β}

theorem buffer_writeChunks (j x : Nat) : (writeChunks d block chunk j s).buffer x =
    if x < chunk ∧ 0 < j then d ((j - 1) * chunk + x) else s.buffer x := by
  induction j with
  | zero => simp [writeChunks]
  | succ j ih =>
    simp only [writeChunks, writeChunk, ih]
    by_cases hx : x < chunk <;> simp [hx]

/-- A block's cells past its chunk are overwritten by the next chunk, or they are past the data
written so far. -/
theorem cells_writeChunks (hchunk : chunk ≤ block) (j i : Nat) :
    (writeChunks d block chunk j s).cells i =
      if i < j * chunk then d i
      else if 0 < j ∧ i < (j - 1) * chunk + block then s.buffer (i - (j - 1) * chunk)
      else s.cells i := by
  induction j with
  | zero => simp [writeChunks]
  | succ j ih =>
    have hsucc : (j + 1) * chunk = j * chunk + chunk := Nat.succ_mul j chunk
    simp only [writeChunks, writeChunk, ih, buffer_writeChunks, hsucc, Nat.add_sub_cancel]
    by_cases hin : j * chunk ≤ i ∧ i < j * chunk + block
    · rw [if_pos hin]
      by_cases hdata : i < j * chunk + chunk
      · rw [if_pos hdata, if_pos hdata]
      · rw [if_neg hdata, if_neg hdata, if_neg (by omega), if_pos (by omega)]
    · rw [if_neg hin]
      by_cases hbelow : i < j * chunk
      · rw [if_pos hbelow, if_pos (by omega)]
      · -- past the new block, and so past the former one
        have hprev : ¬ (0 < j ∧ i < (j - 1) * chunk + block) := by
          rintro ⟨hj, hlt⟩
          have hmono : (j - 1) * chunk ≤ j * chunk := Nat.mul_le_mul_right _ (by omega)
          omega
        rw [if_neg hbelow, if_neg hprev, if_neg (by omega), if_neg (by omega)]

theorem fullChunks_mul_lt (hn : 0 < n) : fullChunks chunk n * chunk < n := by
  have hle : (n - 1) / chunk * chunk ≤ n - 1 := Nat.div_mul_le_self _ _
  unfold fullChunks
  omega

theorem le_fullChunks_mul (hchunk : 0 < chunk) : n ≤ fullChunks chunk n * chunk + chunk := by
  have hlt : n - 1 < (n - 1) / chunk * chunk + chunk := Nat.lt_div_mul_add hchunk
  unfold fullChunks
  omega

/-- A chunk that starts inside the range and reaches its end is the last one. -/
theorem eq_fullChunks {j : Nat} (hlt : j * chunk < n) (hle : n ≤ j * chunk + chunk) :
    j = fullChunks chunk n := by
  have hpos : 0 < chunk := by omega
  unfold fullChunks
  symm
  rw [Nat.div_eq_iff hpos]
  omega

theorem cells_writeRange (hn : 0 < n) (hpos : 0 < chunk) (hchunk : chunk ≤ block) (i : Nat) :
    (writeRange d block chunk n s).cells i =
      if i < n then d i
      else if i < fullChunks chunk n * chunk + block then
        leftover d s.buffer chunk n (i - fullChunks chunk n * chunk)
      else s.cells i := by
  have hlast : fullChunks chunk n * chunk < n := fullChunks_mul_lt hn
  have hend := le_fullChunks_mul (n := n) hpos
  simp only [writeRange, if_neg (Nat.ne_of_gt hn), writeChunk, cells_writeChunks hchunk,
    buffer_writeChunks, leftover]
  generalize hj : fullChunks chunk n = j at hlast hend
  by_cases hdata : i < n
  · rw [if_pos hdata]
    by_cases hin : j * chunk ≤ i
    · rw [if_pos (by omega), if_pos (by omega)]
    · rw [if_neg (by omega), if_pos (by omega)]
  · rw [if_neg hdata]
    by_cases hblock : i < j * chunk + block
    · rw [if_pos (by omega), if_neg (by omega), if_pos hblock]
    · have hmono : (j - 1) * chunk ≤ j * chunk := Nat.mul_le_mul_right _ (by omega)
      rw [if_neg (by omega), if_neg hblock, if_neg (by omega), if_neg (by omega)]

/-- The write changes only the range exactly if the last block leaves the cells past the range as
they were. -/
theorem writeRange_eq_iff (hpos : 0 < chunk) (hchunk : chunk ≤ block) {bound : Nat}
    (hbound : n + block ≤ bound) :
    (∀ i < bound, (writeRange d block chunk n s).cells i = overlay d s.cells n i) ↔
      n = 0 ∨ ∀ i, n ≤ i → i < fullChunks chunk n * chunk + block →
        leftover d s.buffer chunk n (i - fullChunks chunk n * chunk) = s.cells i := by
  rcases Nat.eq_zero_or_pos n with rfl | hn
  · simp [writeRange, overlay]
  have hlast : fullChunks chunk n * chunk < n := fullChunks_mul_lt hn
  constructor
  · intro hcells
    right
    intro i hi hblock
    have hcell := hcells i (by omega)
    rwa [cells_writeRange hn hpos hchunk, overlay, if_neg (by omega), if_pos hblock,
      if_neg (by omega)] at hcell
  · intro hcond i _
    have hspill := hcond.resolve_left (Nat.ne_of_gt hn) i
    rw [cells_writeRange hn hpos hchunk, overlay]
    by_cases hdata : i < n
    · rw [if_pos hdata, if_pos hdata]
    · rw [if_neg hdata, if_neg hdata]
      by_cases hblock : i < fullChunks chunk n * chunk + block
      · rw [if_pos hblock]
        exact hspill (by omega) hblock
      · rw [if_neg hblock]

end Write

end Lib
