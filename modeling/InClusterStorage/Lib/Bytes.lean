import Mathlib.Data.List.Basic

/- Buffers: lists that read as zero beyond their end. What a buffer reads at each
   position after it is resized, cut, or overwritten in part. -/
namespace Bytes

open List

variable {α : Type*} [Zero α]

/-- What the buffer reads at a position; beyond the end it reads zero. -/
def byteAt (b : List α) (p : Nat) : α := b[p]?.getD 0

def zeros (n : Nat) : List α := List.replicate n 0

/-- Cut the buffer to the length, or fill it up with zeros. -/
def resize (n : Nat) (b : List α) : List α := b.take n ++ zeros (n - b.length)

/-- The positions from `lo` to `hi`. -/
def slice (b : List α) (lo hi : Nat) : List α := (b.take hi).drop lo

/-- Copy `d` over the buffer, from the offset on. -/
def overwrite (b : List α) (offset : Nat) (d : List α) : List α :=
  b.take offset ++ d ++ b.drop (offset + d.length)

/-- Zero the positions from `lo` to `hi` that the buffer has. -/
def zeroRange (b : List α) (lo hi : Nat) : List α := overwrite b lo (zeros (min hi b.length - lo))

variable {b : List α} {n p : Nat}

theorem byteAt_nil : byteAt ([] : List α) p = 0 := rfl

theorem byteAt_of_length_le (h : b.length ≤ p) : byteAt b p = 0 := by
  rw [byteAt, getElem?_eq_none h]
  rfl

@[simp] theorem length_zeros : (zeros n : List α).length = n := length_replicate

@[simp] theorem byteAt_zeros : byteAt (zeros n : List α) p = 0 := by
  rw [byteAt, zeros, getElem?_replicate]
  split <;> rfl

theorem length_resize : (resize n b).length = n := by
  simp only [resize, length_append, length_take, length_zeros]
  omega

theorem byteAt_append {c : List α} : byteAt (b ++ c) p = if p < b.length then byteAt b p else byteAt c (p - b.length) := by
  unfold byteAt
  rw [getElem?_append]
  split <;> rfl

theorem byteAt_take : byteAt (b.take n) p = if p < n then byteAt b p else 0 := by
  unfold byteAt
  rw [getElem?_take]
  split <;> rfl

theorem byteAt_drop : byteAt (b.drop n) p = byteAt b (n + p) := by
  unfold byteAt
  rw [getElem?_drop]

theorem byteAt_resize : byteAt (resize n b) p = if p < n then byteAt b p else 0 := by
  rw [resize, byteAt_append, byteAt_take, byteAt_zeros, length_take]
  split_ifs with h₁ h₂ h₃
  · rfl
  · omega
  · rw [byteAt_of_length_le (by omega)]
  · rfl

omit [Zero α] in
theorem length_slice {lo hi : Nat} : (slice b lo hi).length = min hi b.length - lo := by
  simp [slice]

theorem byteAt_slice {lo hi : Nat} : byteAt (slice b lo hi) p = if lo + p < hi then byteAt b (lo + p) else 0 := by
  rw [slice, byteAt_drop, byteAt_take]

variable {offset : Nat} {d : List α}

omit [Zero α] in
theorem length_overwrite (h : offset + d.length ≤ b.length) : (overwrite b offset d).length = b.length := by
  simp only [overwrite, length_append, length_take, length_drop]
  omega

theorem byteAt_overwrite (h : offset ≤ b.length) :
    byteAt (overwrite b offset d) p =
      if offset ≤ p ∧ p < offset + d.length then byteAt d (p - offset) else byteAt b p := by
  have hlen : (b.take offset).length = offset := by
    rw [length_take]
    omega
  rw [overwrite, byteAt_append, byteAt_append, length_append, hlen, byteAt_take, byteAt_drop]
  split_ifs with h₁ h₂ h₃ h₃ h₃
  · omega
  · rfl
  · rfl
  · omega
  · omega
  · congr 1
    omega

theorem length_zeroRange {lo hi : Nat} : (zeroRange b lo hi).length = b.length := by
  unfold zeroRange
  by_cases h : lo ≤ b.length
  · rw [length_overwrite]
    rw [length_zeros]
    omega
  · have hzero : min hi b.length - lo = 0 := by omega
    simp only [overwrite, hzero, zeros, replicate_zero, append_nil, length_nil, Nat.add_zero, take_append_drop]

theorem byteAt_zeroRange {lo hi : Nat} : byteAt (zeroRange b lo hi) p = if lo ≤ p ∧ p < hi then 0 else byteAt b p := by
  unfold zeroRange
  by_cases h : lo ≤ b.length
  · rw [byteAt_overwrite h, length_zeros, byteAt_zeros]
    split_ifs with h₁ h₂ h₂
    · rfl
    · omega
    · rw [byteAt_of_length_le (by omega)]
    · rfl
  · have hzero : min hi b.length - lo = 0 := by omega
    simp only [overwrite, hzero, zeros, replicate_zero, append_nil, length_nil, Nat.add_zero, take_append_drop]
    split_ifs with h₁
    · rw [byteAt_of_length_le (by omega)]
    · rfl

theorem ext {c : List α} (hlen : b.length = c.length) (h : ∀ p, p < b.length → byteAt b p = byteAt c p) : b = c := by
  apply ext_getElem hlen
  intro p hb hc
  have hp := h p hb
  rwa [byteAt, byteAt, getElem?_eq_getElem hb, getElem?_eq_getElem hc] at hp

/-- What makes a buffer a part of another. -/
theorem eq_slice {c : List α} {lo hi : Nat} (hlen : c.length = min hi b.length - lo)
    (h : ∀ p, p < c.length → byteAt c p = byteAt b (lo + p)) : c = slice b lo hi := by
  apply ext
  · rw [hlen, length_slice]
  · intro p hp
    rw [h p hp, byteAt_slice, if_pos (by omega)]

/-- Write over the buffer, which grows where the data ends beyond it. -/
def splice (b : List α) (offset : Nat) (d : List α) : List α :=
  overwrite (resize (max b.length (offset + d.length)) b) offset d

theorem length_splice : (splice b offset d).length = max b.length (offset + d.length) := by
  rw [splice, length_overwrite, length_resize]
  rw [length_resize]
  omega

theorem byteAt_splice :
    byteAt (splice b offset d) p =
      if offset ≤ p ∧ p < offset + d.length then byteAt d (p - offset) else byteAt b p := by
  rw [splice, byteAt_overwrite (by rw [length_resize]; omega), byteAt_resize]
  split_ifs with h₁ h₂
  · rfl
  · rfl
  · rw [byteAt_of_length_le (by omega)]

/-- Two writes, the second from the end of the first. -/
theorem splice_splice {d' : List α} : splice (splice b offset d) (offset + d.length) d' = splice b offset (d ++ d') := by
  apply ext
  · rw [length_splice, length_splice, length_splice, length_append]
    omega
  · intro p _
    rw [byteAt_splice, byteAt_splice, byteAt_splice, byteAt_append, length_append]
    by_cases hsecond : offset + d.length ≤ p ∧ p < offset + d.length + d'.length
    · rw [if_pos hsecond, if_pos (by omega), if_neg (by omega)]
      congr 1
      omega
    · rw [if_neg hsecond]
      by_cases hfirst : offset ≤ p ∧ p < offset + d.length
      · rw [if_pos hfirst, if_pos (by omega), if_pos (by omega)]
      · rw [if_neg hfirst, if_neg (by omega)]

theorem slice_append {lo mid hi : Nat} (hlo : lo ≤ mid) (hhi : mid ≤ hi) :
    slice b lo mid ++ slice b mid hi = slice b lo hi := by
  apply eq_slice
  · rw [length_append, length_slice, length_slice]
    omega
  · intro p hp
    rw [length_append, length_slice, length_slice] at hp
    rw [byteAt_append, byteAt_slice, byteAt_slice, length_slice]
    by_cases hfirst : p < min mid b.length - lo
    · rw [if_pos hfirst, if_pos (by omega)]
    · rw [if_neg hfirst, if_pos (by omega)]
      congr 1
      omega

omit [Zero α] in
theorem slice_eq_nil {lo hi : Nat} (h : hi ≤ lo) : slice b lo hi = [] := by
  apply eq_nil_of_length_eq_zero
  rw [length_slice]
  omega

theorem slice_slice {lo hi lo' hi' : Nat} : slice (slice b lo hi) lo' hi' = slice b (lo + lo') (min hi (lo + hi')) := by
  apply eq_slice
  · rw [length_slice, length_slice]
    omega
  · intro p hp
    rw [length_slice, length_slice] at hp
    rw [byteAt_slice, byteAt_slice, if_pos (by omega), if_pos (by omega), Nat.add_assoc]

/-- The part of a range that lies in chunk `i`. -/
abbrev chunkPart (b : List α) (cs lo hi i : Nat) : List α := slice b (max lo (i * cs)) (min hi (i * cs + cs))

/-- A part that is put together from pieces of `cs` positions each. -/
theorem flatMap_slice {cs lo hi : Nat} (part : Nat → List α) (first count : Nat)
    (hpart : ∀ i, first ≤ i → i < first + count → part i = chunkPart b cs lo hi i) :
    (List.range' first count).flatMap part = slice b (max lo (first * cs)) (min hi ((first + count) * cs)) := by
  induction count with
  | zero =>
    rw [Nat.add_zero, slice_eq_nil (by omega)]
    rfl
  | succ count ih =>
    have hlast := hpart (first + count) (by omega) (by omega)
    have hnext : (first + (count + 1)) * cs = (first + count) * cs + cs := by
      rw [← Nat.add_assoc, Nat.succ_mul]
    have hmono : first * cs ≤ (first + count) * cs := Nat.mul_le_mul_right cs (by omega)
    rw [range'_concat, flatMap_append, ih fun i h₁ h₂ => hpart i h₁ (by omega), flatMap_singleton,
      Nat.one_mul, hlast, hnext, chunkPart]
    -- the pieces meet, unless one of them is empty
    by_cases hbefore : hi ≤ (first + count) * cs
    · rw [slice_eq_nil (show min hi ((first + count) * cs + cs) ≤ max lo ((first + count) * cs) by omega), append_nil]
      congr 1
      omega
    · by_cases hafter : (first + count) * cs ≤ lo
      · have hnil : slice b (max lo (first * cs)) (min hi ((first + count) * cs)) = [] := slice_eq_nil (by omega)
        rw [hnil, nil_append]
        congr 1
        omega
      · rw [show min hi ((first + count) * cs) = (first + count) * cs by omega,
          show max lo ((first + count) * cs) = (first + count) * cs by omega]
        exact slice_append (by omega) (by omega)

theorem slice_one : slice b p (p + 1) = if p < b.length then [byteAt b p] else [] := by
  symm
  split
  case isTrue hp =>
    apply eq_slice
    · show 1 = _
      omega
    · intro q hq
      obtain rfl : q = 0 := by simpa using hq
      rfl
  case isFalse hp =>
    apply eq_slice
    · show 0 = _
      omega
    · intro q hq
      exact absurd hq (Nat.not_lt_zero q)

end Bytes
