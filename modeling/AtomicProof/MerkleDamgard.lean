/-
The Merkle–Damgård construction.

A message over any alphabet is padded with a marker, as few fillers as fit and a field of fixed width
that holds its length; the padded message is cut into blocks of one size, and a compression function is
folded over the blocks.

Main definitions:

* `MerkleDamgard.blocks` — a word cut into blocks;
* `MerkleDamgard.Padding` — a way of padding, with `Padding.pad` and `Padding.paddedLength`.

Main results:

* `MerkleDamgard.flatten_blocks`, `MerkleDamgard.blocks_append` — blocks of whole words;
* `MerkleDamgard.Padding.isLeast_paddedLength` — the padded length is the least that fits;
* `MerkleDamgard.Padding.blocks_pad_injOn` — **distinct messages have distinct padded blocks**.
-/

import Mathlib.Data.List.Basic
import Mathlib.Data.Set.Function
import Mathlib.Order.Bounds.Basic

set_option autoImplicit false

namespace MerkleDamgard

variable {α σ : Type*}

/-! ### Blocks -/

/-- The blocks of size `B` of a word, from its start; an incomplete last block is left out. -/
def blocks (B : ℕ) (word : List α) : List (List α) :=
  (List.range (word.length / B)).map fun i => (word.drop (i * B)).take B

@[simp] theorem length_blocks (B : ℕ) (word : List α) : (blocks B word).length = word.length / B := by
  rw [blocks, List.length_map, List.length_range]

/-- The blocks of a word one of whose parts is whole. -/
theorem blocks_append {B : ℕ} (hB : 0 < B) {front : List α} (hfront : B ∣ front.length)
    (back : List α) : blocks B (front ++ back) = blocks B front ++ blocks B back := by
  obtain ⟨k, hk⟩ := hfront
  have hcount : (front ++ back).length / B = k + back.length / B := by
    rw [List.length_append, hk, Nat.mul_add_div hB]
  have hfull : front.length / B = k := by
    rw [hk, Nat.mul_div_cancel_left k hB]
  unfold blocks
  rw [hcount, hfull, List.range_add, List.map_append, List.map_map]
  congr 1
  -- the blocks of the front lie inside it
  · refine List.map_congr_left fun i hi => ?_
    have hle : (i + 1) * B ≤ k * B := Nat.mul_le_mul_right B (List.mem_range.1 hi)
    rw [Nat.succ_mul, Nat.mul_comm k B, ← hk] at hle
    rw [List.drop_append_of_le_length (by omega),
      List.take_append_of_le_length (by rw [List.length_drop]; omega)]
  · refine List.map_congr_left fun i _ => ?_
    have hstart : (k + i) * B = front.length + i * B := by
      rw [Nat.add_mul, hk, Nat.mul_comm k B]
    rw [Function.comp_apply, hstart, List.drop_length_add_append]

@[simp] theorem blocks_nil (B : ℕ) : blocks B ([] : List α) = [] := by
  rw [blocks, List.length_nil, Nat.zero_div, List.range_zero, List.map_nil]

theorem blocks_self {B : ℕ} (hB : 0 < B) {block : List α} (h : block.length = B) :
    blocks B block = [block] := by
  have htake : block.take B = block := by
    rw [← h, List.take_length]
  rw [blocks, h, Nat.div_self hB, List.range_one, List.map_singleton, Nat.zero_mul, List.drop_zero, htake]

/-- A whole word is made of its blocks. -/
theorem flatten_blocks {B : ℕ} (hB : 0 < B) :
    ∀ (k : ℕ) (word : List α), word.length = k * B → (blocks B word).flatten = word := by
  intro k
  induction k with
  | zero =>
      intro word h
      rw [Nat.zero_mul] at h
      rw [List.eq_nil_of_length_eq_zero h, blocks_nil, List.flatten_nil]
  | succ k ih =>
      intro word h
      rw [Nat.succ_mul] at h
      have hfirst : (word.take B).length = B := by
        rw [List.length_take, Nat.min_eq_left (by omega)]
      have hwhole : B ∣ (word.take B).length := ⟨1, by rw [hfirst, Nat.mul_one]⟩
      have hrest : (word.drop B).length = k * B := by
        rw [List.length_drop]
        omega
      conv_lhs => rw [← List.take_append_drop B word]
      rw [blocks_append hB hwhole, blocks_self hB hfirst, List.flatten_append, ih _ hrest,
        List.flatten_singleton, List.take_append_drop]

theorem foldl_blocks (f : σ → List α → σ) (state : σ) (B : ℕ) (word : List α) :
    (blocks B word).foldl f state =
      (List.range (word.length / B)).foldl (fun s i => f s ((word.drop (i * B)).take B)) state := by
  rw [blocks, List.foldl_map]

/-! ### Padding -/

/-- A way of padding: the size of a block, a marker, a filler and the field for the length. -/
structure Padding (α : Type*) where
  blockSize : ℕ
  marker : α
  filler : α
  fieldSize : ℕ
  field : ℕ → List α
  blockSize_pos : 0 < blockSize
  length_field : ∀ n, (field n).length = fieldSize

namespace Padding

variable (P : Padding α)

/-- The number of fillers: with the marker and the field they complete the last block. -/
def fillers (n : ℕ) : ℕ :=
  P.blockSize - 1 - (n + P.fieldSize) % P.blockSize

def paddedLength (n : ℕ) : ℕ := n + 1 + P.fillers n + P.fieldSize

/-- A message, the marker, the fillers and the field. -/
def pad (message : List α) : List α :=
  message ++ P.marker :: List.replicate (P.fillers message.length) P.filler ++ P.field message.length

theorem length_pad (message : List α) : (P.pad message).length = P.paddedLength message.length := by
  unfold pad paddedLength
  rw [List.length_append, List.length_append, List.length_cons, List.length_replicate, P.length_field]
  omega

theorem paddedLength_eq (n : ℕ) :
    P.paddedLength n = ((n + P.fieldSize) / P.blockSize + 1) * P.blockSize := by
  have hsplit := Nat.div_add_mod (n + P.fieldSize) P.blockSize
  have hlt := Nat.mod_lt (n + P.fieldSize) P.blockSize_pos
  rw [Nat.succ_mul, Nat.mul_comm]
  unfold paddedLength fillers
  omega

theorem dvd_paddedLength (n : ℕ) : P.blockSize ∣ P.paddedLength n := by
  rw [P.paddedLength_eq]
  exact Nat.dvd_mul_left _ _

/-- **The padded length is the least whole number of blocks that holds the message, the marker and
the field.** -/
theorem isLeast_paddedLength (n : ℕ) :
    IsLeast {m | P.blockSize ∣ m ∧ n + 1 + P.fieldSize ≤ m} (P.paddedLength n) := by
  constructor
  · refine ⟨P.dvd_paddedLength n, ?_⟩
    unfold paddedLength
    omega
  · rintro m ⟨⟨k, rfl⟩, hm⟩
    have hk : (n + P.fieldSize) / P.blockSize < k := by
      rw [Nat.div_lt_iff_lt_mul P.blockSize_pos, Nat.mul_comm]
      omega
    rw [P.paddedLength_eq, Nat.mul_comm P.blockSize k]
    exact Nat.mul_le_mul_right _ hk

theorem flatten_blocks_pad (message : List α) :
    (blocks P.blockSize (P.pad message)).flatten = P.pad message :=
  flatten_blocks P.blockSize_pos _ _ ((P.length_pad message).trans (P.paddedLength_eq _))

/-- Padding keeps messages apart, as far as the field keeps their lengths apart. -/
theorem pad_injOn {bound : ℕ} (hfield : Set.InjOn P.field (Set.Iio bound)) :
    Set.InjOn P.pad {message | message.length < bound} := by
  intro message hmessage message' hmessage' heq
  -- the fields stand at the end and have one width
  have hfields : P.field message.length = P.field message'.length := by
    refine (List.append_inj' heq ?_).2
    rw [P.length_field, P.length_field]
  have hlength : message.length = message'.length := hfield hmessage hmessage' hfields
  unfold pad at heq
  rw [List.append_assoc, List.append_assoc] at heq
  exact (List.append_inj heq hlength).1

/-- **Distinct messages have distinct lists of padded blocks.** -/
theorem blocks_pad_injOn {bound : ℕ} (hfield : Set.InjOn P.field (Set.Iio bound)) :
    Set.InjOn (fun message => blocks P.blockSize (P.pad message))
      {message | message.length < bound} := by
  intro message hmessage message' hmessage' heq
  refine P.pad_injOn hfield hmessage hmessage' ?_
  rw [← P.flatten_blocks_pad message, ← P.flatten_blocks_pad message']
  exact congrArg List.flatten heq

theorem blocks_pad_eq (message : List α) {front rest : List α} (h : message = front ++ rest)
    (hfront : P.blockSize ∣ front.length) :
    blocks P.blockSize (P.pad message) = blocks P.blockSize front ++
      blocks P.blockSize (rest ++ P.marker :: List.replicate (P.fillers message.length) P.filler ++
        P.field message.length) := by
  rw [← blocks_append P.blockSize_pos hfront, ← List.append_assoc, ← List.append_assoc, ← h, pad]

end Padding

end MerkleDamgard
