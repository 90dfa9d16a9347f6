/-
The digests.

`sha1Digest`, `sha256Digest` and `ripemd160Digest` in `src/src/crypto/hash_utils.cpp` never build the
padded message: they process the whole blocks of the data where they stand, copy what is left to a
buffer of 128 bytes, write the marker and the length there and process one or two more blocks.  The
three differ in their compression function, their first state and the order of the bytes of the length.

Main definitions:

* `BlockHash` — what a digest function has of its own, with `BlockHash.digest`;
* `sha1Digest`, `sha256Digest`, `ripemd160Digest`, `hash160Digest`, `hash256Digest`;
* `messagePadding` — the padding of the standards: `0x80`, zeros and the length in bits in 64 bits;
* `BlockHash.construction` — the compression function folded over the padded blocks.

Main results:

* `BlockHash.digest_eq` — a digest is the construction;
* `digests_construction` — **the three digests are the standard constructions, and distinct messages
  have distinct padded blocks.**
-/

import AtomicProof.MerkleDamgard
import AtomicProof.BuiltinAgreement

set_option autoImplicit false

namespace AtomicProof

open MerkleDamgard

/-! ### Words -/

def rotl32 (x n : UInt32) : UInt32 := (x <<< n) ||| (x >>> (32 - n))

def rotr32 (x n : UInt32) : UInt32 := (x >>> n) ||| (x <<< (32 - n))

/-- `readBE32`, of the bytes from `p` on. -/
def readBE32 (p : Bytes) : UInt32 :=
  ((p.getD 0 0).toUInt32 <<< 24) ||| ((p.getD 1 0).toUInt32 <<< 16) |||
    ((p.getD 2 0).toUInt32 <<< 8) ||| (p.getD 3 0).toUInt32

/-- `readLE32`, of the bytes from `p` on. -/
def readLE32 (p : Bytes) : UInt32 :=
  (p.getD 0 0).toUInt32 ||| ((p.getD 1 0).toUInt32 <<< 8) |||
    ((p.getD 2 0).toUInt32 <<< 16) ||| ((p.getD 3 0).toUInt32 <<< 24)

/-- The bytes that `writeBE32` writes. -/
def writeBE32 (v : UInt32) : Bytes :=
  [((v >>> 24) &&& 0xff).toUInt8, ((v >>> 16) &&& 0xff).toUInt8, ((v >>> 8) &&& 0xff).toUInt8,
    (v &&& 0xff).toUInt8]

/-- The bytes that `writeLE32` writes. -/
def writeLE32 (v : UInt32) : Bytes :=
  [(v &&& 0xff).toUInt8, ((v >>> 8) &&& 0xff).toUInt8, ((v >>> 16) &&& 0xff).toUInt8,
    ((v >>> 24) &&& 0xff).toUInt8]

/-- The state `h0`, …, `h4` of SHA-1 and RIPEMD-160. -/
structure State5 where
  h0 : UInt32
  h1 : UInt32
  h2 : UInt32
  h3 : UInt32
  h4 : UInt32
  deriving DecidableEq, Repr

/-- The state `h[0]`, …, `h[7]` of SHA-256. -/
structure State8 where
  h0 : UInt32
  h1 : UInt32
  h2 : UInt32
  h3 : UInt32
  h4 : UInt32
  h5 : UInt32
  h6 : UInt32
  h7 : UInt32
  deriving DecidableEq, Repr

/-! ### SHA-1 -/

namespace Sha1

/-- `h0`, …, `h4` before the first block. -/
def initial : State5 := ⟨0x67452301, 0xefcdab89, 0x98badcfe, 0x10325476, 0xc3d2e1f0⟩

/-- The array `w` of a block. -/
def w (block : Bytes) : Array UInt32 :=
  (List.range' 16 64).foldl
    (fun w i => w.push
      (rotl32 (w.getD (i - 3) 0 ^^^ w.getD (i - 8) 0 ^^^ w.getD (i - 14) 0 ^^^ w.getD (i - 16) 0) 1))
    ((Array.range 16).map fun i => readBE32 (block.drop (i * 4)))

/-- `f` and `k` of the round `i`. -/
def roundFunction (i : ℕ) (b c d : UInt32) : UInt32 × UInt32 :=
  if i < 20 then ((b &&& c) ||| (~~~b &&& d), 0x5a827999)
  else if i < 40 then (b ^^^ c ^^^ d, 0x6ed9eba1)
  else if i < 60 then ((b &&& c) ||| (b &&& d) ||| (c &&& d), 0x8f1bbcdc)
  else (b ^^^ c ^^^ d, 0xca62c1d6)

/-- One round, on `a`, …, `e`. -/
def round (w : Array UInt32) (s : State5) (i : ℕ) : State5 :=
  let ⟨a, b, c, d, e⟩ := s
  let fk := roundFunction i b c d
  let temp := rotl32 a 5 + fk.1 + e + fk.2 + w.getD i 0
  ⟨temp, a, rotl32 b 30, c, d⟩

/-- `processBlock` of `sha1Digest`. -/
def processBlock (h : State5) (block : Bytes) : State5 :=
  let s := (List.range 80).foldl (round (w block)) h
  ⟨h.h0 + s.h0, h.h1 + s.h1, h.h2 + s.h2, h.h3 + s.h3, h.h4 + s.h4⟩

/-- The bytes written to `out`. -/
def output (h : State5) : Bytes :=
  writeBE32 h.h0 ++ writeBE32 h.h1 ++ writeBE32 h.h2 ++ writeBE32 h.h3 ++ writeBE32 h.h4

end Sha1

/-! ### SHA-256 -/

namespace Sha256

/-- The table `K`. -/
def K : Array UInt32 := #[
  0x428a2f98, 0x71374491, 0xb5c0fbcf, 0xe9b5dba5, 0x3956c25b, 0x59f111f1, 0x923f82a4, 0xab1c5ed5,
  0xd807aa98, 0x12835b01, 0x243185be, 0x550c7dc3, 0x72be5d74, 0x80deb1fe, 0x9bdc06a7, 0xc19bf174,
  0xe49b69c1, 0xefbe4786, 0x0fc19dc6, 0x240ca1cc, 0x2de92c6f, 0x4a7484aa, 0x5cb0a9dc, 0x76f988da,
  0x983e5152, 0xa831c66d, 0xb00327c8, 0xbf597fc7, 0xc6e00bf3, 0xd5a79147, 0x06ca6351, 0x14292967,
  0x27b70a85, 0x2e1b2138, 0x4d2c6dfc, 0x53380d13, 0x650a7354, 0x766a0abb, 0x81c2c92e, 0x92722c85,
  0xa2bfe8a1, 0xa81a664b, 0xc24b8b70, 0xc76c51a3, 0xd192e819, 0xd6990624, 0xf40e3585, 0x106aa070,
  0x19a4c116, 0x1e376c08, 0x2748774c, 0x34b0bcb5, 0x391c0cb3, 0x4ed8aa4a, 0x5b9cca4f, 0x682e6ff3,
  0x748f82ee, 0x78a5636f, 0x84c87814, 0x8cc70208, 0x90befffa, 0xa4506ceb, 0xbef9a3f7, 0xc67178f2]

/-- `h` before the first block. -/
def initial : State8 :=
  ⟨0x6a09e667, 0xbb67ae85, 0x3c6ef372, 0xa54ff53a, 0x510e527f, 0x9b05688c, 0x1f83d9ab, 0x5be0cd19⟩

def ch (x y z : UInt32) : UInt32 := (x &&& y) ^^^ (~~~x &&& z)

def maj (x y z : UInt32) : UInt32 := (x &&& y) ^^^ (x &&& z) ^^^ (y &&& z)

def bigSigma0 (x : UInt32) : UInt32 := rotr32 x 2 ^^^ rotr32 x 13 ^^^ rotr32 x 22

def bigSigma1 (x : UInt32) : UInt32 := rotr32 x 6 ^^^ rotr32 x 11 ^^^ rotr32 x 25

def smallSigma0 (x : UInt32) : UInt32 := rotr32 x 7 ^^^ rotr32 x 18 ^^^ (x >>> 3)

def smallSigma1 (x : UInt32) : UInt32 := rotr32 x 17 ^^^ rotr32 x 19 ^^^ (x >>> 10)

/-- The array `w` of a block. -/
def w (block : Bytes) : Array UInt32 :=
  (List.range' 16 48).foldl
    (fun w i => w.push (smallSigma1 (w.getD (i - 2) 0) + w.getD (i - 7) 0 +
      smallSigma0 (w.getD (i - 15) 0) + w.getD (i - 16) 0))
    ((Array.range 16).map fun i => readBE32 (block.drop (i * 4)))

/-- One round, on `a`, …, `hh`. -/
def round (w : Array UInt32) (s : State8) (i : ℕ) : State8 :=
  let ⟨a, b, c, d, e, f, g, hh⟩ := s
  let t1 := hh + bigSigma1 e + ch e f g + K.getD i 0 + w.getD i 0
  let t2 := bigSigma0 a + maj a b c
  ⟨t1 + t2, a, b, c, d + t1, e, f, g⟩

/-- `processBlock` of `sha256Digest`. -/
def processBlock (h : State8) (block : Bytes) : State8 :=
  let s := (List.range 64).foldl (round (w block)) h
  ⟨h.h0 + s.h0, h.h1 + s.h1, h.h2 + s.h2, h.h3 + s.h3, h.h4 + s.h4, h.h5 + s.h5, h.h6 + s.h6,
    h.h7 + s.h7⟩

/-- The bytes written to `out`. -/
def output (h : State8) : Bytes :=
  writeBE32 h.h0 ++ writeBE32 h.h1 ++ writeBE32 h.h2 ++ writeBE32 h.h3 ++ writeBE32 h.h4 ++
    writeBE32 h.h5 ++ writeBE32 h.h6 ++ writeBE32 h.h7

end Sha256

/-! ### RIPEMD-160 -/

namespace Ripemd160

/-- The table `r`: the word of each round of the left line. -/
def r : Array ℕ := #[
  0, 1, 2, 3, 4, 5, 6, 7, 8, 9, 10, 11, 12, 13, 14, 15, 7, 4, 13, 1, 10, 6, 15, 3, 12, 0, 9, 5, 2, 14,
  11, 8, 3, 10, 14, 4, 9, 15, 8, 1, 2, 7, 0, 6, 13, 11, 5, 12, 1, 9, 11, 10, 0, 8, 12, 4, 13, 3, 7, 15,
  14, 5, 6, 2, 4, 0, 5, 9, 7, 12, 2, 10, 14, 1, 3, 8, 11, 6, 15, 13]

/-- The table `rp`: the word of each round of the right line. -/
def rp : Array ℕ := #[
  5, 14, 7, 0, 9, 2, 11, 4, 13, 6, 15, 8, 1, 10, 3, 12, 6, 11, 3, 7, 0, 13, 5, 10, 14, 15, 8, 12, 4, 9,
  1, 2, 15, 5, 1, 3, 7, 14, 6, 9, 11, 8, 12, 2, 10, 0, 4, 13, 8, 6, 4, 1, 3, 11, 15, 0, 5, 12, 2, 13,
  9, 7, 10, 14, 12, 15, 10, 4, 1, 5, 8, 7, 6, 2, 13, 14, 0, 3, 9, 11]

/-- The table `s`: the rotation of each round of the left line. -/
def s : Array UInt32 := #[
  11, 14, 15, 12, 5, 8, 7, 9, 11, 13, 14, 15, 6, 7, 9, 8, 7, 6, 8, 13, 11, 9, 7, 15, 7, 12, 15, 9, 11,
  7, 13, 12, 11, 13, 6, 7, 14, 9, 13, 15, 14, 8, 13, 6, 5, 12, 7, 5, 11, 12, 14, 15, 14, 15, 9, 8, 9,
  14, 5, 6, 8, 6, 5, 12, 9, 15, 5, 11, 6, 8, 13, 12, 5, 12, 13, 14, 11, 8, 5, 6]

/-- The table `sp`: the rotation of each round of the right line. -/
def sp : Array UInt32 := #[
  8, 9, 9, 11, 13, 15, 15, 5, 7, 7, 8, 11, 14, 14, 12, 6, 9, 13, 15, 7, 12, 8, 9, 11, 7, 7, 12, 7, 6,
  15, 13, 11, 9, 7, 15, 11, 8, 6, 6, 14, 12, 13, 5, 14, 13, 13, 7, 5, 15, 5, 8, 11, 14, 14, 6, 14, 6,
  9, 12, 9, 12, 5, 15, 8, 8, 5, 12, 9, 12, 5, 14, 6, 8, 13, 6, 5, 15, 13, 11, 11]

def f (j : ℕ) (x y z : UInt32) : UInt32 :=
  if j ≤ 15 then x ^^^ y ^^^ z
  else if j ≤ 31 then (x &&& y) ||| (~~~x &&& z)
  else if j ≤ 47 then (x ||| ~~~y) ^^^ z
  else if j ≤ 63 then (x &&& z) ||| (y &&& ~~~z)
  else x ^^^ (y ||| ~~~z)

def k (j : ℕ) : UInt32 :=
  if j ≤ 15 then 0x00000000
  else if j ≤ 31 then 0x5a827999
  else if j ≤ 47 then 0x6ed9eba1
  else if j ≤ 63 then 0x8f1bbcdc
  else 0xa953fd4e

def kp (j : ℕ) : UInt32 :=
  if j ≤ 15 then 0x50a28be6
  else if j ≤ 31 then 0x5c4dd124
  else if j ≤ 47 then 0x6d703ef3
  else if j ≤ 63 then 0x7a6d76e9
  else 0x00000000

/-- `h0`, …, `h4` before the first block. -/
def initial : State5 := ⟨0x67452301, 0xefcdab89, 0x98badcfe, 0x10325476, 0xc3d2e1f0⟩

/-- The array `x` of a block. -/
def x (block : Bytes) : Array UInt32 :=
  (Array.range 16).map fun i => readLE32 (block.drop (i * 4))

/-- One round of a line: its word, its constant, its rotation and its round function are given. -/
def line (word constant rotation : UInt32) (g : UInt32 → UInt32 → UInt32 → UInt32) (state : State5) :
    State5 :=
  let ⟨a, b, c, d, e⟩ := state
  ⟨e, rotl32 (a + g b c d + word + constant) rotation + e, b, rotl32 c 10, d⟩

/-- One round, on `al`, …, `el` and on `ar`, …, `er`. -/
def round (x : Array UInt32) (lines : State5 × State5) (j : ℕ) : State5 × State5 :=
  (line (x.getD (r.getD j 0) 0) (k j) (s.getD j 0) (f j) lines.1,
    line (x.getD (rp.getD j 0) 0) (kp j) (sp.getD j 0) (f (79 - j)) lines.2)

/-- `processBlock` of `ripemd160Digest`. -/
def processBlock (h : State5) (block : Bytes) : State5 :=
  let lines := (List.range 80).foldl (round (x block)) (h, h)
  let ⟨al, bl, cl, dl, el⟩ := lines.1
  let ⟨ar, br, cr, dr, er⟩ := lines.2
  ⟨h.h1 + cl + dr, h.h2 + dl + er, h.h3 + el + ar, h.h4 + al + br, h.h0 + bl + cr⟩

/-- The bytes written to `out`. -/
def output (h : State5) : Bytes :=
  writeLE32 h.h0 ++ writeLE32 h.h1 ++ writeLE32 h.h2 ++ writeLE32 h.h3 ++ writeLE32 h.h4

end Ripemd160

/-! ### The digest functions -/

/-- The buffer after `memcpy(buffer + start, source, source.size())`. -/
def memcpy (buffer : Bytes) (start : ℕ) (source : Bytes) : Bytes :=
  buffer.take start ++ source ++ buffer.drop (start + source.length)

/-- The 64 bytes at `p + start`. -/
def blockAt (p : Bytes) (start : ℕ) : Bytes := (p.drop start).take 64

/-- What one digest function has of its own: `processBlock` and the state it works on, the eight bytes
written to `lenPos` and the bytes written to `out`. -/
structure BlockHash (σ : Type) where
  initial : σ
  processBlock : σ → Bytes → σ
  lenBytes : UInt64 → Bytes
  output : σ → Bytes

/-- The body that the three digest functions share. -/
def BlockHash.digest {σ : Type} (H : BlockHash σ) (data : Bytes) : Bytes :=
  let bitLen : UInt64 := UInt64.ofNat data.length * 8
  let fullBlocks := data.length / 64
  let h := (List.range fullBlocks).foldl (fun h i => H.processBlock h (blockAt data (i * 64))) H.initial
  let rem := data.length - fullBlocks * 64
  let tail := List.replicate 128 0
  let tail := if rem ≠ 0 then memcpy tail 0 ((data.drop (fullBlocks * 64)).take rem) else tail
  let tail := tail.set rem 0x80
  let tailLen := if rem + 1 + 8 ≤ 64 then 64 else 128
  let tail := memcpy tail (tailLen - 8) (H.lenBytes bitLen)
  let h := H.processBlock h (blockAt tail 0)
  let h := if tailLen = 128 then H.processBlock h (blockAt tail 64) else h
  H.output h

/-- The loop that writes the length from its high byte down. -/
def lenBytesBE (bitLen : UInt64) : Bytes :=
  (List.range 8).map fun i => ((bitLen >>> UInt64.ofNat (56 - 8 * i)) &&& 0xff).toUInt8

/-- The loop that writes the length from its low byte up, `n` bytes of it. -/
def lenBytesLE : ℕ → UInt64 → Bytes
  | 0, _ => []
  | n + 1, bitLenCopy => (bitLenCopy &&& 0xff).toUInt8 :: lenBytesLE n (bitLenCopy >>> 8)

/-- `sha1Digest` as an instance. -/
def sha1 : BlockHash State5 where
  initial := Sha1.initial
  processBlock := Sha1.processBlock
  lenBytes := lenBytesBE
  output := Sha1.output

/-- `sha256Digest` as an instance. -/
def sha256 : BlockHash State8 where
  initial := Sha256.initial
  processBlock := Sha256.processBlock
  lenBytes := lenBytesBE
  output := Sha256.output

/-- `ripemd160Digest` as an instance. -/
def ripemd160 : BlockHash State5 where
  initial := Ripemd160.initial
  processBlock := Ripemd160.processBlock
  lenBytes := lenBytesLE 8
  output := Ripemd160.output

def sha1Digest (data : Bytes) : Bytes := sha1.digest data

def sha256Digest (data : Bytes) : Bytes := sha256.digest data

def ripemd160Digest (data : Bytes) : Bytes := ripemd160.digest data

def hash160Digest (data : Bytes) : Bytes := ripemd160Digest (sha256Digest data)

def hash256Digest (data : Bytes) : Bytes := sha256Digest (sha256Digest data)

/-! ### The padding of the standards -/

/-- The order of the bytes of the length. -/
inductive Endian
  | big | little
  deriving DecidableEq, Repr

def Endian.bytes64 : Endian → ℕ → Bytes
  | .big, n => (ScriptCodec.littleEndian n 8).reverse
  | .little, n => ScriptCodec.littleEndian n 8

/-- Blocks of 64 bytes, the marker `0x80`, zeros and the number of bits of the message. -/
def messagePadding (endian : Endian) : Padding UInt8 where
  blockSize := 64
  marker := 0x80
  filler := 0
  fieldSize := 8
  field n := endian.bytes64 (8 * n)
  blockSize_pos := by decide
  length_field n := by
    cases endian with
    | big => exact (List.length_reverse).trans (ScriptCodec.littleEndian_length _ _)
    | little => exact ScriptCodec.littleEndian_length _ _

def paddedBlocks (endian : Endian) (data : Bytes) : List Bytes :=
  blocks 64 ((messagePadding endian).pad data)

/-- **The Merkle–Damgård construction**: the compression function folded over the padded blocks. -/
def BlockHash.construction {σ : Type} (H : BlockHash σ) (endian : Endian) (data : Bytes) : Bytes :=
  H.output ((paddedBlocks endian data).foldl H.processBlock H.initial)

/-! ### The length -/

theorem bytes64_injOn (endian : Endian) : Set.InjOn endian.bytes64 (Set.Iio (2 ^ 64)) := by
  have hlittle : Set.InjOn (fun n => ScriptCodec.littleEndian n 8) (Set.Iio (2 ^ 64)) := by
    intro n hn n' hn' heq
    have hvalue := congrArg leNat heq
    rwa [ScriptCodec.leNat_littleEndian hn, ScriptCodec.leNat_littleEndian hn'] at hvalue
  cases endian with
  | big => exact fun n hn n' hn' heq => hlittle hn hn' (List.reverse_injective heq)
  | little => exact hlittle

theorem field_injOn (endian : Endian) :
    Set.InjOn (messagePadding endian).field (Set.Iio (2 ^ 61)) := by
  intro n hn n' hn' heq
  have hbound : n < 2 ^ 61 := hn
  have hbound' : n' < 2 ^ 61 := hn'
  have h8 : 8 * n = 8 * n' :=
    bytes64_injOn endian (Set.mem_Iio.2 (by omega)) (Set.mem_Iio.2 (by omega)) heq
  omega

theorem toNat_low (word : UInt64) : (word &&& 0xff).toUInt8 = UInt8.ofNat word.toNat := by
  refine UInt8.toNat_inj.1 ?_
  rw [UInt64.toNat_toUInt8, UInt64.toNat_and, UInt8.toNat_ofNat']
  have hmask : (0xff : UInt64).toNat = 2 ^ 8 - 1 := rfl
  rw [hmask, Nat.and_two_pow_sub_one_eq_mod, Nat.mod_mod]

theorem lenBytesLE_eq (n : ℕ) (word : UInt64) :
    lenBytesLE n word = ScriptCodec.littleEndian word.toNat n := by
  induction n generalizing word with
  | zero => rfl
  | succ n ih =>
      have hshift : (word >>> 8).toNat = word.toNat / 256 := by
        rw [UInt64.toNat_shiftRight]
        exact Nat.shiftRight_eq_div_pow _ _
      rw [lenBytesLE, ih, toNat_low, hshift, ScriptCodec.littleEndian_succ]

theorem lenBytesBE_eq (word : UInt64) :
    lenBytesBE word = (ScriptCodec.littleEndian word.toNat 8).reverse := by
  refine List.ext_getElem (by simp [lenBytesBE, ScriptCodec.littleEndian]) fun i hi hi' => ?_
  have hlt : i < 8 := by simpa [lenBytesBE] using hi
  have hamount : (UInt64.ofNat (56 - 8 * i)).toNat % 64 = 8 * (7 - i) := by
    rw [UInt64.toNat_ofNat']
    omega
  have hshift : (word >>> UInt64.ofNat (56 - 8 * i)).toNat = word.toNat / 256 ^ (7 - i) := by
    rw [UInt64.toNat_shiftRight, hamount, Nat.shiftRight_eq_div_pow, Nat.pow_mul]
  rw [List.getElem_reverse]
  simp only [lenBytesBE, ScriptCodec.littleEndian, List.getElem_map, List.getElem_range, List.length_map,
    List.length_range]
  rw [toNat_low, hshift]

/-! ### The buffer -/

section Buffer

variable (rest field : Bytes)

theorem memcpy_start (n : ℕ) :
    memcpy (List.replicate n 0) 0 rest = rest ++ List.replicate (n - rest.length) 0 := by
  rw [memcpy, List.take_zero, List.nil_append, Nat.zero_add, List.drop_replicate]

theorem set_marker (m : ℕ) (marker : UInt8) :
    (rest ++ List.replicate (m + 1) 0).set rest.length marker =
      rest ++ marker :: List.replicate m 0 := by
  rw [List.set_append_right _ _ le_rfl, Nat.sub_self, List.replicate_succ, List.set_cons_zero]

theorem memcpy_field (front : Bytes) (zeros m : ℕ) :
    memcpy (front ++ List.replicate (zeros + (field.length + m)) 0) (front.length + zeros) field =
      front ++ List.replicate zeros 0 ++ field ++ List.replicate m 0 := by
  have hsplit : front ++ List.replicate (zeros + (field.length + m)) (0 : UInt8) =
      (front ++ List.replicate zeros 0) ++ List.replicate (field.length + m) 0 := by
    rw [List.append_assoc, List.replicate_append_replicate]
  have hfront : front.length + zeros = (front ++ List.replicate zeros (0 : UInt8)).length := by
    rw [List.length_append, List.length_replicate]
  rw [memcpy, hsplit, hfront, List.take_left', List.drop_length_add_append, List.drop_replicate,
    Nat.add_sub_cancel_left]
  rfl

/-- The buffer of 128 bytes as the last blocks: what is left, the marker, zeros and the field up to
`tailLen`, and zeros after it. -/
theorem buffer_eq {tailLen zeros : ℕ} (htail : rest.length + 1 + zeros + field.length = tailLen)
    (hfit : tailLen ≤ 128) :
    memcpy ((memcpy (List.replicate 128 0) 0 rest).set rest.length 0x80) (tailLen - field.length)
        field =
      rest ++ 0x80 :: List.replicate zeros 0 ++ field ++ List.replicate (128 - tailLen) 0 := by
  have hroom : 128 - rest.length = zeros + (field.length + (128 - tailLen)) + 1 := by omega
  have hstart : tailLen - field.length = (rest ++ [(0x80 : UInt8)]).length + zeros := by
    rw [List.length_append, List.length_singleton]
    omega
  rw [memcpy_start, hroom, set_marker, hstart, List.append_cons, memcpy_field]
  simp only [List.append_assoc, List.cons_append, List.nil_append]

end Buffer

theorem memcpy_nil (buffer : Bytes) : memcpy buffer 0 [] = buffer := by
  rw [memcpy, List.take_zero, List.nil_append, List.length_nil, List.drop_zero, List.nil_append]

theorem blocks64_eq (p : Bytes) : blocks 64 p = (List.range (p.length / 64)).map fun i =>
    blockAt p (i * 64) := rfl

theorem blockAt_append {p : Bytes} {start : ℕ} (h : start + 64 ≤ p.length) (more : Bytes) :
    blockAt (p ++ more) start = blockAt p start := by
  unfold blockAt
  rw [List.drop_append_of_le_length (by omega),
    List.take_append_of_le_length (by rw [List.length_drop]; omega)]

theorem foldl_last {σ : Type} (f : σ → Bytes → σ) (h : σ) {last : Bytes}
    (hlast : last.length = 64 ∨ last.length = 128) (more : Bytes) :
    (blocks 64 last).foldl f h =
      if last.length = 128 then f (f h (blockAt (last ++ more) 0)) (blockAt (last ++ more) 64)
      else f h (blockAt (last ++ more) 0) := by
  rcases hlast with hone | htwo
  · rw [if_neg (by omega), blockAt_append (by omega), blocks64_eq, hone]
    rfl
  · rw [if_pos htwo, blockAt_append (by omega), blockAt_append (by omega), blocks64_eq, htwo]
    rfl

theorem blocks_take (data : Bytes) : blocks 64 (data.take (data.length / 64 * 64)) = blocks 64 data := by
  have hfront : 64 ∣ (data.take (data.length / 64 * 64)).length := by
    rw [List.length_take, Nat.min_eq_left (by omega)]
    exact Nat.dvd_mul_left _ _
  have hnone : blocks 64 (data.drop (data.length / 64 * 64)) = [] := by
    have hshort : (data.length - data.length / 64 * 64) / 64 = 0 := by omega
    rw [blocks64_eq, List.length_drop, hshort, List.range_zero, List.map_nil]
  conv_rhs => rw [← List.take_append_drop (data.length / 64 * 64) data]
  rw [blocks_append (by decide) hfront, hnone, List.append_nil]

theorem paddedBlocks_eq (endian : Endian) (data : Bytes) :
    paddedBlocks endian data = blocks 64 data ++
      blocks 64 (data.drop (data.length / 64 * 64) ++
        0x80 :: List.replicate ((messagePadding endian).fillers data.length) 0 ++
        endian.bytes64 (8 * data.length)) := by
  have hfront : 64 ∣ (data.take (data.length / 64 * 64)).length := by
    rw [List.length_take, Nat.min_eq_left (by omega)]
    exact Nat.dvd_mul_left _ _
  rw [← blocks_take]
  exact (messagePadding endian).blocks_pad_eq data (List.take_append_drop _ _).symm hfront

/-- **A digest is the construction**, for data of any length below 2^61. -/
theorem BlockHash.digest_eq {σ : Type} (H : BlockHash σ) (endian : Endian)
    (hlen : ∀ word, H.lenBytes word = endian.bytes64 word.toNat) {data : Bytes}
    (hdata : data.length < 2 ^ 61) : H.digest data = H.construction endian data := by
  obtain ⟨rest, hrest⟩ : ∃ rest, rest = data.drop (data.length / 64 * 64) := ⟨_, rfl⟩
  obtain ⟨field, hfield⟩ : ∃ field, field = endian.bytes64 (8 * data.length) := ⟨_, rfl⟩
  obtain ⟨zeros, hzeros⟩ : ∃ zeros, zeros = (messagePadding endian).fillers data.length := ⟨_, rfl⟩
  obtain ⟨last, hlast⟩ : ∃ last, last = rest ++ 0x80 :: List.replicate zeros 0 ++ field := ⟨_, rfl⟩
  have hrestLen : rest.length = data.length - data.length / 64 * 64 := by
    rw [hrest, List.length_drop]
  have hfieldLen : field.length = 8 := by
    rw [hfield]
    exact (messagePadding endian).length_field data.length
  have hzerosEq : zeros = 63 - (data.length + 8) % 64 := hzeros
  have hlastLen : last.length = rest.length + 1 + zeros + field.length := by
    rw [hlast, List.length_append, List.length_append, List.length_cons, List.length_replicate]
    omega
  -- the boundary: what is left fits one block with nine more bytes, or takes two
  have htailLen : (if rest.length + 1 + 8 ≤ 64 then 64 else 128) = last.length := by
    rw [hlastLen, hfieldLen, hzerosEq]
    split_ifs with h <;> omega
  have hcases : last.length = 64 ∨ last.length = 128 := by
    rw [← htailLen]
    split_ifs
    · exact Or.inl rfl
    · exact Or.inr rfl
  have hbits : H.lenBytes (UInt64.ofNat data.length * 8) = field := by
    rw [hlen, hfield, UInt64.toNat_mul, UInt64.toNat_ofNat']
    congr 1
    show data.length % 2 ^ 64 * 8 % 2 ^ 64 = 8 * data.length
    omega
  have hcopy : (if rest.length ≠ 0 then memcpy (List.replicate 128 0) 0 rest
      else List.replicate 128 0) = memcpy (List.replicate 128 0) 0 rest := by
    split_ifs with h
    · rfl
    · rw [List.eq_nil_of_length_eq_zero (not_not.1 h), memcpy_nil]
  have hbuffer := buffer_eq rest field hlastLen.symm (by omega)
  rw [hfieldLen, ← hlast] at hbuffer
  have htake : (data.drop (data.length / 64 * 64)).take rest.length = rest := by
    rw [← hrest, List.take_length]
  have hpadded : paddedBlocks endian data = blocks 64 data ++ blocks 64 last := by
    rw [paddedBlocks_eq, ← hrest, ← hfield, ← hzeros, ← hlast]
  have hfold : (List.range (data.length / 64)).foldl
      (fun h i => H.processBlock h (blockAt data (i * 64))) H.initial =
      (blocks 64 data).foldl H.processBlock H.initial :=
    (foldl_blocks H.processBlock H.initial 64 data).symm
  unfold BlockHash.digest BlockHash.construction
  simp only [← hrestLen, htake, hcopy, htailLen, hbits, hbuffer, hfold]
  rw [hpadded, List.foldl_append, foldl_last H.processBlock _ hcases]

theorem isLeast_length_pad (endian : Endian) (data : Bytes) :
    IsLeast {m | 64 ∣ m ∧ data.length + 1 + 8 ≤ m} ((messagePadding endian).pad data).length := by
  rw [(messagePadding endian).length_pad]
  exact (messagePadding endian).isLeast_paddedLength data.length

theorem sha1Digest_eq {data : Bytes} (h : data.length < 2 ^ 61) :
    sha1Digest data = sha1.construction .big data :=
  sha1.digest_eq .big lenBytesBE_eq h

theorem sha256Digest_eq {data : Bytes} (h : data.length < 2 ^ 61) :
    sha256Digest data = sha256.construction .big data :=
  sha256.digest_eq .big lenBytesBE_eq h

theorem ripemd160Digest_eq {data : Bytes} (h : data.length < 2 ^ 61) :
    ripemd160Digest data = ripemd160.construction .little data :=
  ripemd160.digest_eq .little (lenBytesLE_eq 8) h

theorem paddedBlocks_injOn (endian : Endian) :
    Set.InjOn (paddedBlocks endian) {data | data.length < 2 ^ 61} :=
  (messagePadding endian).blocks_pad_injOn (field_injOn endian)

/-- **The digest functions hash the padded message**: each is its compression function folded from its
first state over the blocks of the padded message, whose length is the least multiple of 64 that fits,
and distinct messages have distinct padded blocks. -/
theorem digests_construction :
    (∀ data : Bytes, data.length < 2 ^ 61 →
      sha1Digest data = sha1.construction .big data ∧
      sha256Digest data = sha256.construction .big data ∧
      ripemd160Digest data = ripemd160.construction .little data) ∧
    (∀ (endian : Endian) (data : Bytes),
      IsLeast {m | 64 ∣ m ∧ data.length + 1 + 8 ≤ m} ((messagePadding endian).pad data).length) ∧
    ∀ (endian : Endian) (data data' : Bytes), data.length < 2 ^ 61 → data'.length < 2 ^ 61 →
      paddedBlocks endian data = paddedBlocks endian data' → data = data' := by
  refine ⟨fun data h => ⟨sha1Digest_eq h, sha256Digest_eq h, ripemd160Digest_eq h⟩,
    isLeast_length_pad, ?_⟩
  intro endian data data' h h' heq
  exact paddedBlocks_injOn endian h h' heq

theorem digests_construction_abc :
    (sha1Digest [0x61, 0x62, 0x63] = sha1.construction .big [0x61, 0x62, 0x63] ∧
      sha256Digest [0x61, 0x62, 0x63] = sha256.construction .big [0x61, 0x62, 0x63] ∧
      ripemd160Digest [0x61, 0x62, 0x63] = ripemd160.construction .little [0x61, 0x62, 0x63]) ∧
    (paddedBlocks .big [0x61] = paddedBlocks .big [0x62] → ([0x61] : Bytes) = [0x62]) :=
  ⟨digests_construction.1 [0x61, 0x62, 0x63] (by decide),
    digests_construction.2.2 .big [0x61] [0x62] (by decide) (by decide)⟩

-- The published digests of `abc`.
example : sha1Digest [0x61, 0x62, 0x63] =
    [0xa9, 0x99, 0x3e, 0x36, 0x47, 0x06, 0x81, 0x6a, 0xba, 0x3e, 0x25, 0x71, 0x78, 0x50, 0xc2, 0x6c,
      0x9c, 0xd0, 0xd8, 0x9d] := by
  decide +kernel

example : sha256Digest [0x61, 0x62, 0x63] =
    [0xba, 0x78, 0x16, 0xbf, 0x8f, 0x01, 0xcf, 0xea, 0x41, 0x41, 0x40, 0xde, 0x5d, 0xae, 0x22, 0x23,
      0xb0, 0x03, 0x61, 0xa3, 0x96, 0x17, 0x7a, 0x9c, 0xb4, 0x10, 0xff, 0x61, 0xf2, 0x00, 0x15, 0xad] := by
  decide +kernel

example : ripemd160Digest [0x61, 0x62, 0x63] =
    [0x8e, 0xb2, 0x08, 0xf7, 0xe0, 0x5d, 0x98, 0x7a, 0x9b, 0x04, 0x4a, 0x8e, 0x98, 0xc6, 0xb0, 0x87,
      0xf1, 0x5a, 0x0b, 0xfc] := by
  decide +kernel

end AtomicProof
