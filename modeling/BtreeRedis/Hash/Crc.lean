import BtreeRedis.Hash.Node
import BtreeRedis.Lib.Crc

/-!
# The hash of a key

With `hashUseCrc32` a key is hashed by the CRC instructions of the processor: byte by byte up to
the next word boundary, then word by word, then byte by byte again. Keys are hashed in pages, in
the caller's buffers and in copies, and so at all addresses; the hash depends on the bytes alone.
-/

namespace BtreeRedis

/-- The polynomial of CRC-32C, reflected. -/
def crcPolynomial : BitVec 32 := 0x82F63B78

/-- `_mm_crc32_u8` -/
def mmCrc32U8 (crc : BitVec 32) (v : ℕ) : BitVec 32 := Crc.feed crcPolynomial 8 crc v

/-- `_mm_crc32_u32` -/
def mmCrc32U32 (crc : BitVec 32) (v : ℕ) : BitVec 32 := Crc.feed crcPolynomial 32 crc v

/-- `alignof(CrcWordType)` and `sizeof(CrcWordType)` -/
def crcWordSize : ℕ := 4

/-- Byte by byte up to an aligned address: what is left, and the remainder so far. -/
def crcAlign : ℕ → Bytes → BitVec 32 → Bytes × BitVec 32
  | _, [], crc => ([], crc)
  | address, byte :: data, crc =>
    if address % crcWordSize ≠ 0 then crcAlign (address + 1) data (mmCrc32U8 crc byte.val) else (byte :: data, crc)

/-- Word by word; the first byte in memory is the lowest of a word. -/
def crcWords : Bytes → BitVec 32 → Bytes × BitVec 32
  | b₀ :: b₁ :: b₂ :: b₃ :: data, crc =>
    crcWords data (mmCrc32U32 crc (b₀.val + 2 ^ 8 * b₁.val + 2 ^ 16 * b₂.val + 2 ^ 24 * b₃.val))
  | data, crc => (data, crc)

def crcBytes : Bytes → BitVec 32 → BitVec 32
  | [], crc => crc
  | byte :: data, crc => crcBytes data (mmCrc32U8 crc byte.val)

def crc32_hw (address : ℕ) (data : Bytes) (crc : BitVec 32) : BitVec 32 :=
  let (data, crc) := crcAlign address data crc
  let (data, crc) := crcWords data crc
  crcBytes data crc

/-- `HashNode::compute_hash` for a key at an address; `hasher` is that of the standard library. -/
def compute_hash (hashUseCrc32 : Bool) (hasher : Bytes → ℕ) (address : ℕ) (key : Bytes) : Byte :=
  if hashUseCrc32 then Fin.ofNat 256 ((crc32_hw address key 0).toNat % 256) else Fin.ofNat 256 (hasher key)

@[reducible] def KeyHash.ofBuild (hashUseCrc32 : Bool) (hasher : Bytes → ℕ) : KeyHash :=
  ⟨compute_hash hashUseCrc32 hasher 0⟩

variable {data : Bytes} {crc : BitVec 32}

theorem mmCrc32U32_bytes (b₀ b₁ b₂ b₃ : Byte) :
    mmCrc32U32 crc (b₀.val + 2 ^ 8 * b₁.val + 2 ^ 16 * b₂.val + 2 ^ 24 * b₃.val) =
      mmCrc32U8 (mmCrc32U8 (mmCrc32U8 (mmCrc32U8 crc b₀.val) b₁.val) b₂.val) b₃.val := by
  have hdigits : b₀.val + 2 ^ 8 * b₁.val + 2 ^ 16 * b₂.val + 2 ^ 24 * b₃.val =
      Nat.ofDigits (2 ^ 8) [b₀.val, b₁.val, b₂.val, b₃.val] := by
    simp only [Nat.ofDigits_cons, Nat.ofDigits_nil]
    ring
  have hlt : ∀ d ∈ [b₀.val, b₁.val, b₂.val, b₃.val], d < 2 ^ 8 := by
    simp only [List.forall_mem_cons, List.not_mem_nil, false_imp_iff, implies_true, and_true]
    exact ⟨b₀.isLt, b₁.isLt, b₂.isLt, b₃.isLt⟩
  rw [hdigits]
  exact Crc.feed_ofDigits (by decide) _ crc hlt le_rfl

theorem crcBytes_align (address : ℕ) (data : Bytes) (crc : BitVec 32) :
    crcBytes (crcAlign address data crc).1 (crcAlign address data crc).2 = crcBytes data crc := by
  induction data generalizing address crc with
  | nil => rfl
  | cons b data ih =>
    rw [crcAlign]
    split_ifs
    · exact ih _ _
    · rfl

theorem crcBytes_words : (data : Bytes) → (crc : BitVec 32) →
    crcBytes (crcWords data crc).1 (crcWords data crc).2 = crcBytes data crc
  | b₀ :: b₁ :: b₂ :: b₃ :: data, crc => by
    rw [crcWords, crcBytes_words data, mmCrc32U32_bytes]
    rfl
  | [], _ => rfl
  | [_], _ => rfl
  | [_, _], _ => rfl
  | [_, _, _], _ => rfl

theorem crc32_hw_eq (address : ℕ) (data : Bytes) (crc : BitVec 32) : crc32_hw address data crc = crcBytes data crc :=
  (crcBytes_words _ _).trans (crcBytes_align address data crc)

-- The check value of CRC-32C, which starts and ends with all bits turned over.
example : crc32_hw 3 [49, 50, 51, 52, 53, 54, 55, 56, 57] 0xFFFFFFFF ^^^ 0xFFFFFFFF = 0xE3069283 := by decide +kernel

/-- The hash of a key is that of its bytes wherever they stand: what a build stores for a key in one place is found
again from another, and a CRC hash is the low byte of the remainder that the bytes leave one by one. -/
theorem compute_hash_eq (hashUseCrc32 : Bool) (hasher : Bytes → ℕ) (address : ℕ) (key : Bytes) :
    compute_hash hashUseCrc32 hasher address key = (KeyHash.ofBuild hashUseCrc32 hasher).computeHash key ∧
      compute_hash true hasher address key = Fin.ofNat 256 (crcBytes key 0).toNat := by
  constructor
  · change _ = compute_hash hashUseCrc32 hasher 0 key
    rw [compute_hash, compute_hash, crc32_hw_eq, crc32_hw_eq]
  · rw [compute_hash, if_pos rfl, crc32_hw_eq]
    apply Fin.ext
    exact Nat.mod_mod _ _

end BtreeRedis
