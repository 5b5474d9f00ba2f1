import SecurityNoise.Foundation.Bytes

/-!
# HMAC and HKDF over a hash function

HMAC as RFC 2104 defines it and the HKDF of section 4.3 of the framework, for any hash
function whose digest is no longer than the blocks it works on.
-/

namespace SecurityNoise.Framework

/-- A hash function with the length of its digests and of the blocks it works on. -/
structure HashFunction (hashLen blockLen : Nat) where
  hash : Bytes → Block hashLen
  hashLen_le : hashLen ≤ blockLen

namespace HashFunction

variable {hashLen blockLen : Nat} (H : HashFunction hashLen blockLen)

/-- The key in use: one longer than a block is hashed first. -/
def keyInUse (key : Bytes) : Bytes :=
  if blockLen < key.length then (H.hash key).toList else key

theorem keyInUse_of_le {key : Bytes} (h : key.length ≤ blockLen) : H.keyInUse key = key :=
  if_neg (by omega)

theorem keyInUse_of_lt {key : Bytes} (h : blockLen < key.length) :
    H.keyInUse key = (H.hash key).toList :=
  if_pos h

theorem keyInUse_length (key : Bytes) : (H.keyInUse key).length ≤ blockLen := by
  rcases Nat.lt_or_ge blockLen key.length with h | h
  · rw [H.keyInUse_of_lt h, Block.length_toList]
    exact H.hashLen_le
  · rw [H.keyInUse_of_le h]
    exact h

/-- The key with zeros appended up to a block. -/
def keyBlock (key : Bytes) : Block blockLen :=
  Block.pad blockLen (H.keyInUse key) (H.keyInUse_length key)

def ipad (blockLen : Nat) : Block blockLen := Block.filled blockLen 0x36

def opad (blockLen : Nat) : Block blockLen := Block.filled blockLen 0x5c

/-- `H(K xor opad, H(K xor ipad, text))` of RFC 2104. -/
def hmac (key text : Bytes) : Block hashLen :=
  H.hash (((H.keyBlock key).xor (opad blockLen)).toList ++
    (H.hash (((H.keyBlock key).xor (ipad blockLen)).toList ++ text)).toList)

/-- A key and the one in use in its place give the same HMAC. -/
theorem hmac_keyInUse (key text : Bytes) : H.hmac (H.keyInUse key) text = H.hmac key text := by
  have hblock : H.keyBlock (H.keyInUse key) = H.keyBlock key := by
    apply Block.ext
    simp only [keyBlock, Block.pad_toList, H.keyInUse_of_le (H.keyInUse_length key)]
  rw [hmac, hmac, hblock]

/-- The outputs of `HKDF` under the temporary key, the first one numbered 0: each is the
HMAC of the output before it and of its own number counted from 1. -/
def output (tempKey : Bytes) : Nat → Block hashLen
  | 0 => H.hmac tempKey [1]
  | i + 1 => H.hmac tempKey ((output tempKey i).toList ++ [UInt8.ofNat (i + 2)])

/-- The first `n` outputs of `HKDF` of a chaining key and input key material. -/
def hkdf (chainingKey inputKeyMaterial : Bytes) (n : Nat) : List (Block hashLen) :=
  (List.range n).map (H.output (H.hmac chainingKey inputKeyMaterial).toList)

/-- Asking for more outputs keeps the earlier ones. -/
theorem hkdf_take {m n : Nat} (h : m ≤ n) (chainingKey inputKeyMaterial : Bytes) :
    (H.hkdf chainingKey inputKeyMaterial n).take m = H.hkdf chainingKey inputKeyMaterial m := by
  rw [hkdf, ← List.map_take, List.take_range, Nat.min_eq_left h, hkdf]

end HashFunction

end SecurityNoise.Framework
