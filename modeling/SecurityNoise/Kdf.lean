import SecurityNoise.External
import SecurityNoise.Framework.Symmetric

/-!
# BLAKE2b, HMAC-BLAKE2b and the Noise HKDF

The functions of `hash.cpp`, `hmac.cpp` and `hkdf.cpp`, with both overloads of
`blake2b` and of `hmac_blake2b` as the sources write them, and their equality with the
HMAC of RFC 2104 and the HKDF of the framework.
-/

namespace SecurityNoise

variable (X : External)

/-- `blake2b` of one range. -/
def blake2b (data : Bytes) : Digest := X.genericHash data

/-- libsodium's streaming state: the bytes absorbed so far. -/
structure Blake2bState where
  absorbed : Bytes := []

def Blake2bState.update (st : Blake2bState) (data : Bytes) : Blake2bState :=
  ⟨st.absorbed ++ data⟩

def Blake2bState.final (st : Blake2bState) : Digest := X.genericHash st.absorbed

/-- `blake2b` of two ranges, through the streaming interface. -/
def blake2bPair (a b : Bytes) : Digest :=
  let state : Blake2bState := {}
  ((state.update a).update b).final X

/-- `prepare_key`: zero padding up to `BLOCKLEN`, hashing first if longer. -/
def prepareKey (key : Bytes) : Block BLOCKLEN :=
  if h : key.length ≤ BLOCKLEN then Block.pad BLOCKLEN key h
  else Block.pad BLOCKLEN (blake2b X key).toList (by rw [Block.length_toList]; decide)

/-- `xor_const`. -/
def xorConst (blk : Block BLOCKLEN) (c : UInt8) : Block BLOCKLEN :=
  ⟨blk.toList.map (· ^^^ c), by simp⟩

/-- `hmac_blake2b` of one message. -/
def hmacBlake2b (key message : Bytes) : Digest :=
  let k := prepareKey X key
  let ipad := xorConst k 0x36
  let opad := xorConst k 0x5c
  let inner := blake2bPair X ipad.toList message
  blake2bPair X opad.toList inner.toList

/-- `hmac_blake2b` of a message in two parts. -/
def hmacBlake2bPair (key a b : Bytes) : Digest :=
  let k := prepareKey X key
  let ipad := xorConst k 0x36
  let opad := xorConst k 0x5c
  let st : Blake2bState := {}
  let inner := (((st.update ipad.toList).update a).update b).final X
  blake2bPair X opad.toList inner.toList

structure HkdfPair where
  output1 : Digest
  output2 : Digest
  deriving DecidableEq

structure HkdfTriple where
  output1 : Digest
  output2 : Digest
  output3 : Digest
  deriving DecidableEq

def hkdf2 (chainingKey inputKeyMaterial : Bytes) : HkdfPair :=
  let tempKey := hmacBlake2b X chainingKey inputKeyMaterial
  let output1 := hmacBlake2b X tempKey.toList [0x01]
  let output2 := hmacBlake2bPair X tempKey.toList output1.toList [0x02]
  ⟨output1, output2⟩

def hkdf3 (chainingKey inputKeyMaterial : Bytes) : HkdfTriple :=
  let tempKey := hmacBlake2b X chainingKey inputKeyMaterial
  let output1 := hmacBlake2b X tempKey.toList [0x01]
  let output2 := hmacBlake2bPair X tempKey.toList output1.toList [0x02]
  let output3 := hmacBlake2bPair X tempKey.toList output2.toList [0x03]
  ⟨output1, output2, output3⟩

/-- BLAKE2b-512 with its digest and block lengths. -/
def External.blake2b512 : Framework.HashFunction HASHLEN BLOCKLEN where
  hash := X.genericHash
  hashLen_le := by decide

section Streaming

theorem Blake2bState.foldl_absorbed (st : Blake2bState) (chunks : List Bytes) :
    (chunks.foldl update st).absorbed = st.absorbed ++ chunks.flatten := by
  induction chunks generalizing st with
  | nil => simp
  | cons chunk rest ih => rw [List.foldl_cons, ih, update, List.flatten_cons, List.append_assoc]

/-- However the input is cut, the streaming interface hashes the concatenation. -/
theorem Blake2bState.final_foldl (chunks : List Bytes) :
    (chunks.foldl update {}).final X = X.genericHash chunks.flatten := by
  rw [final, foldl_absorbed, List.nil_append]

@[simp] theorem blake2bPair_eq (a b : Bytes) : blake2bPair X a b = X.genericHash (a ++ b) := by
  calc
    blake2bPair X a b = ([a, b].foldl Blake2bState.update {}).final X := rfl
    _ = X.genericHash [a, b].flatten := Blake2bState.final_foldl X [a, b]
    _ = X.genericHash (a ++ b) := by simp

end Streaming

section Reference

/-- `prepare_key` gives the key block of RFC 2104 below, at and above `BLOCKLEN`. -/
theorem prepareKey_eq (key : Bytes) : prepareKey X key = X.blake2b512.keyBlock key := by
  apply Block.ext
  unfold prepareKey Framework.HashFunction.keyBlock
  rcases Nat.lt_or_ge BLOCKLEN key.length with h | h
  · rw [dif_neg (Nat.not_le.mpr h), Block.pad_toList, Block.pad_toList,
      X.blake2b512.keyInUse_of_lt h]
    rfl
  · rw [dif_pos h, Block.pad_toList, Block.pad_toList, X.blake2b512.keyInUse_of_le h]

theorem xorConst_eq (blk : Block BLOCKLEN) (c : UInt8) :
    xorConst blk c = blk.xor (Block.filled BLOCKLEN c) :=
  Block.ext (Block.xor_filled_toList blk c).symm

/-- `hmac_blake2b` of one message is HMAC. -/
theorem hmacBlake2b_eq (key message : Bytes) :
    hmacBlake2b X key message = X.blake2b512.hmac key message := by
  simp only [hmacBlake2b, blake2bPair_eq, xorConst_eq, prepareKey_eq]
  rfl

/-- Splitting the message does not change the HMAC. -/
theorem hmacBlake2bPair_eq (key a b : Bytes) :
    hmacBlake2bPair X key a b = hmacBlake2b X key (a ++ b) := by
  have hinner (ipad : Bytes) :
      (((Blake2bState.update {} ipad).update a).update b).final X =
        blake2bPair X ipad (a ++ b) := by
    calc
      (((Blake2bState.update {} ipad).update a).update b).final X =
          X.genericHash [ipad, a, b].flatten := Blake2bState.final_foldl X [ipad, a, b]
      _ = blake2bPair X ipad (a ++ b) := by simp
  simp only [hmacBlake2bPair, hmacBlake2b, hinner]

/-- A key longer than a block counts as its hash. -/
theorem hmacBlake2b_long {key : Bytes} (h : BLOCKLEN < key.length) (message : Bytes) :
    hmacBlake2b X (blake2b X key).toList message = hmacBlake2b X key message := by
  have hkey : (blake2b X key).toList = X.blake2b512.keyInUse key :=
    (X.blake2b512.keyInUse_of_lt h).symm
  rw [hmacBlake2b_eq, hmacBlake2b_eq, hkey, Framework.HashFunction.hmac_keyInUse]

/-- The first output of `HKDF`, under the temporary key. -/
theorem hmacBlake2b_output (tempKey : Bytes) :
    hmacBlake2b X tempKey [0x01] = X.blake2b512.output tempKey 0 := by
  rw [hmacBlake2b_eq, Framework.HashFunction.output]

/-- Every further output, from the one before it and its own number. -/
theorem hmacBlake2bPair_output (tempKey : Bytes) (i : Nat) {c : UInt8}
    (hc : c = UInt8.ofNat (i + 2)) :
    hmacBlake2bPair X tempKey (X.blake2b512.output tempKey i).toList [c] =
      X.blake2b512.output tempKey (i + 1) := by
  rw [hmacBlake2bPair_eq, hmacBlake2b_eq, Framework.HashFunction.output, hc]

theorem hkdf2_eq (ck ikm : Bytes) :
    [(hkdf2 X ck ikm).output1, (hkdf2 X ck ikm).output2] = X.blake2b512.hkdf ck ikm 2 := by
  simp only [hkdf2, hmacBlake2b_output, hmacBlake2b_eq X ck ikm]
  rw [hmacBlake2bPair_output X _ 0]
  all_goals rfl

theorem hkdf3_eq (ck ikm : Bytes) :
    [(hkdf3 X ck ikm).output1, (hkdf3 X ck ikm).output2, (hkdf3 X ck ikm).output3] =
      X.blake2b512.hkdf ck ikm 3 := by
  simp only [hkdf3, hmacBlake2b_output, hmacBlake2b_eq X ck ikm]
  rw [hmacBlake2bPair_output X _ 0, hmacBlake2bPair_output X _ 1]
  all_goals rfl

/-- The three-output body repeats the two-output one. -/
theorem hkdf3_hkdf2 (ck ikm : Bytes) :
    (hkdf3 X ck ikm).output1 = (hkdf2 X ck ikm).output1 ∧
      (hkdf3 X ck ikm).output2 = (hkdf2 X ck ikm).output2 := by
  have hpair : [(hkdf3 X ck ikm).output1, (hkdf3 X ck ikm).output2] =
      [(hkdf2 X ck ikm).output1, (hkdf2 X ck ikm).output2] := by
    calc
      [(hkdf3 X ck ikm).output1, (hkdf3 X ck ikm).output2] =
          (X.blake2b512.hkdf ck ikm 3).take 2 := by rw [← hkdf3_eq]; rfl
      _ = X.blake2b512.hkdf ck ikm 2 := X.blake2b512.hkdf_take (by decide) ck ikm
      _ = [(hkdf2 X ck ikm).output1, (hkdf2 X ck ikm).output2] := (hkdf2_eq X ck ikm).symm
  simpa using hpair

/-- HMAC and HKDF are the reference ones for every key and every input: one and two
message parts agree, and so do the two and the three outputs. -/
theorem hmac_hkdf_reference :
    (∀ key message, hmacBlake2b X key message = X.blake2b512.hmac key message) ∧
      (∀ key a b, hmacBlake2bPair X key a b = hmacBlake2b X key (a ++ b)) ∧
      (∀ ck ikm, [(hkdf2 X ck ikm).output1, (hkdf2 X ck ikm).output2] =
        X.blake2b512.hkdf ck ikm 2) ∧
      (∀ ck ikm, [(hkdf3 X ck ikm).output1, (hkdf3 X ck ikm).output2,
        (hkdf3 X ck ikm).output3] = X.blake2b512.hkdf ck ikm 3) ∧
      ∀ ck ikm, (hkdf3 X ck ikm).output1 = (hkdf2 X ck ikm).output1 ∧
        (hkdf3 X ck ikm).output2 = (hkdf2 X ck ikm).output2 := by
  refine ⟨?_, ?_, ?_, ?_, ?_⟩
  · exact hmacBlake2b_eq X
  · exact hmacBlake2bPair_eq X
  · exact hkdf2_eq X
  · exact hkdf3_eq X
  · exact hkdf3_hkdf2 X

section Suite

variable {X} {Priv : Type} {dhLen : Nat} {su : Framework.Suite Priv dhLen HASHLEN BLOCKLEN}

/-- For a suite with this hash, the outputs are those of its HKDF. -/
theorem hkdf2_suite (hsu : su.hash = X.genericHash) (ck ikm : Bytes) :
    [(hkdf2 X ck ikm).output1, (hkdf2 X ck ikm).output2] =
      [su.hkdf ck ikm 0, su.hkdf ck ikm 1] := by
  rw [Framework.Suite.hkdf_eq (H := X.blake2b512) hsu,
    Framework.Suite.hkdf_eq (H := X.blake2b512) hsu, hkdf2_eq]
  rfl

theorem hkdf2_output1 (hsu : su.hash = X.genericHash) (ck ikm : Bytes) :
    (hkdf2 X ck ikm).output1 = su.hkdf ck ikm 0 :=
  (List.cons.inj (hkdf2_suite hsu ck ikm)).1

theorem hkdf2_output2 (hsu : su.hash = X.genericHash) (ck ikm : Bytes) :
    (hkdf2 X ck ikm).output2 = su.hkdf ck ikm 1 :=
  (List.cons.inj (List.cons.inj (hkdf2_suite hsu ck ikm)).2).1

end Suite

end Reference

end SecurityNoise
