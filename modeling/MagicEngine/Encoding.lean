import MagicEngine.Base
import MagicEngine.Lib.Codec

/-!
# Bytes of addresses, hashes and signatures
-/

namespace MagicEngine

open Codec

def Hash.toBytes (h : Hash) : Bytes := bigEndian 32 h.bytes.toNat

def Hash.ofBytes (bytes : Bytes) : Hash := ⟨BitVec.ofNat 256 (ofLittleEndian bytes.reverse)⟩

def Pubkey.toBytes (k : Pubkey) : Bytes := bigEndian 32 k.bytes.toNat

def Pubkey.ofBytes (bytes : Bytes) : Pubkey := ⟨BitVec.ofNat 256 (ofLittleEndian bytes.reverse)⟩

def Signature.toBytes (s : Signature) : Bytes := bigEndian 64 s.bytes.toNat

def Signature.ofBytes (bytes : Bytes) : Signature := ⟨BitVec.ofNat 512 (ofLittleEndian bytes.reverse)⟩

theorem hash_code : PrefixCode (fun _ : Hash => True) Hash.toBytes :=
  (PrefixCode.bitVec 32).comp fun h h' heq => by cases h; cases h'; simpa using heq

@[simp]
theorem Hash.length_toBytes (h : Hash) : h.toBytes.length = 32 := length_bigEndian 32 _

theorem ofNat_bigEndian (width : Nat) (b : BitVec (8 * width)) :
    BitVec.ofNat (8 * width) (ofLittleEndian (bigEndian width b.toNat).reverse) = b := by
  have hlt : b.toNat < 256 ^ width := (Nat.pow_mul 2 8 width) ▸ b.isLt
  rw [bigEndian, List.reverse_reverse, ofLittleEndian_littleEndian, Nat.mod_eq_of_lt hlt, BitVec.ofNat_toNat,
    BitVec.setWidth_eq]

theorem Hash.ofBytes_toBytes (h : Hash) : Hash.ofBytes h.toBytes = h := congrArg Hash.mk (ofNat_bigEndian 32 h.bytes)

theorem Pubkey.ofBytes_toBytes (k : Pubkey) : Pubkey.ofBytes k.toBytes = k :=
  congrArg Pubkey.mk (ofNat_bigEndian 32 k.bytes)

theorem pubkey_code : PrefixCode (fun _ : Pubkey => True) Pubkey.toBytes :=
  (PrefixCode.bitVec 32).comp fun k k' heq => by cases k; cases k'; simpa using heq

theorem Pubkey.toBytes_ofBytes {bytes : Bytes} (h : bytes.length = 32) : (Pubkey.ofBytes bytes).toBytes = bytes := by
  have hlength : bytes.reverse.length = 32 := by rw [List.length_reverse, h]
  have hbound := ofLittleEndian_lt bytes.reverse
  have hbytes := littleEndian_ofLittleEndian bytes.reverse
  rw [hlength] at hbound hbytes
  have hlt : ofLittleEndian bytes.reverse < 2 ^ 256 := hbound
  rw [ofBytes, toBytes, bigEndian, BitVec.toNat_ofNat, Nat.mod_eq_of_lt hlt, hbytes, List.reverse_reverse]

theorem signature_code : PrefixCode (fun _ : Signature => True) Signature.toBytes :=
  (PrefixCode.bitVec 64).comp fun s s' heq => by cases s; cases s'; simpa using heq

end MagicEngine
