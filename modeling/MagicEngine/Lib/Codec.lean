import Mathlib.Data.List.Basic
import Mathlib.Tactic.Linarith

/-!
# Codes of bytes

Little-endian integers, prefix codes, and chunks of a byte string.

A prefix code is one whose code words can be told from what follows them (`PrefixCode`), so that a sequence of fields
determines each field: `PrefixCode` of a field is applied to an equation between two sequences and leaves the equation
between the rests. A parser that reads at an offset is described by the chunk it has passed (`Chunk`); chunks are put
together by `Chunk.append`, and a chunk from the first to the last offset is the whole string (`Chunk.whole`).
-/

namespace Codec

abbrev Bytes := List UInt8

/-! ### Little-endian integers -/

def littleEndian : Nat → Nat → Bytes
  | 0, _ => []
  | width + 1, n => UInt8.ofNat (n % 256) :: littleEndian width (n / 256)

def ofLittleEndian : Bytes → Nat
  | [] => 0
  | byte :: bytes => byte.toNat + 256 * ofLittleEndian bytes

@[simp]
theorem length_littleEndian (width n : Nat) : (littleEndian width n).length = width := by
  induction width generalizing n with
  | zero => rfl
  | succ width ih => simp [littleEndian, ih]

theorem ofLittleEndian_lt (bytes : Bytes) : ofLittleEndian bytes < 256 ^ bytes.length := by
  induction bytes with
  | nil => exact Nat.one_pos
  | cons byte bytes ih =>
    have hbyte := byte.toNat_lt
    rw [ofLittleEndian, List.length_cons, Nat.pow_succ]
    omega

theorem ofLittleEndian_littleEndian (width n : Nat) : ofLittleEndian (littleEndian width n) = n % 256 ^ width := by
  induction width generalizing n with
  | zero => simp [littleEndian, ofLittleEndian, Nat.mod_one]
  | succ width ih =>
    have hbyte : (UInt8.ofNat (n % 256)).toNat = n % 256 := by simp
    rw [littleEndian, ofLittleEndian, ih, hbyte, Nat.pow_succ, Nat.mul_comm (256 ^ width), Nat.mod_mul]

theorem littleEndian_ofLittleEndian (bytes : Bytes) : littleEndian bytes.length (ofLittleEndian bytes) = bytes := by
  induction bytes with
  | nil => rfl
  | cons byte bytes ih =>
    have hbyte := byte.toNat_lt
    have hlow : (byte.toNat + 256 * ofLittleEndian bytes) % 256 = byte.toNat := by omega
    have hhigh : (byte.toNat + 256 * ofLittleEndian bytes) / 256 = ofLittleEndian bytes := by omega
    simp [littleEndian, ofLittleEndian, hlow, hhigh, ih]

theorem littleEndian_mod (width n : Nat) : littleEndian width (n % 256 ^ width) = littleEndian width n := by
  have hbytes := littleEndian_ofLittleEndian (littleEndian width n)
  rwa [length_littleEndian, ofLittleEndian_littleEndian] at hbytes

theorem littleEndian_inj {width n m : Nat} (hn : n < 256 ^ width) (hm : m < 256 ^ width)
    (h : littleEndian width n = littleEndian width m) : n = m := by
  have heq := congrArg ofLittleEndian h
  rwa [ofLittleEndian_littleEndian, ofLittleEndian_littleEndian, Nat.mod_eq_of_lt hn, Nat.mod_eq_of_lt hm] at heq

def bigEndian (width n : Nat) : Bytes := (littleEndian width n).reverse

@[simp]
theorem length_bigEndian (width n : Nat) : (bigEndian width n).length = width := by
  simp [bigEndian]

/-! ### Prefix codes -/

section PrefixCode

variable {α β : Type}

/-- No code word of a valid value is a proper start of another one, and different values have different ones. -/
def PrefixCode (valid : α → Prop) (code : α → List β) : Prop :=
  ∀ ⦃a b : α⦄ ⦃x y : List β⦄, valid a → valid b → code a ++ x = code b ++ y → a = b ∧ x = y

variable {valid : α → Prop} {code : α → List β}

theorem PrefixCode.inj (h : PrefixCode valid code) {a b : α} (ha : valid a)
    (hb : valid b) (heq : code a = code b) : a = b :=
  (h (x := []) (y := []) ha hb (by rw [heq])).1

theorem PrefixCode.of_length {n : Nat}
    (hlength : ∀ a, valid a → (code a).length = n) (hinj : ∀ a b, valid a → valid b → code a = code b → a = b) :
    PrefixCode valid code := by
  intro a b x y ha hb heq
  have happend := List.append_inj heq ((hlength a ha).trans (hlength b hb).symm)
  exact ⟨hinj a b ha hb happend.1, happend.2⟩

theorem PrefixCode.fixed (n : Nat) : PrefixCode (fun l : List β => l.length = n) id :=
  .of_length (fun _ h => h) fun _ _ _ _ h => h

theorem PrefixCode.littleEndian (width : Nat) : PrefixCode (· < 256 ^ width) (littleEndian width) :=
  .of_length (fun n _ => length_littleEndian width n) fun _ _ => littleEndian_inj

theorem PrefixCode.bitVec (width : Nat) :
    PrefixCode (fun _ : BitVec (8 * width) => True) (fun v => bigEndian width v.toNat) := by
  have hlt (v : BitVec (8 * width)) : v.toNat < 256 ^ width := by
    have hpow : 2 ^ (8 * width) = 256 ^ width := Nat.pow_mul 2 8 width
    exact hpow ▸ v.isLt
  refine .of_length (fun v _ => length_bigEndian width v.toNat) fun v w _ _ h => ?_
  exact BitVec.eq_of_toNat_eq (littleEndian_inj (hlt v) (hlt w) (List.reverse_injective h))

theorem PrefixCode.comp {γ : Type} {f : γ → α} (h : PrefixCode valid code)
    (hf : Function.Injective f) : PrefixCode (fun c => valid (f c)) (fun c => code (f c)) := by
  intro c c' x y hc hc' heq
  obtain ⟨hcode, hxy⟩ := h hc hc' heq
  exact ⟨hf hcode, hxy⟩

def encodeU64 (n : Nat) : Bytes := Codec.littleEndian 8 n

def encodeU32 (n : Nat) : Bytes := Codec.littleEndian 4 n

def encodeI64 (n : Int) : Bytes := Codec.littleEndian 8 (n % 2 ^ 64).toNat

theorem u64_code : PrefixCode (· < 2 ^ 64) encodeU64 := PrefixCode.littleEndian 8

theorem i64_code : PrefixCode (fun n : Int => -2 ^ 63 ≤ n ∧ n < 2 ^ 63) encodeI64 := by
  intro n m x y hn hm h
  obtain ⟨heq, hxy⟩ := PrefixCode.littleEndian 8 (show (n % 2 ^ 64).toNat < 256 ^ 8 by omega)
    (show (m % 2 ^ 64).toNat < 256 ^ 8 by omega) h
  exact ⟨by omega, hxy⟩

theorem PrefixCode.list (h : PrefixCode valid code) (n : Nat) :
    PrefixCode (fun l : List α => l.length = n ∧ ∀ a ∈ l, valid a) (·.flatMap code) := by
  intro l l' x y ⟨hlength, hl⟩ ⟨hlength', hl'⟩ heq
  induction l generalizing n l' with
  | nil =>
    obtain rfl : l' = [] := List.length_eq_zero_iff.mp (hlength'.trans hlength.symm)
    exact ⟨rfl, heq⟩
  | cons a l ih =>
    cases l' with
    | nil => simp only [List.length_nil, List.length_cons] at hlength hlength'; omega
    | cons a' l' =>
      simp only [List.flatMap_cons, List.append_assoc] at heq
      obtain ⟨rfl, hrest⟩ := h (hl a List.mem_cons_self) (hl' a' List.mem_cons_self) heq
      obtain ⟨rfl, hxy⟩ := ih l.length rfl (fun b hb => hl b (List.mem_cons_of_mem a hb))
        (by simp only [List.length_cons] at hlength hlength'; omega)
        (fun b hb => hl' b (List.mem_cons_of_mem a hb)) hrest
      exact ⟨rfl, hxy⟩

end PrefixCode

/-! ### Chunks -/

section Chunk

variable {β : Type} {bytes c d : List β} {i j k : Nat}

def slice (bytes : List β) (offset length : Nat) : List β := (bytes.drop offset).take length

theorem length_slice {offset length : Nat} (h : offset + length ≤ bytes.length) :
    (slice bytes offset length).length = length := by
  simp [slice]
  omega

/-- The bytes from offset `i` to offset `j` are `c`. -/
structure Chunk (bytes : List β) (i j : Nat) (c : List β) : Prop where
  stop : j = i + c.length
  start : bytes.drop i = c ++ bytes.drop j

theorem Chunk.nil (bytes : List β) (i : Nat) : Chunk bytes i i [] := ⟨rfl, rfl⟩

theorem Chunk.append (h : Chunk bytes i j c) (h' : Chunk bytes j k d) : Chunk bytes i k (c ++ d) where
  stop := by rw [h'.stop, h.stop, List.length_append, Nat.add_assoc]
  start := by rw [h.start, h'.start, List.append_assoc]

theorem Chunk.whole (h : Chunk bytes 0 bytes.length c) : bytes = c := by
  simpa using h.start

theorem Chunk.slice {offset length : Nat} (h : offset + length ≤ bytes.length) :
    Chunk bytes offset (offset + length) (slice bytes offset length) where
  stop := by rw [length_slice h]
  start := by
    rw [Codec.slice, ← List.drop_drop]
    exact (List.take_append_drop length (bytes.drop offset)).symm

theorem Chunk.singleton {b : β} (h : bytes[i]? = some b) : Chunk bytes i (i + 1) [b] where
  stop := rfl
  start := by
    obtain ⟨hlt, rfl⟩ := List.getElem?_eq_some_iff.mp h
    exact List.drop_eq_getElem_cons hlt

theorem Chunk.eq_slice (h : Chunk bytes i j c) : c = Codec.slice bytes i (j - i) := by
  rw [Codec.slice, h.start, h.stop, Nat.add_sub_cancel_left, List.take_left]

end Chunk

/-! ### Groups of one size -/

section Groups

variable {β : Type}

def groups (size : Nat) : Nat → List β → List (List β)
  | 0, _ => []
  | n + 1, l => l.take size :: groups size n (l.drop size)

@[simp]
theorem length_groups (size n : Nat) (l : List β) : (groups size n l).length = n := by
  induction n generalizing l with
  | zero => rfl
  | succ n ih => simp [groups, ih]

theorem flatten_groups {size n : Nat} {l : List β} (h : l.length = n * size) : (groups size n l).flatten = l := by
  induction n generalizing l with
  | zero =>
    rw [Nat.zero_mul] at h
    simp [groups, List.length_eq_zero_iff.mp h]
  | succ n ih =>
    rw [Nat.succ_mul] at h
    rw [groups, List.flatten_cons, ih (by rw [List.length_drop]; omega), List.take_append_drop]

theorem groups_flatMap {α : Type} {size : Nat} {code : α → List β} (hlength : ∀ a, (code a).length = size) (l : List α)
    (rest : List β) : groups size l.length (l.flatMap code ++ rest) = l.map code := by
  induction l with
  | nil => rfl
  | cons a l ih =>
    rw [List.flatMap_cons, List.append_assoc, List.length_cons, groups, List.take_left' (hlength a),
      List.drop_left' (hlength a), ih, List.map_cons]

theorem length_of_mem_groups {size n : Nat} {l g : List β} (h : l.length = n * size) (hg : g ∈ groups size n l) :
    g.length = size := by
  induction n generalizing l with
  | zero => cases hg
  | succ n ih =>
    rw [Nat.succ_mul] at h
    rcases List.mem_cons.mp hg with rfl | hmem
    · rw [List.length_take]
      omega
    · exact ih (by rw [List.length_drop]; omega) hmem

end Groups

end Codec
