import Mathlib.Data.List.GetD
import Mathlib.Algebra.Order.Ring.Int

namespace Nctusde.Wire

abbrev Bytes := List UInt8

/-- The value a 64-bit `long` keeps of an integer. -/
def toLong (x : ℤ) : ℤ := Int.bmod x (2 ^ 64)

def toInt (x : ℤ) : ℤ := Int.bmod x (2 ^ 32)

def toU64 (x : ℤ) : ℤ := x % 2 ^ 64

def toU32 (x : ℤ) : UInt32 := UInt32.ofNat (x % 2 ^ 32).toNat

def LONG_MAX : ℤ := 2 ^ 63 - 1

theorem toLong_of_fits {x : ℤ} (h0 : -2 ^ 63 ≤ x) (h : x < 2 ^ 63) : toLong x = x := by
  apply Int.bmod_eq_of_le <;> omega

theorem toLong_le (x : ℤ) : toLong x ≤ LONG_MAX := by
  have := Int.bmod_lt (x := x) (show 0 < 2 ^ 64 by decide)
  simp only [toLong, LONG_MAX]
  omega

theorem toInt_of_fits {x : ℤ} (h0 : -2 ^ 31 ≤ x) (h : x < 2 ^ 31) : toInt x = x := by
  apply Int.bmod_eq_of_le <;> omega

theorem toU64_of_fits {x : ℤ} (h0 : 0 ≤ x) (h : x < 2 ^ 64) : toU64 x = x :=
  Int.emod_eq_of_lt h0 h

theorem toNat_toU32 (x : ℤ) : ((toU32 x).toNat : ℤ) = x % 2 ^ 32 := by
  have h0 := Int.emod_nonneg x (show (2 : ℤ) ^ 32 ≠ 0 by decide)
  have h1 := Int.emod_lt_of_pos x (show (0 : ℤ) < 2 ^ 32 by decide)
  have h2 : (x % 2 ^ 32).toNat % 2 ^ 32 = (x % 2 ^ 32).toNat := Nat.mod_eq_of_lt (by omega)
  rw [toU32, UInt32.toNat_ofNat', h2, Int.toNat_of_nonneg h0]

@[simp] theorem toU32_natCast_toNat (x : UInt32) : toU32 (x.toNat : ℤ) = x := by
  apply UInt32.toNat_inj.mp
  have h := toNat_toU32 (x.toNat : ℤ)
  have hlt := x.toNat_lt
  rw [Int.emod_eq_of_lt (by omega) (by omega)] at h
  exact_mod_cast h

/-- A non-negative time survives the split into two words and the shift and
addition that join them again. -/
theorem join_split {x : ℤ} (h0 : 0 ≤ x) (h : x < 2 ^ 64) :
    ((toU32 (x / 2 ^ 32)).toNat : ℤ) * 2 ^ 32 + (toU32 x).toNat = x := by
  rw [toNat_toU32, toNat_toU32]
  omega

/-- A word as it lies in memory, lowest byte first. -/
def le32 (x : UInt32) : Bytes :=
  [UInt8.ofNat x.toNat, UInt8.ofNat (x.toNat / 2 ^ 8), UInt8.ofNat (x.toNat / 2 ^ 16),
    UInt8.ofNat (x.toNat / 2 ^ 24)]

def word (b : Bytes) (i : ℕ) : UInt32 :=
  UInt32.ofNat ((b.getD (4 * i) 0).toNat + (b.getD (4 * i + 1) 0).toNat * 2 ^ 8 +
    (b.getD (4 * i + 2) 0).toNat * 2 ^ 16 + (b.getD (4 * i + 3) 0).toNat * 2 ^ 24)

theorem word_le32 (x : UInt32) (b : Bytes) : word (le32 x ++ b) 0 = x := by
  apply UInt32.toNat_inj.mp
  have h := x.toNat_lt
  simp only [word, le32, List.cons_append, List.nil_append, Nat.mul_zero, Nat.zero_add,
    List.getD_cons_zero, List.getD_cons_succ, UInt8.toNat_ofNat', UInt32.toNat_ofNat']
  omega

theorem word_le32_append (x : UInt32) (b : Bytes) (i : ℕ) :
    word (le32 x ++ b) (i + 1) = word b i := by
  simp only [word, le32, List.cons_append, List.nil_append, Nat.mul_add, Nat.mul_one,
    List.getD_cons_succ, Nat.add_right_comm _ 4]

def encodeWords (ws : List UInt32) : Bytes := ws.flatMap le32

@[simp] theorem encodeWords_length (ws : List UInt32) :
    (encodeWords ws).length = 4 * ws.length := by
  induction ws with
  | nil => rfl
  | cons x ws ih =>
    simp only [encodeWords, List.flatMap_cons, List.length_append, List.length_cons] at ih ⊢
    rw [ih]
    simp only [le32, List.length_cons, List.length_nil]
    omega

theorem word_encodeWords (ws : List UInt32) (tail : Bytes) {i : ℕ} (h : i < ws.length) :
    word (encodeWords ws ++ tail) i = ws[i] := by
  induction ws generalizing i with
  | nil => exact absurd h (Nat.not_lt_zero i)
  | cons x ws ih =>
    simp only [encodeWords, List.flatMap_cons, List.append_assoc] at ih ⊢
    cases i with
    | zero => exact word_le32 x _
    | succ i =>
      rw [word_le32_append]
      exact ih (Nat.lt_of_succ_lt_succ h)

def SECTOR_SIZE : ℕ := 512
def MAX_EMULATOR_CHANNELS : ℕ := 32

inductive NctussEmuRequestType
  | reset
  | submitReqeust
  | getNextResponses
  | readWriteData
  deriving DecidableEq, Repr

namespace NctussEmuRequestType

def code : NctussEmuRequestType → UInt32
  | .reset => 1
  | .submitReqeust => 2
  | .getNextResponses => 3
  | .readWriteData => 4

def ofCode (x : UInt32) : Option NctussEmuRequestType :=
  if x = 1 then some .reset
  else if x = 2 then some .submitReqeust
  else if x = 3 then some .getNextResponses
  else if x = 4 then some .readWriteData
  else none

@[simp] theorem ofCode_code (t : NctussEmuRequestType) : ofCode t.code = some t := by
  cases t <;> rfl

theorem code_of_ofCode {x : UInt32} {t : NctussEmuRequestType} (h : ofCode x = some t) :
    x = t.code := by
  unfold ofCode at h
  split at h
  · cases h; assumption
  split at h
  · cases h; assumption
  split at h
  · cases h; assumption
  split at h
  · cases h; assumption
  · cases h

end NctussEmuRequestType

inductive NctussEmuReplyType
  | ok
  | error
  deriving DecidableEq, Repr

def NctussEmuReplyType.code : NctussEmuReplyType → UInt32
  | .ok => 1
  | .error => 2

/-- `struct nctuss_emu_request`, declared alike by the driver and the server. -/
structure NctussEmuRequest where
  id : UInt32
  type : UInt32
  data1 : UInt32 := 0
  data2 : UInt32 := 0
  data3 : UInt32 := 0
  data4 : UInt32 := 0
  data5 : UInt32 := 0
  data6 : UInt32 := 0
  idCheck : UInt32 := 0
  deriving DecidableEq, Repr

namespace NctussEmuRequest

def size : ℕ := 36

def words (r : NctussEmuRequest) : List UInt32 :=
  [r.id, r.type, r.data1, r.data2, r.data3, r.data4, r.data5, r.data6, r.idCheck]

def encode (r : NctussEmuRequest) : Bytes := encodeWords r.words

def decode (b : Bytes) : NctussEmuRequest where
  id := word b 0
  type := word b 1
  data1 := word b 2
  data2 := word b 3
  data3 := word b 4
  data4 := word b 5
  data5 := word b 6
  data6 := word b 7
  idCheck := word b 8

@[simp] theorem encode_length (r : NctussEmuRequest) : r.encode.length = size := by
  simp [encode, words, size]

@[simp] theorem decode_encode (r : NctussEmuRequest) (tail : Bytes) :
    decode (r.encode ++ tail) = r := by
  have h {i : ℕ} (hi : i < r.words.length) := word_encodeWords r.words tail hi
  simp only [decode, encode]
  rw [h (i := 0) (by simp [words]), h (i := 1) (by simp [words]), h (i := 2) (by simp [words]),
    h (i := 3) (by simp [words]), h (i := 4) (by simp [words]), h (i := 5) (by simp [words]),
    h (i := 6) (by simp [words]), h (i := 7) (by simp [words]), h (i := 8) (by simp [words])]
  rfl

end NctussEmuRequest

/-- `struct nctuss_emu_reply`, declared alike by the driver and the server. -/
structure NctussEmuReply where
  id : UInt32
  type : UInt32
  data1 : UInt32
  data2 : UInt32
  data3 : UInt32
  data4 : UInt32
  ioRequestIds : ℕ → UInt32
  idCheck : UInt32

namespace NctussEmuReply

def size : ℕ := 156

def words (r : NctussEmuReply) : List UInt32 :=
  [r.id, r.type, r.data1, r.data2, r.data3, r.data4] ++
    (List.range MAX_EMULATOR_CHANNELS).map r.ioRequestIds ++ [r.idCheck]

def encode (r : NctussEmuReply) : Bytes := encodeWords r.words

def decode (b : Bytes) : NctussEmuReply where
  id := word b 0
  type := word b 1
  data1 := word b 2
  data2 := word b 3
  data3 := word b 4
  data4 := word b 5
  ioRequestIds i := word b (6 + i)
  idCheck := word b 38

theorem words_length (r : NctussEmuReply) : r.words.length = 39 := by
  simp [words, MAX_EMULATOR_CHANNELS]

@[simp] theorem encode_length (r : NctussEmuReply) : r.encode.length = size := by
  rw [encode, encodeWords_length, words_length]
  rfl

theorem word_encode (r : NctussEmuReply) (tail : Bytes) {i : ℕ} {x : UInt32}
    (h : r.words[i]? = some x) : word (r.encode ++ tail) i = x := by
  obtain ⟨hi, hx⟩ := List.getElem?_eq_some_iff.mp h
  rw [encode, word_encodeWords r.words tail hi, hx]

variable (r : NctussEmuReply) (tail : Bytes)

@[simp] theorem decode_encode_id : (decode (r.encode ++ tail)).id = r.id :=
  word_encode r tail rfl

@[simp] theorem decode_encode_type : (decode (r.encode ++ tail)).type = r.type :=
  word_encode r tail rfl

@[simp] theorem decode_encode_data1 : (decode (r.encode ++ tail)).data1 = r.data1 :=
  word_encode r tail rfl

@[simp] theorem decode_encode_data2 : (decode (r.encode ++ tail)).data2 = r.data2 :=
  word_encode r tail rfl

@[simp] theorem decode_encode_data3 : (decode (r.encode ++ tail)).data3 = r.data3 :=
  word_encode r tail rfl

@[simp] theorem decode_encode_idCheck : (decode (r.encode ++ tail)).idCheck = r.idCheck := by
  apply word_encode
  simp [words, MAX_EMULATOR_CHANNELS]

theorem decode_encode_ioRequestIds {i : ℕ} (h : i < MAX_EMULATOR_CHANNELS) :
    (decode (r.encode ++ tail)).ioRequestIds i = r.ioRequestIds i := by
  apply word_encode
  have hi : 6 + i < 6 + MAX_EMULATOR_CHANNELS := by omega
  rw [words, List.getElem?_append_left (by simp; omega), List.getElem?_append_right (by simp)]
  simp [h]

end NctussEmuReply

end Nctusde.Wire
