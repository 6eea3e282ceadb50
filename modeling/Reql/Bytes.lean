/-! Byte strings: little-endian numbers and UTF-8 text. -/
namespace Reql

/-- A byte string. -/
abbrev Bytes := List UInt8

namespace Bytes

/-- A number in the given count of bytes, the lowest first. -/
def ofNatLE : Nat → Nat → Bytes
  | 0, _ => []
  | width + 1, n => UInt8.ofNat n :: ofNatLE width (n / 256)

/-- The number whose little-endian form this is. -/
def toNatLE : Bytes → Nat
  | [] => 0
  | b :: rest => b.toNat + 256 * toNatLE rest

/-- The UTF-8 form of a text. -/
def ofString (s : String) : Bytes :=
  s.toByteArray.data.toList

/-- The text whose UTF-8 form this is, if it is one. -/
def toString? (bs : Bytes) : Option String :=
  String.fromUTF8? ⟨bs.toArray⟩

@[simp] theorem length_ofNatLE (width n : Nat) : (ofNatLE width n).length = width := by
  induction width generalizing n with
  | zero => rfl
  | succ w ih => simp [ofNatLE, ih]

theorem shiftLeft_succ (width : Nat) : 1 <<< (8 * (width + 1)) = 256 * 1 <<< (8 * width) := by
  rw [Nat.mul_add, Nat.shiftLeft_add, Nat.shiftLeft_eq _ (8 * 1), Nat.mul_comm]

theorem toNatLE_ofNatLE {width n : Nat} (h : n < 1 <<< (8 * width)) :
    toNatLE (ofNatLE width n) = n := by
  induction width generalizing n with
  | zero => simp_all [ofNatLE, toNatLE]
  | succ w ih =>
    have hw : n / 256 < 1 <<< (8 * w) := by
      rw [shiftLeft_succ] at h
      exact Nat.div_lt_of_lt_mul h
    have hb : (UInt8.ofNat n).toNat = n % 256 := rfl
    simp only [ofNatLE, toNatLE, ih hw, hb]
    omega

theorem toNatLE_lt (bs : Bytes) : toNatLE bs < 1 <<< (8 * bs.length) := by
  induction bs with
  | nil => simp [toNatLE]
  | cons b rest ih =>
    have hb := b.toNat_lt
    rw [toNatLE, List.length_cons, shiftLeft_succ]
    omega

theorem ofNatLE_toNatLE (bs : Bytes) : ofNatLE bs.length (toNatLE bs) = bs := by
  induction bs with
  | nil => rfl
  | cons b rest ih =>
    have hb := b.toNat_lt
    have hd : (b.toNat + 256 * toNatLE rest) / 256 = toNatLE rest := by omega
    have hm : UInt8.ofNat (b.toNat + 256 * toNatLE rest) = b := by
      apply UInt8.toNat_inj.mp
      simp only [UInt8.toNat_ofNat']
      omega
    simp only [List.length_cons, toNatLE, ofNatLE, hd, hm, ih]

@[simp] theorem toString?_ofString (s : String) : toString? (ofString s) = some s := by
  have h : (⟨(ofString s).toArray⟩ : ByteArray) = s.toByteArray := by simp [ofString]
  simp [toString?, h, String.fromUTF8?, String.isValidUTF8, String.fromUTF8]

theorem ofString_of_toString? {bs : Bytes} {s : String} (h : toString? bs = some s) :
    ofString s = bs := by
  unfold toString? String.fromUTF8? at h
  split at h
  · injection h with h
    simp [ofString, ← h, String.fromUTF8]
  · simp at h

theorem ofString_injective {s t : String} (h : ofString s = ofString t) : s = t :=
  Option.some.inj (by rw [← toString?_ofString s, h, toString?_ofString])

@[simp] theorem ofString_append (s t : String) :
    ofString (s ++ t) = ofString s ++ ofString t := by
  simp [ofString, String.toByteArray_append]

end Bytes
end Reql
