import Mathlib.Logic.Function.Basic
import Reql.Proofs.Frame.Exactness

/-! Headers and strings of twelve bytes determine each other, whichever way a header is written, and
a frame is made of the parts that are read back from it. -/
namespace Reql

/-- Each place of a little-endian number holds the bits that a shift brings down to it. -/
theorem Bytes.getElem_ofNatLE {width n i : Nat} (h : i < (ofNatLE width n).length) :
    (ofNatLE width n)[i] = UInt8.ofNat (n >>> (8 * i)) := by
  induction width generalizing n i with
  | zero => cases h
  | succ width ih =>
    cases i with
    | zero => rfl
    | succ i =>
      have hshift : n >>> (8 * (i + 1)) = (n / 256) >>> (8 * i) := by
        rw [Nat.mul_succ, Nat.add_comm, Nat.shiftRight_add, Nat.shiftRight_eq_div_pow n 8]
      rw [hshift]
      exact ih (by simpa using h)

namespace FrameHeader

theorem toUInt8_shiftRight_token (t : UInt64) {i : Nat} (h : i < 8) :
    (t >>> (8 * UInt64.ofNat i)).toUInt8 = UInt8.ofNat (t.toNat >>> (8 * i)) := by
  have hbits : (8 * UInt64.ofNat i).toNat % 64 = 8 * i := by
    rw [UInt64.toNat_mul, UInt64.toNat_ofNat']
    change 8 * (i % 2 ^ 64) % 2 ^ 64 % 64 = 8 * i
    omega
  apply UInt8.toNat_inj.mp
  rw [UInt64.toNat_toUInt8, UInt64.toNat_shiftRight, hbits, UInt8.toNat_ofNat']

theorem toUInt8_shiftRight_length (n : UInt32) {i : Nat} (h : i < 4) :
    (n >>> (8 * UInt32.ofNat i)).toUInt8 = UInt8.ofNat (n.toNat >>> (8 * i)) := by
  have hbits : (8 * UInt32.ofNat i).toNat % 32 = 8 * i := by
    rw [UInt32.toNat_mul, UInt32.toNat_ofNat']
    change 8 * (i % 2 ^ 32) % 2 ^ 32 % 32 = 8 * i
    omega
  apply UInt8.toNat_inj.mp
  rw [UInt32.toNat_toUInt8, UInt32.toNat_shiftRight, hbits, UInt8.toNat_ofNat']

/-- Written place by place or number by number, a header comes to the same bytes. -/
theorem toList_toBytes (h : FrameHeader) : h.toBytes.toList = h.encode [] := by
  rw [toBytes, Vector.toList_ofFn, encode, List.nil_append]
  refine List.ext_getElem (by simp) fun i hi _ => ?_
  rw [List.getElem_ofFn]
  by_cases htoken : i < 8
  · rw [if_pos htoken, List.getElem_append_left (by simpa using htoken), Bytes.getElem_ofNatLE]
    exact toUInt8_shiftRight_token h.token htoken
  · have hlength : i - 8 < 4 := by
      rw [List.length_ofFn] at hi
      omega
    rw [if_neg htoken, List.getElem_append_right (by simpa using htoken), Bytes.getElem_ofNatLE,
      Bytes.length_ofNatLE]
    exact toUInt8_shiftRight_length h.length hlength

/-- A header is appended as its twelve bytes, whatever stands before it. -/
theorem encode_eq_append (h : FrameHeader) (buffer : Bytes) :
    h.encode buffer = buffer ++ h.toBytes.toList := by
  rw [toList_toBytes, encode, encode, List.nil_append, List.append_assoc]

variable {bytes : Bytes} {h : FrameHeader}

theorem decode_eq_ok_iff_toBytes : decode bytes = .ok h ↔ h.toBytes.toList = bytes := by
  rw [decode_eq_ok_iff, toList_toBytes, eq_comm]

theorem exists_decode_iff : (∃ h, decode bytes = .ok h) ↔ bytes.length = size := by
  constructor
  · rintro ⟨h, hdecode⟩
    rw [decode_eq_ok_iff.mp hdecode, length_encode, List.length_nil, Nat.zero_add]
  · intro hlen
    rw [decode, if_pos hlen]
    exact ⟨_, rfl⟩

theorem decode_eq_error_iff {e : ProtocolError} :
    decode bytes = .error e ↔ bytes.length ≠ size ∧ e = .malformedFrame size bytes.length := by
  by_cases hlen : bytes.length = size
  · obtain ⟨h, hdecode⟩ := exists_decode_iff.mpr hlen
    simp [hdecode, hlen]
  · rw [decode, if_neg hlen, Except.error.injEq, eq_comm, and_iff_right hlen]

/-- A header and the bytes behind it are found again in what they make together. -/
theorem decode_take_iff {rest : Bytes} :
    (decode (bytes.take size) = .ok h ∧ bytes.drop size = rest) ↔ bytes = h.encode [] ++ rest := by
  constructor
  · rintro ⟨hdecode, rfl⟩
    rw [← decode_eq_ok_iff.mp hdecode, List.take_append_drop]
  · rintro rfl
    have hlen : (h.encode []).length = size := by simp
    rw [List.take_left' hlen, List.drop_left' hlen]
    exact ⟨decode_eq_ok_iff.mpr rfl, rfl⟩

/-- Each string of twelve bytes is that of one header. -/
theorem toBytes_bijective : Function.Bijective toBytes := by
  constructor
  · intro h h' heq
    have hdecode := decode_eq_ok_iff_toBytes.mpr (congrArg Vector.toList heq)
    exact Except.ok.inj (hdecode.symm.trans (decode_eq_ok_iff_toBytes.mpr rfl))
  · intro v
    obtain ⟨h, hdecode⟩ := exists_decode_iff.mpr v.length_toList
    exact ⟨h, Vector.toList_inj.mp (decode_eq_ok_iff_toBytes.mp hdecode)⟩

end FrameHeader

section EncodeFrame

variable {token : Token} {payload frame : Bytes}

theorem exists_encodeFrame_iff :
    (∃ frame, encodeFrame token payload = .ok frame) ↔ payload.length < UInt32.size := by
  constructor
  · rintro ⟨frame, hframe⟩
    by_contra hlong
    rw [encodeFrame, FrameHeader.ofPayload, if_neg hlong] at hframe
    cases hframe
  · intro hlen
    exact ⟨_, Frame.encodeFrame_eq (f := ⟨token, payload⟩) hlen⟩

/-- A frame is just what gives back, when it is read, a header with the token and the length of the
payload, and the payload behind it. -/
theorem encodeFrame_eq_ok_iff : encodeFrame token payload = .ok frame ↔
    ∃ h, FrameHeader.decode (frame.take FrameHeader.size) = .ok h ∧ h.token = token ∧
      h.length.toNat = payload.length ∧ frame.drop FrameHeader.size = payload := by
  constructor
  · intro hframe
    have hlen := exists_encodeFrame_iff.mp ⟨frame, hframe⟩
    rw [Frame.encodeFrame_eq (f := ⟨token, payload⟩) hlen] at hframe
    obtain ⟨hdecode, hdrop⟩ := FrameHeader.decode_take_iff.mpr (Except.ok.inj hframe).symm
    exact ⟨_, hdecode, rfl, UInt32.toNat_ofNat_of_lt' hlen, hdrop⟩
  · rintro ⟨h, hdecode, rfl, hlength, hdrop⟩
    have hlen : payload.length < UInt32.size := hlength ▸ h.length.toNat_lt
    rw [Frame.encodeFrame_eq (f := ⟨h.token, payload⟩) hlen, Frame.bytes, ← hlength,
      UInt32.ofNat_toNat, FrameHeader.decode_take_iff.mp ⟨hdecode, hdrop⟩]

end EncodeFrame

/-- Headers and strings of twelve bytes are one to one. Both ways to write a header come to its
string, reading leads back and refuses all other strings, and the header of a frame, as it is read
from the first twelve bytes, has the token and the exact length of the payload behind it. -/
theorem FrameHeader.header_bijection :
    Function.Bijective toBytes ∧
      (∀ (h : FrameHeader) (buffer : Bytes),
        h.encode buffer = buffer ++ h.toBytes.toList ∧ decode h.toBytes.toList = .ok h) ∧
      (∀ bytes : Bytes,
        ((∃ h, decode bytes = .ok h) ↔ bytes.length = 12) ∧
          (∀ h, decode bytes = .ok h ↔ h.toBytes.toList = bytes) ∧
          ∀ e, decode bytes = .error e ↔ bytes.length ≠ 12 ∧ e = .malformedFrame 12 bytes.length) ∧
      ∀ (token : Token) (payload : Bytes),
        ((∃ frame, encodeFrame token payload = .ok frame) ↔ payload.length < UInt32.size) ∧
          ∀ frame, encodeFrame token payload = .ok frame ↔
            ∃ h, decode (frame.take 12) = .ok h ∧ h.token = token ∧
              h.length.toNat = payload.length ∧ frame.drop 12 = payload := by
  refine ⟨toBytes_bijective, fun h buffer => ?_, fun bytes => ?_, fun token payload => ?_⟩
  · exact ⟨h.encode_eq_append buffer, decode_eq_ok_iff_toBytes.mpr rfl⟩
  · exact ⟨exists_decode_iff, fun h => decode_eq_ok_iff_toBytes, fun e => decode_eq_error_iff⟩
  · exact ⟨exists_encodeFrame_iff, fun frame => encodeFrame_eq_ok_iff⟩

example : (FrameHeader.mk 1 2).toBytes.toList = [1, 0, 0, 0, 0, 0, 0, 0, 2, 0, 0, 0] := by decide

end Reql
