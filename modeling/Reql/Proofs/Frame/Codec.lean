import Reql.Frame.Codec

/-! What a decoder finds at the head of a buffer, in terms of the bytes that frames are written
as. -/
namespace Reql

namespace FrameHeader

/-- The payload length that a buffer of at least twelve bytes announces. -/
def announced (buffer : Bytes) : Nat :=
  Bytes.toNatLE ((buffer.drop 8).take 4)

@[simp] theorem length_encode (h : FrameHeader) (buffer : Bytes) :
    (h.encode buffer).length = buffer.length + size := by
  simp [encode, size]

theorem announced_encode (h : FrameHeader) (rest : Bytes) :
    announced (h.encode [] ++ rest) = h.length.toNat := by
  have hlt : h.length.toNat < 1 <<< (8 * 4) := h.length.toNat_lt
  have hdrop : (h.encode [] ++ rest).drop 8 = Bytes.ofNatLE 4 h.length.toNat ++ rest := by
    simp [encode]
  have htake : (Bytes.ofNatLE 4 h.length.toNat ++ rest).take 4 =
      Bytes.ofNatLE 4 h.length.toNat := by simp
  rw [announced, hdrop, htake, Bytes.toNatLE_ofNatLE hlt]

theorem announced_append {buffer : Bytes} (h : size ≤ buffer.length) (more : Bytes) :
    announced (buffer ++ more) = announced buffer := by
  have hlen : 4 ≤ (buffer.drop 8).length := by
    simp only [List.length_drop, size] at h ⊢
    omega
  have hle : 8 ≤ buffer.length := by
    simp only [size] at h
    omega
  rw [announced, List.drop_append_of_le_length hle, List.take_append_of_le_length hlen, announced]

/-- Headers and strings of twelve bytes determine each other. -/
theorem decode_eq_ok_iff {bytes : Bytes} {h : FrameHeader} :
    decode bytes = .ok h ↔ bytes = h.encode [] := by
  constructor
  · intro hd
    unfold decode at hd
    split at hd
    · next hlen =>
      have h8 : (bytes.take 8).length = 8 := by simp [hlen, size]
      have h4 : (bytes.drop 8).length = 4 := by simp [hlen, size]
      have ht := Bytes.toNatLE_lt (bytes.take 8)
      have hl := Bytes.toNatLE_lt (bytes.drop 8)
      have htoken := Bytes.ofNatLE_toNatLE (bytes.take 8)
      have hlength := Bytes.ofNatLE_toNatLE (bytes.drop 8)
      injection hd with hd
      rw [h8] at ht htoken
      rw [h4] at hl hlength
      rw [← hd, encode, UInt64.toNat_ofNat_of_lt' ht, UInt32.toNat_ofNat_of_lt' hl, htoken,
        hlength, List.nil_append, List.take_append_drop]
    · cases hd
  · rintro rfl
    have hlen : (h.encode []).length = size := by simp
    have ht : h.token.toNat < 1 <<< (8 * 8) := h.token.toNat_lt
    have hl : h.length.toNat < 1 <<< (8 * 4) := h.length.toNat_lt
    have htake : (h.encode []).take 8 = Bytes.ofNatLE 8 h.token.toNat := by
      simp [encode]
    have hdrop : (h.encode []).drop 8 = Bytes.ofNatLE 4 h.length.toNat := by
      simp [encode]
    rw [decode, if_pos hlen, htake, hdrop, Bytes.toNatLE_ofNatLE ht, Bytes.toNatLE_ofNatLE hl,
      UInt64.ofNat_toNat, UInt32.ofNat_toNat]

theorem decode_take {buffer : Bytes} (h : size ≤ buffer.length) :
    ∃ head, decode (buffer.take size) = .ok head ∧ head.length.toNat = announced buffer ∧
      buffer = head.encode [] ++ buffer.drop size := by
  have hlen : (buffer.take size).length = size := by simp [h]
  have hok : ∃ head, decode (buffer.take size) = .ok head := by
    simp [decode, hlen]
  obtain ⟨head, hd⟩ := hok
  have hb : buffer = head.encode [] ++ buffer.drop size := by
    rw [← decode_eq_ok_iff.mp hd, List.take_append_drop]
  refine ⟨head, hd, ?_, hb⟩
  rw [hb, announced_encode]

end FrameHeader

namespace Frame

/-- A frame as it stands in a stream. The length field of a payload that it cannot count is
wrapped; no limit admits such a payload. -/
def bytes (f : Frame) : Bytes :=
  (FrameHeader.mk f.token (UInt32.ofNat f.payload.length)).encode [] ++ f.payload

@[simp] theorem length_bytes (f : Frame) : f.bytes.length = f.totalSize := by
  simp [bytes, totalSize]

theorem totalSize_pos (f : Frame) : 0 < f.totalSize := by
  rw [totalSize, FrameHeader.size]
  omega

/-- A header is complete and announces more than the limit. -/
def Oversize (limit : FrameLimit) (buffer : Bytes) : Prop :=
  FrameHeader.size ≤ buffer.length ∧ limit.bytes < FrameHeader.announced buffer

instance (limit : FrameLimit) (buffer : Bytes) : Decidable (Oversize limit buffer) :=
  inferInstanceAs (Decidable (_ ∧ _))

/-- A complete frame within the limit stands at the head of the buffer. -/
def Leads (limit : FrameLimit) (buffer : Bytes) (f : Frame) (rest : Bytes) : Prop :=
  buffer = f.bytes ++ rest ∧ f.payload.length ≤ limit.bytes

theorem announced_bytes {limit : FrameLimit} {f : Frame} (h : f.payload.length ≤ limit.bytes)
    (rest : Bytes) : FrameHeader.announced (f.bytes ++ rest) = f.payload.length := by
  have hlt : f.payload.length < UInt32.size := Nat.lt_of_le_of_lt h limit.fits
  rw [bytes, List.append_assoc, FrameHeader.announced_encode, UInt32.toNat_ofNat_of_lt' hlt]

theorem Leads.size_le {limit : FrameLimit} {buffer rest : Bytes} {f : Frame}
    (h : Leads limit buffer f rest) : FrameHeader.size ≤ buffer.length := by
  have hlen := congrArg List.length h.1
  rw [List.length_append, length_bytes, totalSize] at hlen
  omega

theorem Leads.not_oversize {limit : FrameLimit} {buffer rest : Bytes} {f : Frame}
    (h : Leads limit buffer f rest) : ¬ Oversize limit buffer := by
  obtain ⟨rfl, hle⟩ := h
  intro ho
  have hlt := ho.2
  rw [announced_bytes hle] at hlt
  omega

theorem Leads.append {limit : FrameLimit} {buffer rest : Bytes} {f : Frame}
    (h : Leads limit buffer f rest) (more : Bytes) :
    Leads limit (buffer ++ more) f (rest ++ more) :=
  ⟨by rw [h.1, List.append_assoc], h.2⟩

theorem Oversize.append {limit : FrameLimit} {buffer : Bytes} (h : Oversize limit buffer)
    (more : Bytes) : Oversize limit (buffer ++ more) := by
  refine ⟨?_, ?_⟩
  · have := h.1
    rw [List.length_append]
    omega
  · rw [FrameHeader.announced_append h.1]
    exact h.2

theorem Oversize.of_append {limit : FrameLimit} {buffer more : Bytes}
    (h : Oversize limit (buffer ++ more)) (hlen : FrameHeader.size ≤ buffer.length) :
    Oversize limit buffer := by
  refine ⟨hlen, ?_⟩
  rw [← FrameHeader.announced_append hlen more]
  exact h.2

theorem not_oversize_nil (limit : FrameLimit) : ¬ Oversize limit [] :=
  fun h => absurd h.1 (by decide)

/-- A frame that leads only once more bytes have come ends among them. -/
theorem Leads.lt_totalSize {limit : FrameLimit} {buffer more tail : Bytes} {f : Frame}
    (h : Leads limit (buffer ++ more) f tail) (hno : ∀ f rest, ¬ Leads limit buffer f rest) :
    buffer.length < f.totalSize := by
  refine Nat.lt_of_not_le fun hle => ?_
  rw [← length_bytes] at hle
  obtain ⟨tail', htail⟩ : f.bytes <+: buffer :=
    List.prefix_of_prefix_length_le ⟨tail, h.1.symm⟩ (List.prefix_append ..) hle
  exact hno f tail' ⟨htail.symm, h.2⟩

/-- A decoder refuses an oversize header, takes the frame that leads, and else waits. -/
theorem decode_cases (limit : FrameLimit) (buffer : Bytes) :
    (Oversize limit buffer ∧ decode limit buffer =
        .error (.frameTooLarge (FrameHeader.announced buffer) limit.bytes)) ∨
    (∃ f rest, Leads limit buffer f rest ∧ decode limit buffer = .ok (some (f, rest))) ∨
    (¬ Oversize limit buffer ∧ (∀ f rest, ¬ Leads limit buffer f rest) ∧
      decode limit buffer = .ok none) := by
  by_cases hshort : buffer.length < FrameHeader.size
  · refine .inr (.inr ⟨fun h => ?_, ?_, by rw [decode, if_pos hshort]⟩)
    · exact absurd h.1 (by omega)
    · intro f rest hl
      exact absurd hl.size_le (by omega)
  obtain ⟨head, hd, hlen, hb⟩ := FrameHeader.decode_take (Nat.le_of_not_lt hshort)
  by_cases hbig : limit.bytes < FrameHeader.announced buffer
  · refine .inl ⟨⟨Nat.le_of_not_lt hshort, hbig⟩, ?_⟩
    rw [decode, if_neg hshort, hd]
    simp only [hlen, if_pos hbig]
  by_cases hpart : (buffer.drop FrameHeader.size).length < head.length.toNat
  · refine .inr (.inr ⟨fun h => hbig h.2, ?_, ?_⟩)
    · rintro f rest ⟨rfl, hle⟩
      rw [announced_bytes hle] at hlen
      simp only [List.length_drop, List.length_append, length_bytes, totalSize] at hpart
      omega
    · rw [decode, if_neg hshort, hd]
      simp only [hlen] at hpart ⊢
      rw [if_neg hbig, if_pos hpart]
  · refine .inr (.inl ⟨⟨head.token, (buffer.drop FrameHeader.size).take head.length.toNat⟩,
      (buffer.drop FrameHeader.size).drop head.length.toNat, ⟨?_, ?_⟩, ?_⟩)
    · have hpay : ((buffer.drop FrameHeader.size).take head.length.toNat).length =
          head.length.toNat := List.length_take_of_le (Nat.le_of_not_lt hpart)
      rw [bytes, hpay, UInt32.ofNat_toNat, List.append_assoc, List.take_append_drop]
      exact hb
    · have hcut : ((buffer.drop FrameHeader.size).take head.length.toNat).length ≤
          head.length.toNat := List.length_take_le ..
      have hlim : head.length.toNat ≤ limit.bytes := by
        rw [hlen]
        exact Nat.le_of_not_lt hbig
      exact Nat.le_trans hcut hlim
    · rw [decode, if_neg hshort, hd]
      simp only [hlen] at hpart ⊢
      rw [if_neg hbig, if_neg hpart]

theorem decode_of_leads {limit : FrameLimit} {buffer rest : Bytes} {f : Frame}
    (h : Leads limit buffer f rest) : decode limit buffer = .ok (some (f, rest)) := by
  rcases decode_cases limit buffer with ⟨ho, -⟩ | ⟨g, rest', hg, hd⟩ | ⟨-, hno, -⟩
  · exact absurd ho h.not_oversize
  · obtain ⟨rfl, hle⟩ := h
    obtain ⟨heq, hle'⟩ := hg
    have hpay : f.payload.length = g.payload.length := by
      rw [← announced_bytes hle rest, heq, announced_bytes hle' rest']
    have hbytes : f.bytes = g.bytes ∧ rest = rest' :=
      List.append_inj heq (by simp [totalSize, hpay])
    have hparts := List.append_inj hbytes.1 (by simp)
    have hhead := FrameHeader.decode_eq_ok_iff.mpr hparts.1
    rw [FrameHeader.decode_eq_ok_iff.mpr rfl] at hhead
    have htoken : f.token = g.token := by
      injection hhead with hhead
      injection hhead
    have hfg : g = f := by
      cases f
      cases g
      simp_all
    rw [hd, hfg, hbytes.2]
  · exact absurd h (hno f rest)

theorem Leads.unique {limit : FrameLimit} {buffer rest rest' : Bytes} {f g : Frame}
    (hf : Leads limit buffer f rest) (hg : Leads limit buffer g rest') : f = g ∧ rest = rest' := by
  have h := (decode_of_leads hf).symm.trans (decode_of_leads hg)
  injection h with h
  injection h with h
  injection h with hfg hrest
  exact ⟨hfg, hrest⟩

/-- A frame within the limit is encoded: the limit fits the length field. -/
theorem encode_of_le {f : Frame} {limit : FrameLimit} (h : f.payload.length ≤ limit.bytes)
    (buffer : Bytes) : f.encode limit buffer = .ok (buffer ++ f.bytes) := by
  have hlt : f.payload.length < UInt32.size := Nat.lt_of_le_of_lt h limit.fits
  rw [encode, if_neg (Nat.not_lt.mpr h), FrameHeader.ofPayload, if_pos hlt]
  simp [bytes, FrameHeader.encode]

/-- What is encoded behind a buffer is the frame as it stands in a stream. -/
theorem encode_eq_append {f : Frame} {limit : FrameLimit} {buffer bytes : Bytes}
    (h : f.encode limit buffer = .ok bytes) : bytes = buffer ++ f.bytes := by
  by_cases hf : f.payload.length ≤ limit.bytes
  · rw [encode_of_le hf] at h
    exact (Except.ok.inj h).symm
  · rw [encode, if_pos (Nat.lt_of_not_le hf)] at h
    cases h

theorem bytes_ne_nil (f : Frame) : f.bytes ≠ [] := by
  intro h
  have hlen := congrArg List.length h
  rw [length_bytes] at hlen
  exact Nat.ne_of_gt f.totalSize_pos hlen

end Frame
end Reql
