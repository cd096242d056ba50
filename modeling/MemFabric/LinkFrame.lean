/-
Frames on a TCP link: `AccMsgHeader` and the body behind it.

A message travels as its header, the sixteen bytes of the struct in memory, and
then its body, whose length the header states.  `AccMsgHeader.ofBytes_bytes` says
that the receiver, which overlays the struct on the bytes it got, reads the
header that was sent.
-/
import MemFabric.Bytes

namespace AccLinks

open List

structure AccMsgHeader where
  type : Int16
  result : Int16
  bodyLen : UInt32
  seqNo : UInt32
  crc : UInt32
  deriving DecidableEq

/-- `sizeof(AccMsgHeader)`. -/
def headerLen : ℕ := 16

namespace AccMsgHeader

/-- The header in memory; the fields are aligned, so there is no padding. -/
def bytes (h : AccMsgHeader) : Bytes :=
  Bytes.le 2 h.type.toUInt16.toNat ++ Bytes.le 2 h.result.toUInt16.toNat ++
    Bytes.le 4 h.bodyLen.toNat ++ Bytes.le 4 h.seqNo.toNat ++ Bytes.le 4 h.crc.toNat

/-- The number in the `w` bytes at `offset`. -/
def field (memory : Bytes) (offset w : ℕ) : ℕ := Bytes.leValue ((memory.drop offset).take w)

def ofBytes (memory : Bytes) : AccMsgHeader where
  type := (UInt16.ofNat (field memory 0 2)).toInt16
  result := (UInt16.ofNat (field memory 2 2)).toInt16
  bodyLen := UInt32.ofNat (field memory 4 4)
  seqNo := UInt32.ofNat (field memory 8 4)
  crc := UInt32.ofNat (field memory 12 4)

theorem bytes_length (h : AccMsgHeader) : h.bytes.length = headerLen := by
  simp only [bytes, length_append, Bytes.le_length, headerLen]

theorem field_append {memory a b : Bytes} {offset w n : ℕ} (h : memory = a ++ (Bytes.le w n ++ b))
    (ha : a.length = offset) (hn : n < 256 ^ w) : field memory offset w = n := by
  rw [field, h, drop_left' ha, take_left' (Bytes.le_length w n), Bytes.leValue_le_of_lt hn]

theorem ofBytes_bytes (h : AccMsgHeader) : ofBytes h.bytes = h := by
  obtain ⟨type, result, bodyLen, seqNo, crc⟩ := h
  have htype : field (bytes ⟨type, result, bodyLen, seqNo, crc⟩) 0 2 = type.toUInt16.toNat :=
    field_append (a := []) (by simp only [bytes, append_assoc, nil_append]; rfl) rfl
      (UInt16.toNat_lt _)
  have hres : field (bytes ⟨type, result, bodyLen, seqNo, crc⟩) 2 2 = result.toUInt16.toNat :=
    field_append (by simp only [bytes, append_assoc]; rfl) (Bytes.le_length 2 _) (UInt16.toNat_lt _)
  have hbody : field (bytes ⟨type, result, bodyLen, seqNo, crc⟩) 4 4 = bodyLen.toNat :=
    field_append (a := Bytes.le 2 _ ++ Bytes.le 2 _) (by simp only [bytes, append_assoc]; rfl)
      (by simp only [length_append, Bytes.le_length]) (UInt32.toNat_lt _)
  have hseq : field (bytes ⟨type, result, bodyLen, seqNo, crc⟩) 8 4 = seqNo.toNat :=
    field_append (a := Bytes.le 2 _ ++ Bytes.le 2 _ ++ Bytes.le 4 _)
      (by simp only [bytes, append_assoc]; rfl)
      (by simp only [length_append, Bytes.le_length]) (UInt32.toNat_lt _)
  have hcrc : field (bytes ⟨type, result, bodyLen, seqNo, crc⟩) 12 4 = crc.toNat :=
    field_append (a := Bytes.le 2 _ ++ Bytes.le 2 _ ++ Bytes.le 4 _ ++ Bytes.le 4 _) (b := [])
      (by rw [append_nil]; rfl)
      (by simp only [length_append, Bytes.le_length]) (UInt32.toNat_lt _)
  simp only [ofBytes, htype, hres, hbody, hseq, hcrc, UInt16.ofNat_toNat, UInt32.ofNat_toNat,
    Int16.toInt16_toUInt16]

end AccMsgHeader

/-! ### Frames -/

/-- A message on the wire. -/
structure Frame where
  header : AccMsgHeader
  body : Bytes
  deriving DecidableEq

def Frame.bytes (f : Frame) : Bytes := f.header.bytes ++ f.body

def stream (frames : List Frame) : Bytes := frames.flatMap Frame.bytes

theorem stream_cons (f : Frame) (fs : List Frame) :
    stream (f :: fs) = f.header.bytes ++ (f.body ++ stream fs) := by
  rfl

theorem stream_append (fs gs : List Frame) : stream (fs ++ gs) = stream fs ++ stream gs :=
  flatMap_append

/-- The values of `errno` that the link tells apart. -/
inductive Errno
  | success
  | eagain
  | epipe
  | econnreset
  | other
  deriving DecidableEq

end AccLinks
