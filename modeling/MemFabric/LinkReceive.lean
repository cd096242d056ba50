/-
Receiving on a link: `HandlePollIn` and the reassembly of frames.

A call of `HandlePollIn` receives into the header, or behind it into the body, whatever the
socket has, and counts down what is still to come; the counters survive from call to call.  One
call is a step; its label says how much each `recv` returns, or that it fails with `EAGAIN`, and
the `errno` that the call finds.

`Reassembled` says that the reports so far are the frames that have come in completely, and
that no call has failed.
-/
import MemFabric.LinkFrame
import MemFabric.Transition

namespace AccLinks

open Option List AccMsgHeader TransitionSystem

/-! ### The receive state -/

def maxRecvBodyLen : ℕ := 10 * 1024 * 1024

/-- `AccDataBuffer`; `memSize_` is the length of the memory. -/
structure DataBuffer where
  dataSize : ℕ
  memory : Bytes

/-- `AllocIfNeed`.  What new memory holds does not matter, it is written before it is read. -/
def DataBuffer.allocIfNeed (b : DataBuffer) (newSize : ℕ) : Option DataBuffer :=
  if maxRecvBodyLen < newSize then none
  else if b.memory.length < newSize then
    some { b with memory := List.replicate newSize 0 }
  else some b

/-- `AccLinkReceiveState`, with the memory of `header_` and the buffer `data_`. -/
structure ReceiveState where
  headerToBeReceived : ℕ
  bodyToBeReceived : ℤ
  header : Bytes
  data : DataBuffer

namespace ReceiveState

def receivedHeaderLen (s : ReceiveState) : ℕ :=
  if s.headerToBeReceived < headerLen then headerLen - s.headerToBeReceived else 0

def resetHeader (s : ReceiveState) : ReceiveState :=
  { s with headerToBeReceived := headerLen, bodyToBeReceived := -1 }

/-- `header_.bodyLen`. -/
def bodyLen (s : ReceiveState) : ℕ := (AccMsgHeader.ofBytes s.header).bodyLen.toNat

end ReceiveState

/-! ### The socket -/

/-- What the peer has sent and the worker has not received, and `errno` of the worker. -/
structure Socket where
  incoming : Bytes
  errno : Errno

inductive RecvEvent
  | chunk (size : ℕ)
  | eagain

variable (s : ReceiveState) (sock : Socket)

/-- `recv` of at most `len` bytes: what it returns, and what it reads.  A request for nothing
returns zero if there is something to read, and leaves `errno` as it was. -/
def Socket.recv (len : ℕ) : RecvEvent → Option (ℤ × Bytes × Socket)
  | .eagain => some (-1, [], { sock with errno := .eagain })
  | .chunk size =>
    if len = 0 then if sock.incoming = [] then none else some (0, [], sock)
    else if 0 < size ∧ size ≤ len ∧ size ≤ sock.incoming.length then
      some (size, sock.incoming.take size, { sock with incoming := sock.incoming.drop size })
    else none

/-! ### `HandlePollIn` -/

/-- What a call reports; a ready message comes with `header_` and `data_`. -/
inductive PollResult
  | eagain
  | msgReady (header : AccMsgHeader) (body : Bytes)
  | linkError
  | mallocFail
  deriving DecidableEq

/-- One poll-in event: `errno` before it, and what the socket does if the header or the body is
read. -/
structure PollIn where
  errno : Errno
  header : RecvEvent
  body : RecvEvent

/-- What is made of a `recv` that returned nothing. -/
def recvFailed : Errno → PollResult
  | .econnreset | .success => .linkError
  | .eagain => .eagain
  | .epipe | .other => .linkError

/-- The second half of `HandlePollIn`. -/
def receiveBody (event : RecvEvent) : Option (ReceiveState × Socket × PollResult) :=
  match sock.recv s.bodyToBeReceived.toNat event with
  | none => none
  | some (result, bytes, sock) =>
    if 0 < result then
      let memory := s.data.memory.readInto (s.bodyLen - s.bodyToBeReceived.toNat) bytes
      let remain := if result < s.bodyToBeReceived then s.bodyToBeReceived - result else 0
      let s := { s with bodyToBeReceived := remain, data := { s.data with memory := memory } }
      if remain = 0 then
        let s := { s.resetHeader with data := { s.data with dataSize := s.bodyLen } }
        some (s, sock, .msgReady (AccMsgHeader.ofBytes s.header)
          (s.data.memory.take s.data.dataSize))
      else some (s, sock, .eagain)
    else some (s, sock, recvFailed sock.errno)

def handlePollIn (e : PollIn) : Option (ReceiveState × Socket × PollResult) :=
  let sock := { sock with errno := e.errno }
  if 0 < s.headerToBeReceived then
    match sock.recv s.headerToBeReceived e.header with
    | none => none
    | some (result, bytes, sock) =>
      if 0 < result then
        let s := { s with
          header := s.header.readInto s.receivedHeaderLen bytes
          headerToBeReceived :=
            if result < s.headerToBeReceived then s.headerToBeReceived - result.toNat else 0 }
        if s.headerToBeReceived = 0 then
          match s.data.allocIfNeed s.bodyLen with
          | none => some (s.resetHeader, sock, .mallocFail)
          | some data =>
            receiveBody { s with bodyToBeReceived := s.bodyLen, data := { data with dataSize := 0 } }
              sock e.body
        else some (s, sock, .eagain)
      else some (s, sock, recvFailed sock.errno)
  else receiveBody s sock e.body

/-! ### A link that receives a stream -/

/-- The receiving end of a link, and the results of all calls. -/
structure ReceiveLink where
  receive : ReceiveState
  socket : Socket
  results : List PollResult

/-- One poll-in event; there is none on a link that is broken. -/
def receiveNext (s : ReceiveLink) (e : PollIn) : Option ReceiveLink :=
  if .linkError ∈ s.results then none
  else
    match handlePollIn s.receive s.socket e with
    | none => none
    | some (receive, socket, result) => some ⟨receive, socket, s.results ++ [result]⟩

/-- The receive state after `Initialize`. -/
def ReceiveState.initial : ReceiveState :=
  ⟨headerLen, -1, List.replicate headerLen 0, ⟨0, List.replicate 1024 0⟩⟩

def receiveSystem (frames : List Frame) : TransitionSystem ReceiveLink PollIn where
  start := ⟨.initial, ⟨stream frames, .success⟩, []⟩
  next := receiveNext

/-! ### What is to be shown -/

/-- The header states the length of the body, which is within the limit. -/
def Frame.WellFormed (f : Frame) : Prop :=
  f.header.bodyLen.toNat = f.body.length ∧ f.body.length ≤ maxRecvBodyLen
  deriving Decidable

/-- The frames that lie completely within the first `n` bytes. -/
def completeFrames : List Frame → ℕ → List Frame
  | [], _ => []
  | f :: fs, n => if f.bytes.length ≤ n then f :: completeFrames fs (n - f.bytes.length) else []

def PollResult.message : PollResult → Option Frame
  | .msgReady header body => some ⟨header, body⟩
  | _ => none

def PollResult.isError : PollResult → Bool
  | .linkError | .mallocFail => true
  | _ => false

def ReceiveLink.received (frames : List Frame) (s : ReceiveLink) : ℕ :=
  (stream frames).length - s.socket.incoming.length

/-- Every frame that has come in completely has been reported once, in order and as it was sent,
nothing else has been reported, and no call has failed. -/
def Reassembled (frames : List Frame) (s : ReceiveLink) : Prop :=
  s.results.filterMap PollResult.message = completeFrames frames (s.received frames) ∧
    ∀ result ∈ s.results, result.isError = false

/-! ### Where the receive state is in the stream -/

/-- `k` bytes of the next header have come in. -/
structure InHeader (s : ReceiveState) (sock : Socket) (pending : List Frame) (k : ℕ) : Prop where
  left : s.headerToBeReceived = headerLen - k
  lt : k < headerLen
  memory : s.header.length = headerLen
  read : s.header.take k = (stream pending).take k
  incoming : sock.incoming = (stream pending).drop k

/-- The header of `f` and `k` bytes of its body have come in, and some are missing. -/
structure InBody (s : ReceiveState) (sock : Socket) (f : Frame) (fs : List Frame) (k : ℕ) :
    Prop where
  header : s.headerToBeReceived = 0
  memory : s.header = f.header.bytes
  left : s.bodyToBeReceived = (f.body.length - k : ℕ)
  lt : k < f.body.length
  room : f.body.length ≤ s.data.memory.length
  read : s.data.memory.take k = f.body.take k
  incoming : sock.incoming = f.body.drop k ++ stream fs

/-- The receive state is at the first of the frames still to be reported. -/
def AtFrames (pending : List Frame) : Prop :=
  (∃ k, InHeader s sock pending k) ∨ ∃ f fs k, pending = f :: fs ∧ InBody s sock f fs k

/-- What a call makes of it: nothing is ready, or the first frame is. -/
def Advances (pending : List Frame) (r : PollResult) : Prop :=
  (r = .eagain ∧ AtFrames s sock pending) ∨
    ∃ f fs, pending = f :: fs ∧ r = .msgReady f.header f.body ∧ AtFrames s sock fs

variable {e : PollIn}

section Receive

variable {s s' : ReceiveState} {sock sock' : Socket} {f : Frame} {fs pending : List Frame}
  {k : ℕ} {r : PollResult}

variable {event : RecvEvent}

theorem Socket.recv_cases {len : ℕ} {result : ℤ} {bytes : Bytes} (hlen : 0 < len)
    (h : sock.recv len event = some (result, bytes, sock')) :
    (result = -1 ∧ sock' = { sock with errno := .eagain }) ∨
      ∃ size : ℕ, result = size ∧ 0 < size ∧ size ≤ len ∧ bytes = sock.incoming.take size ∧
        bytes.length = size ∧ sock'.incoming = sock.incoming.drop size := by
  cases event with
  | eagain =>
    simp only [Socket.recv, some.injEq, Prod.mk.injEq] at h
    obtain ⟨hres, -, hsock⟩ := h
    exact .inl ⟨hres.symm, hsock.symm⟩
  | chunk size =>
    rw [Socket.recv, if_neg (Nat.pos_iff_ne_zero.mp hlen)] at h
    obtain ⟨⟨hpos, hle, hin⟩, heq⟩ := ite_none_right_eq_some.mp h
    simp only [some.injEq, Prod.mk.injEq] at heq
    obtain ⟨hres, hbytes, hsock⟩ := heq
    refine .inr ⟨size, hres.symm, hpos, hle, hbytes.symm, ?_, hsock ▸ rfl⟩
    rw [← hbytes, length_take, min_eq_left hin]

theorem InBody.bodyLen (h : InBody s sock f fs k) (hf : f.WellFormed) :
    s.bodyLen = f.body.length := by
  rw [ReceiveState.bodyLen, h.memory, ofBytes_bytes, hf.1]

theorem receiveBody_spec (hf : f.WellFormed) (h : InBody s sock f fs k)
    (hr : receiveBody s sock event = some (s', sock', r)) : Advances s' sock' (f :: fs) r := by
  have hlt := h.lt
  have hleft : s.bodyToBeReceived.toNat = f.body.length - k := by rw [h.left, Int.toNat_natCast]
  rw [receiveBody, hleft] at hr
  split at hr
  case h_1 => cases hr
  case h_2 result bytes sock₁ hrecv =>
    rcases Socket.recv_cases (by omega) hrecv with
      ⟨rfl, hsock⟩ | ⟨size, rfl, hpos, hle, hbytes, hlength, hinc⟩
    · -- Nothing has come in.
      rw [if_neg (by decide)] at hr
      obtain ⟨rfl, rfl, rfl⟩ := hr
      rw [hsock]
      exact .inl ⟨rfl, .inr ⟨f, fs, k, rfl, h.header, h.memory, h.left, h.lt, h.room, h.read,
        h.incoming⟩⟩
    -- The bytes are the next ones of the body.
    have hroom := h.room
    have hdrop : size ≤ (f.body.drop k).length := by rw [length_drop]; exact hle
    rw [h.incoming, take_append_of_le_length hdrop] at hbytes
    rw [h.incoming, drop_append_of_le_length hdrop, drop_drop] at hinc
    have hoff : s.bodyLen - (f.body.length - k) = k := by rw [h.bodyLen hf]; omega
    have hread : (s.data.memory.readInto k bytes).take (k + size) = f.body.take (k + size) := by
      rw [Bytes.take_readInto (by omega) (by rw [hlength]), h.read, hbytes, take_add]
    have hmemory : (s.data.memory.readInto k bytes).length = s.data.memory.length :=
      Bytes.readInto_length (by omega)
    have hremain : (if (size : ℤ) < (f.body.length - k : ℕ) then
        ((f.body.length - k : ℕ) : ℤ) - size else 0) = (f.body.length - (k + size) : ℕ) := by
      split <;> omega
    simp only [if_pos (show (0 : ℤ) < size by omega), hoff, h.left, hremain] at hr
    by_cases hlast : f.body.length - (k + size) = 0
    · -- The body is full.
      have hall : k + size = f.body.length := by omega
      have hsize : s.bodyLen = f.body.length := h.bodyLen hf
      rw [hall, take_length] at hread
      rw [hall, drop_length, nil_append] at hinc
      rw [hlast, if_pos Nat.cast_zero] at hr
      simp only [some.injEq, Prod.mk.injEq] at hr
      obtain ⟨rfl, rfl, rfl⟩ := hr
      refine .inr ⟨f, fs, rfl, ?_, .inl ⟨0, rfl, by decide, ?_, rfl, hinc⟩⟩
      · show PollResult.msgReady (ofBytes s.header)
          ((s.data.memory.readInto k bytes).take s.bodyLen) = _
        rw [h.memory, ofBytes_bytes, hsize, hread]
      · exact (congrArg length h.memory).trans f.header.bytes_length
    rw [if_neg (by omega)] at hr
    simp only [some.injEq, Prod.mk.injEq] at hr
    obtain ⟨rfl, rfl, rfl⟩ := hr
    refine .inl ⟨rfl, .inr ⟨f, fs, k + size, rfl, h.header, h.memory, rfl, by omega, ?_,
      hread, hinc⟩⟩
    exact hmemory ▸ h.room

theorem exists_frame_of_header {memory : Bytes} (hlength : memory.length = headerLen)
    (hread : memory.take headerLen = (stream pending).take headerLen) :
    ∃ f fs, pending = f :: fs ∧ memory = f.header.bytes := by
  rw [← hlength, take_length, hlength] at hread
  cases pending with
  | nil =>
    rw [hread] at hlength
    cases hlength
  | cons f fs =>
    exact ⟨f, fs, rfl, hread⟩

theorem DataBuffer.allocIfNeed_of_le {b : DataBuffer} {newSize : ℕ} (h : newSize ≤ maxRecvBodyLen) :
    ∃ b', b.allocIfNeed newSize = some b' ∧ newSize ≤ b'.memory.length := by
  rw [allocIfNeed, if_neg (not_lt.mpr h)]
  split
  case isTrue => exact ⟨_, rfl, (length_replicate ..).ge⟩
  case isFalse hroom => exact ⟨b, rfl, not_lt.mp hroom⟩

section

variable (hwf : ∀ f ∈ pending, f.WellFormed) (hbody : ∀ f ∈ pending, f.body ≠ [])
include hwf hbody

theorem handlePollIn_header (h : InHeader s sock pending k)
    (hr : handlePollIn s sock e = some (s', sock', r)) : Advances s' sock' pending r := by
  have hlt := h.lt
  simp only [handlePollIn, h.left] at hr
  rw [if_pos (by omega)] at hr
  split at hr
  case h_1 => cases hr
  case h_2 result bytes sock₁ hrecv =>
    rcases Socket.recv_cases (by omega) hrecv with
      ⟨rfl, hsock⟩ | ⟨size, rfl, hpos, hle, hbytes, hlength, hinc⟩
    · rw [if_neg (by decide)] at hr
      simp only [some.injEq, Prod.mk.injEq] at hr
      obtain ⟨rfl, rfl, rfl⟩ := hr
      rw [hsock]
      exact .inl ⟨rfl, .inl ⟨k, h.left, h.lt, h.memory, h.read, h.incoming⟩⟩
    -- The bytes are the next ones of the header.
    have hoff : s.receivedHeaderLen = k := by
      rw [ReceiveState.receivedHeaderLen, h.left]
      split <;> omega
    have hmemory : (s.header.readInto k bytes).length = headerLen := by
      rw [Bytes.readInto_length (by rw [h.memory]; omega), h.memory]
    have hread : (s.header.readInto k bytes).take (k + size) =
        (stream pending).take (k + size) := by
      rw [Bytes.take_readInto (by rw [h.memory]; omega) (by rw [hlength]), h.read, hbytes,
        h.incoming, take_add]
    rw [h.incoming, drop_drop] at hinc
    have hremain : (if (size : ℤ) < (headerLen - k : ℕ) then
        headerLen - k - (size : ℤ).toNat else 0) = headerLen - (k + size) := by
      split <;> omega
    simp only [if_pos (show (0 : ℤ) < size by omega), hoff, hremain] at hr
    by_cases hlast : headerLen - (k + size) = 0
    · -- The header is full, and the call goes on with the body.
      have hall : k + size = headerLen := by omega
      rw [hall] at hread hinc
      obtain ⟨f, fs, rfl, hhdr⟩ := exists_frame_of_header hmemory hread
      have hf : f.WellFormed := hwf f (mem_cons_self ..)
      have hne : f.body ≠ [] := hbody f (mem_cons_self ..)
      obtain ⟨data, halloc, hroom⟩ := DataBuffer.allocIfNeed_of_le (b := s.data) hf.2
      simp only [if_pos hlast, ReceiveState.bodyLen, hhdr, ofBytes_bytes, hf.1, halloc] at hr
      exact receiveBody_spec hf ⟨hlast, rfl, rfl, length_pos_iff.mpr hne, hroom, rfl, hinc⟩ hr
    rw [if_neg hlast] at hr
    simp only [some.injEq, Prod.mk.injEq] at hr
    obtain ⟨rfl, rfl, rfl⟩ := hr
    exact .inl ⟨rfl, .inl ⟨k + size, rfl, by omega, hmemory, hread, hinc⟩⟩

theorem handlePollIn_spec (h : AtFrames s sock pending)
    (hr : handlePollIn s sock e = some (s', sock', r)) : Advances s' sock' pending r := by
  rcases h with ⟨k, hhdr⟩ | ⟨f, fs, k, rfl, hin⟩
  · exact handlePollIn_header hwf hbody hhdr hr
  rw [handlePollIn, hin.header, if_neg (lt_irrefl 0)] at hr
  have hin' : InBody s { sock with errno := e.errno } f fs k :=
    { hin with }
  exact receiveBody_spec (hwf f (mem_cons_self ..)) hin' hr

end

theorem AtFrames.incoming (h : AtFrames s sock pending) :
    ∃ j, sock.incoming = (stream pending).drop j ∧
      ∀ f fs, pending = f :: fs → j < f.bytes.length := by
  have hbytes : ∀ f : Frame, f.bytes.length = headerLen + f.body.length := fun f => by
    rw [Frame.bytes, length_append, bytes_length]
  rcases h with ⟨k, hhdr⟩ | ⟨f, fs, k, rfl, hin⟩
  · refine ⟨k, hhdr.incoming, fun f fs _ => ?_⟩
    have hlt := hhdr.lt
    rw [hbytes]
    omega
  refine ⟨headerLen + k, ?_, fun g gs hg => ?_⟩
  · rw [hin.incoming, stream_cons, ← drop_drop, drop_left' f.header.bytes_length,
      drop_append_of_le_length hin.lt.le]
  have hlt := hin.lt
  rw [hbytes, ← (cons.inj hg).1]
  omega

end Receive

/-! ### Runs -/

theorem completeFrames_append (done pending : List Frame) (j : ℕ) :
    completeFrames (done ++ pending) ((stream done).length + j) =
      done ++ completeFrames pending j := by
  induction done with
  | nil => rw [nil_append, nil_append, stream, flatMap_nil, length_nil, zero_add]
  | cons f fs ih =>
    have hlength : (stream (f :: fs)).length = f.bytes.length + (stream fs).length := by
      rw [stream, flatMap_cons, length_append]
      rfl
    rw [cons_append, completeFrames, if_pos (by omega), cons_append]
    congr 1
    rw [← ih]
    congr 1
    omega

/-- Some frames have been reported, the others are still to come, and no call has failed. -/
def ReceiveInv (frames : List Frame) (s : ReceiveLink) : Prop :=
  ∃ done pending, frames = done ++ pending ∧ s.results.filterMap PollResult.message = done ∧
    (∀ result ∈ s.results, result.isError = false) ∧ AtFrames s.receive s.socket pending

variable {frames : List Frame} {s s' : ReceiveLink}

theorem ReceiveInv.reassembled (h : ReceiveInv frames s) : Reassembled frames s := by
  obtain ⟨done, pending, rfl, hrep, herrors, hat⟩ := h
  refine ⟨?_, herrors⟩
  obtain ⟨j, hinc, hfirst⟩ := hat.incoming
  have hreceived : s.received (done ++ pending) =
      (stream done).length + min j (stream pending).length := by
    rw [ReceiveLink.received, hinc, stream_append, length_append, length_drop]
    omega
  rw [hreceived, completeFrames_append, hrep]
  have hnone : completeFrames pending (min j (stream pending).length) = [] := by
    cases pending with
    | nil => rfl
    | cons f fs =>
      have hj := hfirst f fs rfl
      rw [completeFrames, if_neg (by omega)]
  rw [hnone, append_nil]

theorem receiveInv_next (hwf : ∀ f ∈ frames, f.WellFormed) (hbody : ∀ f ∈ frames, f.body ≠ [])
    (hinv : ReceiveInv frames s) (hnext : receiveNext s e = some s') : ReceiveInv frames s' := by
  obtain ⟨done, pending, rfl, hrep, herrors, hat⟩ := hinv
  rw [receiveNext] at hnext
  split at hnext
  · cases hnext
  split at hnext
  case h_1 => cases hnext
  case h_2 receive socket result hpoll =>
    rw [← some.inj hnext]
    have hstep := handlePollIn_spec (fun f hf => hwf f (mem_append_right done hf))
      (fun f hf => hbody f (mem_append_right done hf)) hat hpoll
    have hresults : ∀ q ∈ s.results ++ [result], result.isError = false → q.isError = false := by
      intro q hq hres
      rcases mem_append.mp hq with hq | hq
      · exact herrors q hq
      · rw [mem_singleton.mp hq, hres]
    rcases hstep with ⟨rfl, hat'⟩ | ⟨f, fs, rfl, rfl, hat'⟩
    · refine ⟨done, pending, rfl, ?_, fun q hq => hresults q hq rfl, hat'⟩
      rw [filterMap_append, hrep]
      exact append_nil done
    refine ⟨done ++ [f], fs, ?_, ?_, fun q hq => hresults q hq rfl, hat'⟩
    · rw [append_assoc, singleton_append]
    · rw [filterMap_append, hrep]
      rfl

/-- Every stream of frames with non-empty bodies is reassembled. -/
theorem reassembled_of_bodies {frames : List Frame} (hwf : ∀ f ∈ frames, f.WellFormed)
    (hbody : ∀ f ∈ frames, f.body ≠ []) {s : ReceiveLink}
    (h : (receiveSystem frames).Reachable s) : Reassembled frames s := by
  refine ReceiveInv.reassembled (h.invariant ?_ ?_)
  · refine ⟨[], frames, rfl, rfl, nofun, .inl ⟨0, rfl, by decide, ?_, rfl, rfl⟩⟩
    exact length_replicate ..
  · intro s s' e hinv _ hnext
    exact receiveInv_next hwf hbody hinv hnext

/-- Two frames come in four pieces; each call takes what is there, and two of them report. -/
theorem reassembled_two_frames :
    ∃ s : ReceiveLink, s.results =
        [.eagain, .msgReady ⟨1, 0, 2, 0, 0⟩ [7, 8], .eagain, .msgReady ⟨1, 0, 1, 1, 0⟩ [9]] ∧
      Reassembled [⟨⟨1, 0, 2, 0, 0⟩, [7, 8]⟩, ⟨⟨1, 0, 1, 1, 0⟩, [9]⟩] s := by
  have hrun : ((receiveSystem [⟨⟨1, 0, 2, 0, 0⟩, [7, 8]⟩, ⟨⟨1, 0, 1, 1, 0⟩, [9]⟩]).run
      (receiveSystem [⟨⟨1, 0, 2, 0, 0⟩, [7, 8]⟩, ⟨⟨1, 0, 1, 1, 0⟩, [9]⟩]).start
      [⟨.success, .chunk 10, .eagain⟩, ⟨.other, .chunk 6, .chunk 2⟩,
        ⟨.success, .chunk 16, .eagain⟩, ⟨.success, .eagain, .chunk 1⟩]).map ReceiveLink.results =
      some [.eagain, .msgReady ⟨1, 0, 2, 0, 0⟩ [7, 8], .eagain, .msgReady ⟨1, 0, 1, 1, 0⟩ [9]] := by
    decide +kernel
  obtain ⟨s, hs, hresults⟩ := exists_of_run hrun
  exact ⟨s, hresults, reassembled_of_bodies (by decide) (by decide) hs⟩

/-! ### Frames without a body -/

def ReceiveState.Stuck (s : ReceiveState) : Prop :=
  s.headerToBeReceived = 0 ∧ s.bodyToBeReceived = 0

theorem handlePollIn_stuck {s s' : ReceiveState} {sock sock' : Socket} {r : PollResult}
    (h : s.Stuck) (hr : handlePollIn s sock e = some (s', sock', r)) :
    s' = s ∧ sock'.incoming = sock.incoming ∧ r.message = none := by
  have hmsg : ∀ errno, (recvFailed errno).message = none := fun errno => by
    cases errno <;> rfl
  simp only [handlePollIn, h.1, lt_irrefl, if_false, receiveBody, h.2, Int.toNat_zero] at hr
  cases hbody : e.body with
  | eagain =>
    rw [hbody] at hr
    obtain ⟨rfl, rfl, rfl⟩ := hr
    exact ⟨rfl, rfl, hmsg _⟩
  | chunk size =>
    rw [hbody] at hr
    by_cases hnone : sock.incoming = []
    · simp only [Socket.recv, if_true, if_pos hnone] at hr
      cases hr
    simp only [Socket.recv, if_true, if_neg hnone, lt_irrefl, if_false, some.injEq,
      Prod.mk.injEq] at hr
    obtain ⟨rfl, rfl, rfl⟩ := hr
    exact ⟨rfl, rfl, hmsg _⟩

theorem run_stuck {es : List PollIn} (h : s.receive.Stuck)
    (hrun : (receiveSystem frames).run s es = some s') :
    s'.socket.incoming = s.socket.incoming ∧
      s'.results.filterMap PollResult.message = s.results.filterMap PollResult.message := by
  induction es generalizing s with
  | nil =>
    rw [run_nil, some_inj] at hrun
    rw [hrun]
    exact ⟨rfl, rfl⟩
  | cons e es ih =>
    rw [run, bind_eq_some_iff] at hrun
    obtain ⟨t, hnext, hrun⟩ := hrun
    simp only [receiveSystem, receiveNext] at hnext
    split at hnext
    · cases hnext
    split at hnext
    case h_1 => cases hnext
    case h_2 receive socket result hpoll =>
      obtain ⟨hstate, hinc, hmsg⟩ := handlePollIn_stuck h hpoll
      rw [← some.inj hnext] at hrun
      obtain ⟨hinc', hresults⟩ := ih (hstate.symm ▸ h) hrun
      refine ⟨hinc'.trans hinc, hresults.trans ?_⟩
      simp only [filterMap_append, filterMap_cons, hmsg, filterMap_nil, append_nil]

/-- A frame with an empty body is never reported. -/
theorem empty_body_never_ready :
    ∃ s : ReceiveLink, (receiveSystem [⟨⟨1, 0, 0, 0, 0⟩, []⟩]).run
        (receiveSystem [⟨⟨1, 0, 0, 0, 0⟩, []⟩]).start [⟨.success, .chunk 16, .eagain⟩] = some s ∧
      s.results = [.eagain] ∧
      ∀ es s', (receiveSystem [⟨⟨1, 0, 0, 0, 0⟩, []⟩]).run s es = some s' →
        ¬ Reassembled [⟨⟨1, 0, 0, 0, 0⟩, []⟩] s' := by
  refine exists_run (fun s => (s.receive.headerToBeReceived,
    s.receive.bodyToBeReceived, s.socket.incoming, s.results)) (0, 0, [], [.eagain]) ?_
    fun s _ heq => ?_
  · decide +kernel
  simp only [Prod.mk.injEq] at heq
  obtain ⟨hhdr, hbody, hinc, hresults⟩ := heq
  refine ⟨hresults, fun es s' hrun' hre => ?_⟩
  obtain ⟨hinc', hresults'⟩ := run_stuck ⟨hhdr, hbody⟩ hrun'
  have hall := hre.1
  rw [hresults', hresults, ReceiveLink.received, hinc', hinc] at hall
  exact absurd hall (by decide +kernel)

end AccLinks
