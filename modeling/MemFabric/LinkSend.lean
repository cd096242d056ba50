/-
Sending on a link: `AccLinkedMessageQueue` and `HandlePollOut`.

Any thread enqueues messages; the worker of the link dequeues one in a poll-out event, writes
what is left of its header and of its body, and pushes it back to the front if the socket took
only a part.  A step is one queue operation or one write to the socket.

`StreamIntact` says that what is on the socket and what is still to be written are together the
frames of all enqueued messages, in order.
-/
import MemFabric.LinkFrame
import MemFabric.Transition

namespace AccLinks

open List Option

/-! ### Messages in the queue -/

/-- `AccLinkedMessageNode` without its link to the next node, which the list of the queue
stands for, and without the context of the sender's callback. -/
structure MessageNode where
  header : AccMsgHeader
  data : Bytes
  headerRemain : ℕ
  dataRemain : ℕ
  headerRemain_le : headerRemain ≤ headerLen
  dataRemain_le : dataRemain ≤ data.length
  deriving DecidableEq

namespace MessageNode

def create (header : AccMsgHeader) (data : Bytes) : MessageNode :=
  ⟨header, data, headerLen, data.length, le_rfl, le_rfl⟩

variable (m : MessageNode)

def headerSent : Bool := m.headerRemain == 0

def dataSent : Bool := m.dataRemain == 0

def sent : Bool := m.headerRemain == 0 && m.dataRemain == 0

/-- The bytes at `HeaderPtrToBeSend()`. -/
def headerToBeSend : Bytes :=
  m.header.bytes.drop (headerLen - m.headerRemain)

/-- The bytes at `DataPtrToBeSend()`. -/
def dataToBeSend : Bytes := m.data.drop (m.data.length - m.dataRemain)

/-- The node after `HeaderAllSent(size)`, which is true if nothing remains. -/
def headerAllSent (size : ℕ) : MessageNode :=
  { m with
    headerRemain := if m.headerRemain ≤ size then 0 else m.headerRemain - size
    headerRemain_le := by have := m.headerRemain_le; split <;> omega }

/-- The node after `DataAllSent(size)`. -/
def dataAllSent (size : ℕ) : MessageNode :=
  { m with
    dataRemain := if m.dataRemain ≤ size then 0 else m.dataRemain - size
    dataRemain_le := by have := m.dataRemain_le; split <;> omega }

def rest : Bytes := m.headerToBeSend ++ m.dataToBeSend

end MessageNode

/-! ### The link -/

/-- What `HandlePollOut` returns. -/
inductive LinkResult
  | ok
  | eagain
  | msgSent
  | linkError
  deriving DecidableEq

def sendPostProcess : Errno → LinkResult
  | .econnreset => .linkError
  | .eagain | .epipe => .eagain
  | .success | .other => .linkError

/-- Where the worker is: the last `HandlePollOut` has returned, or it is about to write the
header or the data of a message, or to push the message back. -/
inductive PollOut
  | returned (result : LinkResult)
  | writeHeader (oneMsg : MessageNode)
  | writeData (oneMsg : MessageNode)
  | enqueueFront (oneMsg : MessageNode)

/-- A link: its send queue, the worker, all bytes that the socket has taken, and the messages
that were enqueued with success. -/
structure SendLink where
  queue : List MessageNode
  pollOut : PollOut
  written : Bytes
  enqueued : List Frame

inductive SendStep
  | enqueueBack (header : AccMsgHeader) (data : Bytes)
  | dequeueFront
  | wrote (size : ℕ)
  | failed (errno : Errno)
  | enqueueFront

/-- The beginning of `HandlePollOut` with a message. -/
def beginMessage (oneMsg : MessageNode) : PollOut :=
  if oneMsg.sent then .returned .ok
  else if oneMsg.headerSent then .writeData oneMsg
  else .writeHeader oneMsg

def headerWritten (oneMsg : MessageNode) : PollOut :=
  if oneMsg.headerSent then
    if oneMsg.dataSent then .returned .msgSent else .writeData oneMsg
  else .enqueueFront oneMsg

def dataWritten (oneMsg : MessageNode) : PollOut :=
  if oneMsg.dataSent then .returned .msgSent else .enqueueFront oneMsg

/-- One step on the link.  After `ACC_LINK_ERROR` the worker has no more poll-out events for it. -/
def sendNext (sizeCap : ℕ) (s : SendLink) : SendStep → Option SendLink
  | .enqueueBack header data =>
    -- `ACC_QUEUE_IS_FULL` otherwise
    if s.queue.length < sizeCap then
      some { s with
        queue := s.queue ++ [.create header data]
        enqueued := s.enqueued ++ [⟨header, data⟩] }
    else
      some s
  | .dequeueFront =>
    match s.pollOut with
    | .returned result =>
      if result = .linkError then none
      else
        match s.queue with
        | [] => some { s with pollOut := .returned .ok }
        | oneMsg :: queue => some { s with queue := queue, pollOut := beginMessage oneMsg }
    | _ => none
  | .wrote size =>
    match s.pollOut with
    | .writeHeader oneMsg =>
      if 0 < size ∧ size ≤ oneMsg.headerRemain then
        some { s with
          written := s.written ++ oneMsg.headerToBeSend.take size
          pollOut := headerWritten (oneMsg.headerAllSent size) }
      else none
    | .writeData oneMsg =>
      if 0 < size ∧ size ≤ oneMsg.dataRemain then
        some { s with
          written := s.written ++ oneMsg.dataToBeSend.take size
          pollOut := dataWritten (oneMsg.dataAllSent size) }
      else none
    | _ => none
  | .failed errno =>
    match s.pollOut with
    -- the message is deleted, whatever the error is
    | .writeHeader _ | .writeData _ => some { s with pollOut := .returned (sendPostProcess errno) }
    | _ => none
  | .enqueueFront =>
    match s.pollOut with
    | .enqueueFront oneMsg =>
      some { s with queue := oneMsg :: s.queue, pollOut := .returned .eagain }
    | _ => none

def sendSystem (sizeCap : ℕ) : TransitionSystem SendLink SendStep where
  start := ⟨[], .returned .ok, [], []⟩
  next := sendNext sizeCap

/-! ### What is to be shown -/

/-- What is still to be written of the message that the worker has. -/
def PollOut.rest : PollOut → Bytes
  | .returned _ => []
  | .writeHeader oneMsg | .writeData oneMsg | .enqueueFront oneMsg => oneMsg.rest

def SendLink.unsent (s : SendLink) : Bytes := s.pollOut.rest ++ s.queue.flatMap MessageNode.rest

/-- The socket has a prefix of the frames in enqueue order, and exactly the rest of them is
still to be written: no message is lost, reordered, duplicated or cut. -/
def StreamIntact (s : SendLink) : Prop :=
  s.written <+: stream s.enqueued ∧ s.written ++ s.unsent = stream s.enqueued

def Writes (_ : SendLink) : SendStep → Prop
  | .failed _ => False
  | _ => True

instance (s : SendLink) : (a : SendStep) → Decidable (Writes s a)
  | .failed _ => inferInstanceAs (Decidable False)
  | .enqueueBack _ _ | .dequeueFront | .wrote _ | .enqueueFront => inferInstanceAs (Decidable True)

/-! ### What the steps do to the bytes -/

namespace MessageNode

theorem rest_create (header : AccMsgHeader) (data : Bytes) :
    (create header data).rest = Frame.bytes ⟨header, data⟩ := by
  simp only [rest, headerToBeSend, dataToBeSend, create, Frame.bytes, Nat.sub_self, drop_zero]

theorem headerToBeSend_length (m : MessageNode) : m.headerToBeSend.length = m.headerRemain := by
  have hle := m.headerRemain_le
  rw [headerToBeSend, length_drop, AccMsgHeader.bytes_length]
  omega

theorem dataToBeSend_length (m : MessageNode) : m.dataToBeSend.length = m.dataRemain := by
  have hle := m.dataRemain_le
  rw [dataToBeSend, length_drop]
  omega

variable {m : MessageNode} {size : ℕ}

theorem headerToBeSend_allSent (h : size ≤ m.headerRemain) :
    (m.headerAllSent size).headerToBeSend = m.headerToBeSend.drop size := by
  have hle := m.headerRemain_le
  have hremain : (m.headerAllSent size).headerRemain = m.headerRemain - size := by
    simp only [headerAllSent]
    split <;> omega
  have hhdr : (m.headerAllSent size).header = m.header := rfl
  rw [headerToBeSend, headerToBeSend, drop_drop, hremain, hhdr]
  congr 1
  omega

theorem dataToBeSend_allSent (h : size ≤ m.dataRemain) :
    (m.dataAllSent size).dataToBeSend = m.dataToBeSend.drop size := by
  have hle := m.dataRemain_le
  have hremain : (m.dataAllSent size).dataRemain = m.dataRemain - size := by
    simp only [dataAllSent]
    split <;> omega
  have hdata : (m.dataAllSent size).data = m.data := rfl
  rw [dataToBeSend, dataToBeSend, drop_drop, hremain, hdata]
  congr 1
  omega

theorem headerToBeSend_of_sent (h : m.headerSent = true) : m.headerToBeSend = [] :=
  length_eq_zero_iff.mp (m.headerToBeSend_length.trans (beq_iff_eq.mp h))

theorem dataToBeSend_of_sent (h : m.dataSent = true) : m.dataToBeSend = [] :=
  length_eq_zero_iff.mp (m.dataToBeSend_length.trans (beq_iff_eq.mp h))

theorem rest_headerAllSent (h : size ≤ m.headerRemain) :
    m.headerToBeSend.take size ++ (m.headerAllSent size).rest = m.rest := by
  have hdata : (m.headerAllSent size).dataToBeSend = m.dataToBeSend := rfl
  rw [rest, rest, headerToBeSend_allSent h, hdata, ← append_assoc, take_append_drop]

theorem rest_dataAllSent (hhdr : m.headerSent = true) (h : size ≤ m.dataRemain) :
    m.dataToBeSend.take size ++ (m.dataAllSent size).rest = m.rest := by
  have hsent : (m.dataAllSent size).headerToBeSend = m.headerToBeSend := rfl
  rw [rest, rest, dataToBeSend_allSent h, hsent, headerToBeSend_of_sent hhdr, nil_append,
    nil_append, take_append_drop]

theorem rest_of_sent (hhdr : m.headerSent = true) (hdata : m.dataSent = true) : m.rest = [] := by
  rw [rest, headerToBeSend_of_sent hhdr, dataToBeSend_of_sent hdata, nil_append]

end MessageNode

/-! ### The invariant -/

def PollOut.Ordered : PollOut → Prop
  | .writeData oneMsg => oneMsg.headerSent = true
  | _ => True

structure SendInv (s : SendLink) : Prop where
  ordered : s.pollOut.Ordered
  balance : s.written ++ s.unsent = stream s.enqueued

theorem SendInv.streamIntact {s : SendLink} (h : SendInv s) : StreamIntact s :=
  ⟨⟨s.unsent, h.balance⟩, h.balance⟩

/-- The worker goes on with what is left of a message, the header first. -/
structure PollOut.Serves (p : PollOut) (m : MessageNode) : Prop where
  ordered : p.Ordered
  rest : p.rest = m.rest

theorem beginMessage_serves (m : MessageNode) : (beginMessage m).Serves m := by
  rw [beginMessage]
  split
  case isTrue hsent =>
    rw [MessageNode.sent, Bool.and_eq_true] at hsent
    exact ⟨trivial, (MessageNode.rest_of_sent hsent.1 hsent.2).symm⟩
  split
  case isTrue hhdr => exact ⟨hhdr, rfl⟩
  case isFalse => exact ⟨trivial, rfl⟩

theorem dataWritten_serves {m : MessageNode} (hhdr : m.headerSent = true) :
    (dataWritten m).Serves m := by
  rw [dataWritten]
  split
  case isTrue hdata => exact ⟨trivial, (MessageNode.rest_of_sent hhdr hdata).symm⟩
  case isFalse => exact ⟨trivial, rfl⟩

theorem headerWritten_serves (m : MessageNode) : (headerWritten m).Serves m := by
  rw [headerWritten]
  split
  case isTrue hhdr =>
    split
    case isTrue hdata => exact ⟨trivial, (MessageNode.rest_of_sent hhdr hdata).symm⟩
    case isFalse => exact ⟨hhdr, rfl⟩
  case isFalse => exact ⟨trivial, rfl⟩

theorem sendInv_next {sizeCap : ℕ} {s s' : SendLink} {a : SendStep} (hinv : SendInv s)
    (hok : Writes s a) (hnext : (sendSystem sizeCap).next s a = some s') : SendInv s' := by
  obtain ⟨hord, hbal⟩ := hinv
  rw [SendLink.unsent] at hbal
  cases a with
  | enqueueBack header data =>
    simp only [sendSystem, sendNext] at hnext
    split at hnext
    case isTrue =>
      rw [← some.inj hnext]
      refine ⟨hord, ?_⟩
      simp only [SendLink.unsent, stream, flatMap_append, flatMap_singleton,
        MessageNode.rest_create] at hbal ⊢
      rw [← hbal]
      simp only [append_assoc]
    case isFalse =>
      rw [← some.inj hnext]
      exact ⟨hord, hbal⟩
  | dequeueFront =>
    simp only [sendSystem, sendNext] at hnext
    split at hnext
    case h_2 => cases hnext
    case h_1 result hcall =>
      rw [hcall, PollOut.rest, nil_append] at hbal
      split at hnext
      · cases hnext
      split at hnext
      case h_1 hqueue =>
        rw [← some.inj hnext]
        exact ⟨trivial, hbal⟩
      case h_2 m queue hqueue =>
        rw [← some.inj hnext]
        refine ⟨(beginMessage_serves m).ordered, ?_⟩
        rw [hqueue, flatMap_cons] at hbal
        rw [SendLink.unsent, (beginMessage_serves m).rest]
        exact hbal
  | wrote size =>
    simp only [sendSystem, sendNext] at hnext
    split at hnext
    case h_3 => cases hnext
    case h_1 m hcall =>
      obtain ⟨⟨-, hsize⟩, heq⟩ := ite_none_right_eq_some.mp hnext
      rw [hcall, PollOut.rest, ← MessageNode.rest_headerAllSent hsize] at hbal
      rw [← some.inj heq]
      refine ⟨(headerWritten_serves _).ordered, ?_⟩
      rw [SendLink.unsent, (headerWritten_serves _).rest, ← hbal]
      simp only [append_assoc]
    case h_2 m hcall =>
      obtain ⟨⟨-, hsize⟩, heq⟩ := ite_none_right_eq_some.mp hnext
      have hhdr : m.headerSent = true := by
        rw [hcall] at hord
        exact hord
      rw [hcall, PollOut.rest, ← MessageNode.rest_dataAllSent hhdr hsize] at hbal
      rw [← some.inj heq]
      have hserves : (dataWritten (m.dataAllSent size)).Serves _ := dataWritten_serves hhdr
      refine ⟨hserves.ordered, ?_⟩
      rw [SendLink.unsent, hserves.rest, ← hbal]
      simp only [append_assoc]
  | failed errno => exact hok.elim
  | enqueueFront =>
    simp only [sendSystem, sendNext] at hnext
    split at hnext
    case h_2 => cases hnext
    case h_1 m hcall =>
      rw [hcall, PollOut.rest] at hbal
      rw [← some.inj hnext]
      exact ⟨trivial, hbal⟩

/-- The stream is intact in every run whose writes all take something. -/
theorem streamIntact_of_writes {sizeCap : ℕ} {s : SendLink}
    (h : (sendSystem sizeCap).ReachableBy Writes s) : StreamIntact s := by
  refine SendInv.streamIntact (h.invariant ⟨trivial, rfl⟩ ?_)
  intro s s' a hinv hok hnext
  exact sendInv_next hinv hok hnext

/-- A message is enqueued while another one is half written; the first is finished before the
second. -/
theorem streamIntact_after_short_writes :
    ∃ s : SendLink, s.written = Frame.bytes ⟨⟨1, 0, 2, 0, 0⟩, [7, 8]⟩ ∧
      s.enqueued = [⟨⟨1, 0, 2, 0, 0⟩, [7, 8]⟩, ⟨⟨1, 0, 1, 1, 0⟩, [9]⟩] ∧ StreamIntact s := by
  have hrun : (((sendSystem 2).restrict Writes).run (sendSystem 2).start
      [.enqueueBack ⟨1, 0, 2, 0, 0⟩ [7, 8], .dequeueFront, .wrote 10,
        .enqueueBack ⟨1, 0, 1, 1, 0⟩ [9], .enqueueFront, .dequeueFront, .wrote 6, .wrote 1,
        .enqueueFront, .dequeueFront, .wrote 1]).map (fun s => (s.written, s.enqueued)) =
      some (Frame.bytes ⟨⟨1, 0, 2, 0, 0⟩, [7, 8]⟩,
        [⟨⟨1, 0, 2, 0, 0⟩, [7, 8]⟩, ⟨⟨1, 0, 1, 1, 0⟩, [9]⟩]) := by
    decide +kernel
  obtain ⟨s, hs, heq⟩ := TransitionSystem.exists_of_run_restrict hrun
  obtain ⟨hwritten, henq⟩ := Prod.mk.inj heq
  exact ⟨s, hwritten, henq, streamIntact_of_writes hs⟩

/-- A write that fails with `EAGAIN` deletes the message: the next one follows on the socket, while
`HandlePollOut` reports that it will go on. -/
theorem eagain_drops_message :
    ∃ s : SendLink, (sendSystem 2).run (sendSystem 2).start
        [.enqueueBack ⟨1, 0, 1, 0, 0⟩ [7], .enqueueBack ⟨1, 0, 1, 1, 0⟩ [8], .dequeueFront,
          .failed .eagain, .dequeueFront, .wrote 16, .wrote 1] = some s ∧
      s.written = Frame.bytes ⟨⟨1, 0, 1, 1, 0⟩, [8]⟩ ∧ ¬ StreamIntact s := by
  refine TransitionSystem.exists_run (fun s => (s.written, s.enqueued)) (Frame.bytes ⟨⟨1, 0, 1, 1,
    0⟩, [8]⟩, [⟨⟨1, 0, 1, 0, 0⟩, [7]⟩, ⟨⟨1, 0, 1, 1, 0⟩, [8]⟩]) ?_ fun s _ heq => ?_
  · decide +kernel
  obtain ⟨hwritten, henq⟩ := Prod.mk.inj heq
  refine ⟨hwritten, fun hintact => ?_⟩
  have hpre := hintact.1
  rw [hwritten, henq] at hpre
  exact absurd hpre (by decide +kernel)

end AccLinks
