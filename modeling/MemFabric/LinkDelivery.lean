/-
A link from end to end.

What `HandlePollOut` of one end has written is what `HandlePollIn` of the other end receives, in
pieces of any size.
-/
import MemFabric.LinkReceive
import MemFabric.LinkSend

namespace AccLinks

open List Option TransitionSystem

/-- The receiving end of a link on which these bytes have arrived. -/
def arrivalSystem (bytes : Bytes) : TransitionSystem ReceiveLink PollIn where
  start := ⟨.initial, ⟨bytes, .success⟩, []⟩
  next := receiveNext

/-- The messages that have come in completely have been reported, and nothing else; these are
all once nothing is on the way. -/
def Delivered (s : SendLink) (r : ReceiveLink) : Prop :=
  r.results.filterMap PollResult.message =
      completeFrames s.enqueued (s.written.length - r.socket.incoming.length) ∧
    (∀ result ∈ r.results, result.isError = false) ∧
    (s.unsent = [] → r.socket.incoming = [] →
      r.results.filterMap PollResult.message = s.enqueued)

/-! More bytes behind what has arrived make no difference to a call. -/

def Socket.push (sock : Socket) (bytes : Bytes) : Socket :=
  { sock with incoming := sock.incoming ++ bytes }

def ReceiveLink.push (s : ReceiveLink) (bytes : Bytes) : ReceiveLink :=
  { s with socket := s.socket.push bytes }

section Push

variable {s s' : ReceiveState} {sock sock' : Socket} {e : PollIn} {r : PollResult}
  {event : RecvEvent} (more : Bytes)

theorem Socket.recv_push {len : ℕ} {result : ℤ} {bytes : Bytes}
    (h : sock.recv len event = some (result, bytes, sock')) :
    (sock.push more).recv len event = some (result, bytes, sock'.push more) := by
  have hall : (sock.push more).incoming = sock.incoming ++ more := rfl
  cases event with
  | eagain =>
    cases h
    rfl
  | chunk size => grind [recv, push, append_eq_nil_iff]

theorem receiveBody_push (h : receiveBody s sock event = some (s', sock', r)) :
    receiveBody s (sock.push more) event = some (s', sock'.push more, r) := by
  rw [receiveBody] at h ⊢
  split at h
  · cases h
  next hrecv => grind [Socket.recv_push more hrecv, Socket.push]

theorem handlePollIn_push (h : handlePollIn s sock e = some (s', sock', r)) :
    handlePollIn s (sock.push more) e = some (s', sock'.push more, r) := by
  rw [handlePollIn] at h ⊢
  by_cases hhdr : 0 < s.headerToBeReceived
  · rw [if_pos hhdr] at h ⊢
    split at h
    · cases h
    next result bytes sock₁ hrecv =>
      have hpush : ({ sock.push more with errno := e.errno } : Socket).recv _ _ = _ :=
        Socket.recv_push more hrecv
      have herrno : (sock₁.push more).errno = sock₁.errno := rfl
      rw [hpush]
      grind [receiveBody_push]
  · rw [if_neg hhdr] at h ⊢
    exact receiveBody_push more h

theorem receiveNext_push {t t' : ReceiveLink} (h : receiveNext t e = some t') :
    receiveNext (t.push more) e = some (t'.push more) := by
  rw [receiveNext] at h ⊢
  obtain ⟨hlive, h⟩ := ite_none_left_eq_some.mp h
  split at h
  · cases h
  next hpoll =>
    cases h
    rw [ReceiveLink.push, if_neg hlive]
    simp only [handlePollIn_push more hpoll]
    rfl

end Push

/-- If no write fails and no message is empty or too large, the receiver reports each message whose
bytes have all come in once, as it was sent and in order. -/
theorem delivered_of_writes {sizeCap : ℕ} {s : SendLink} {r : ReceiveLink}
    (hs : (sendSystem sizeCap).ReachableBy Writes s)
    (hframes : ∀ f ∈ s.enqueued, f.WellFormed ∧ f.body ≠ [])
    (hr : (arrivalSystem s.written).Reachable r) : Delivered s r := by
  have hbal : s.written ++ s.unsent = stream s.enqueued := by
    refine SendInv.balance (hs.invariant ⟨trivial, rfl⟩ ?_)
    intro s s' a hinv hok hnext
    exact sendInv_next hinv hok hnext
  -- With the unsent bytes behind it, the receiver is on the frames of all messages.
  have hinv : ReceiveInv s.enqueued (r.push s.unsent) := by
    refine hr.invariant (I := fun r => ReceiveInv s.enqueued (r.push s.unsent)) ?_ ?_
    · exact ⟨[], s.enqueued, rfl, rfl, by simp [arrivalSystem, ReceiveLink.push],
        .inl ⟨0, rfl, by decide, length_replicate .., rfl, hbal⟩⟩
    · intro r r' e h _ hnext
      exact receiveInv_next (fun f hf => (hframes f hf).1) (fun f hf => (hframes f hf).2) h
        (receiveNext_push _ hnext)
  obtain ⟨hmessages, herrors⟩ := hinv.reassembled
  have hreceived : (r.push s.unsent).received s.enqueued =
      s.written.length - r.socket.incoming.length := by
    rw [ReceiveLink.received, ← hbal]
    simp only [ReceiveLink.push, Socket.push, length_append]
    omega
  rw [hreceived] at hmessages
  refine ⟨hmessages, herrors, fun hsent hempty => hmessages.trans ?_⟩
  have hall := completeFrames_append s.enqueued [] 0
  rw [append_nil] at hall
  rw [hsent, append_nil] at hbal
  rw [hempty, hbal]
  exact hall.trans (append_nil _)

def shortFrame : Frame := ⟨⟨1, 0, 1, 0, 0⟩, [7]⟩

/-- A message is written in two pieces and received in three. -/
theorem delivered_short_frame :
    ∃ s r, s.enqueued = [shortFrame] ∧ r.results = [.eagain, .msgReady shortFrame.header [7]] ∧
      Delivered s r := by
  have hsend : (((sendSystem 1).restrict Writes).run (sendSystem 1).start
      [.enqueueBack shortFrame.header [7], .dequeueFront, .wrote 16, .wrote 1]).map
        (fun s => (s.written, s.enqueued)) = some (shortFrame.bytes, [shortFrame]) := by
    decide +kernel
  have hpoll : ((arrivalSystem shortFrame.bytes).run (arrivalSystem shortFrame.bytes).start
      [⟨.success, .chunk 10, .eagain⟩, ⟨.other, .chunk 6, .chunk 1⟩]).map ReceiveLink.results =
      some [.eagain, .msgReady shortFrame.header [7]] := by
    decide +kernel
  obtain ⟨s, hs, heq⟩ := exists_of_run_restrict hsend
  obtain ⟨hwritten, henq⟩ := Prod.mk.inj heq
  obtain ⟨r, hr, hresults⟩ := exists_of_run hpoll
  exact ⟨s, r, henq, hresults,
    delivered_of_writes hs (by rw [henq]; decide) (by rw [hwritten]; exact hr)⟩

end AccLinks
