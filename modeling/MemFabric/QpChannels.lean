/-
Connections of the device transport.

What the queue pair managers keep for a rank they connect to (`ConnectionChannel`), and what
they hand to the device library to learn which sockets are connected (`SocketInfo`).
-/
import Mathlib

namespace Hybm

/-- `sockaddr_in`; the address 0 is none. -/
structure Net where
  addr : ℕ
  port : ℕ
  deriving DecidableEq

structure ConnectionChannel where
  remoteNet : Net := ⟨0, 0⟩
  socketHandle : Option ℕ := none
  socketFd : Option ℕ := none
  qpHandle : Option ℕ := none
  qpConnectCalled : Bool := false
  qpStatus : ℤ := -1
  deriving DecidableEq

namespace ConnectionChannel

/-- What `bzero` leaves. -/
def zero : ConnectionChannel := { qpStatus := 0 }

/-- The queue pair was made, `RaQpConnectAsync` was called for it, and it is ready. -/
def Established (c : ConnectionChannel) : Prop :=
  c.qpHandle.isSome ∧ c.qpConnectCalled = true ∧ c.qpStatus = 1

def withNet (c : ConnectionChannel) (net : Net) : ConnectionChannel := { c with remoteNet := net }

instance (c : ConnectionChannel) : Decidable c.Established := by
  unfold Established
  infer_instance

end ConnectionChannel

/-- `HccpSocketInfo`. -/
structure SocketInfo where
  handle : Option ℕ
  remoteIp : ℕ
  status : ℕ
  fd : Option ℕ

/-- What `RaGetSockets` writes. -/
def SocketInfo.answered : List SocketInfo → List (ℕ × Option ℕ) → List SocketInfo
  | info :: infos, (status, fd) :: answers =>
    { info with status := status, fd := fd } :: answered infos answers
  | infos, _ => infos

/-- The batches in which the sockets go to the library. -/
def batchCnt : ℕ := 16

end Hybm
