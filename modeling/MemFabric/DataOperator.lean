/-
What the RDMA data operators work on.

A data operator copies between the memory of its own rank and that of its peers, by calls
to the runtime and to the transport and by way of a swap space.  `OpState` is what these
calls change, and an `Environment` answers them: it may fail any of them, and it decides
when accepted asynchronous copies take place.

The status of a call is `Result`, with `BM_OK` for zero, so the code of an operator is a
`Program`.
-/
import MemFabric.Program
import MemFabric.RangePool
import MemFabric.VaManager

namespace Hybm

instance : Zero Result := ⟨.ok⟩

/-- `hybm_data_copy_direction`. -/
inductive CopyDirection
  | localHostToGlobalHost
  | localHostToGlobalDevice
  | localDeviceToGlobalHost
  | localDeviceToGlobalDevice
  | globalHostToGlobalHost
  | globalHostToGlobalDevice
  | globalHostToLocalHost
  | globalHostToLocalDevice
  | globalDeviceToGlobalHost
  | globalDeviceToGlobalDevice
  | globalDeviceToLocalHost
  | globalDeviceToLocalDevice
  | auto
  | butt
  deriving DecidableEq

/-- `hybm_copy_params`. -/
structure CopyParams where
  src : ℕ
  dest : ℕ
  dataSize : ℕ
  deriving DecidableEq

/-- `hybm_batch_copy_params`: the arrays by their elements, and where the two arrays of
pointers themselves are. -/
structure BatchCopyParams where
  items : List CopyParams
  sources : ℕ
  destinations : ℕ

/-- `ExtOptions`; a null stream is `none`. -/
structure ExtOptions where
  srcRankId : ℕ
  destRankId : ℕ
  stream : Option ℕ

/-- Copy `size` bytes from `src` on to `dst`; a place is a rank and an address there. -/
structure Transfer where
  src : ℕ × ℕ
  dst : ℕ × ℕ
  size : ℕ

def Transfer.perform (t : Transfer) (m : ℕ × ℕ → UInt8) : ℕ × ℕ → UInt8 := fun x =>
  if x.1 = t.dst.1 ∧ t.dst.2 ≤ x.2 ∧ x.2 < t.dst.2 + t.size then
    m (t.src.1, t.src.2 + (x.2 - t.dst.2))
  else m x

/-- One index of a `CopyDescriptor`. -/
structure Piece where
  localAddr : ℕ
  globalAddr : ℕ
  count : ℕ
  deriving DecidableEq

/-- `UpdateGvaSpace`: where the global space of a memory type begins, and what each rank has
of it. -/
structure GvaSpace where
  gva : ℕ
  localSpaceSize : ℕ
  rankCount : ℕ

/-- The members of an operator that its calls do not change. -/
structure DataOperator where
  inited : Bool
  rankId : ℕ
  rdmaSwapBaseAddr : ℕ
  rdmaSwapSpaceSize : ℕ
  spaces : MemType → GvaSpace

namespace DataOperator

variable (op : DataOperator)

def getRankIdByGva (gva : ℕ) : ℕ :=
  match [MemType.device, MemType.host].find? fun type => (op.spaces type).gva ≤ gva ∧
      gva < ((op.spaces type).gva +
        (op.spaces type).rankCount * (op.spaces type).localSpaceSize) % 2 ^ 64 with
  | some type => (gva - (op.spaces type).gva) / (op.spaces type).localSpaceSize % 2 ^ 32
  | none => invalidRankId

/-- The rank of a global address as `ClassifyDataAddr` takes it: the one of the options where
the address is in no global space. -/
def rankOf (globalRankId gva : ℕ) : ℕ :=
  if op.getRankIdByGva gva = invalidRankId then globalRankId else op.getRankIdByGva gva

def copyHere (src dest size : ℕ) : Transfer := ⟨(op.rankId, src), (op.rankId, dest), size⟩

/-- What `WriteRemote` and its variants transfer. -/
def writeTo (rank lAddr rAddr size : ℕ) : Transfer := ⟨(op.rankId, lAddr), (rank, rAddr), size⟩

/-- What `ReadRemote` and its variants transfer. -/
def readFrom (rank lAddr rAddr size : ℕ) : Transfer := ⟨(rank, rAddr), (op.rankId, lAddr), size⟩

end DataOperator

/-! ### Calls -/

inductive MemcpyKind
  | hostToHost
  | hostToDevice
  | deviceToHost
  | deviceToDevice
  deriving DecidableEq

/-- What an accepted asynchronous copy is waited for on: a stream (`none` is that of the
thread), or the connection to a rank. -/
inductive Channel
  | stream (st : Option ℕ)
  | rank (rankId : ℕ)
  deriving DecidableEq

/-- The calls to the runtime and to the transport. -/
inductive Call
  | memcpy (kind : MemcpyKind) (t : Transfer)
  | memcpyAsync (kind : MemcpyKind) (st : Option ℕ) (t : Transfer)
  | streamSynchronize (st : Option ℕ)
  | remote (rankId : ℕ) (t : Transfer)
  | remoteAsync (rankId : ℕ) (t : Transfer)
  | remoteBatchAsync (rankId : ℕ) (ts : List Transfer)
  | synchronize (rankId : ℕ)
  | registerMemoryRegion (addr size : ℕ)
  | unregisterMemoryRegion (addr : ℕ)

/-- What the calls of an operator change.  The last two fields are a log of the regions that were
registered and unregistered. -/
structure OpState where
  memory : ℕ × ℕ → UInt8
  pool : RangePool
  mrs : OrderedMap ℕ ℕ
  pending : List (Channel × Transfer)
  calls : ℕ
  registrations : List (ℕ × ℕ)
  unregistrations : List (ℕ × ℕ)

/-- How the calls are answered. -/
structure Environment where
  outcome : OpState → Call → Result
  /-- How much of a batch that fails has been accepted. -/
  accepted : OpState → Call → ℕ
  /-- The order in which accepted copies take place. -/
  order : List Transfer → List Transfer
  order_perm : ∀ ts, (order ts).Perm ts
  /-- The order in which an `unordered_map` is iterated. -/
  iterate : List (ℕ × List Piece) → List (ℕ × List Piece)
  iterate_perm : ∀ groups, (iterate groups).Perm groups
  /-- `HybmVaManager::InferCopyDirection`. -/
  inferCopyDirection : ℕ → ℕ → CopyDirection

namespace OpState

variable (s : OpState)

def counted : OpState :=
  { s with calls := s.calls + 1 }

def perform (ts : List Transfer) : OpState :=
  { s with memory := ts.foldl (fun m t => t.perform m) s.memory }

def accept (channel : Channel) (ts : List Transfer) : OpState :=
  { s with pending := s.pending ++ ts.map fun t => (channel, t) }

def waiting (channel : Channel) : List Transfer :=
  (s.pending.filter fun p => p.1 = channel).map Prod.snd

def complete (env : Environment) (channel : Channel) : OpState :=
  { s with
    memory := (env.order (s.waiting channel)).foldl (fun m t => t.perform m) s.memory
    pending := s.pending.filter fun p => p.1 ≠ channel }

def withPool (pool : RangePool) : OpState := { s with pool := pool }

/-- The destructor of an `AllocatedElement`. -/
def free (element : AllocatedElement) : OpState :=
  { s with pool := (s.pool.release element).2 }

def enter (addr size : ℕ) : OpState :=
  { s with
    mrs := s.mrs.emplace addr size
    registrations := s.registrations ++ [(addr, size)] }

def remove (addr size : ℕ) : OpState :=
  { s with
    mrs := s.mrs.erase addr
    unregistrations := s.unregistrations ++ [(addr, size)] }

/-- `ComposeTransportManager::QueryHasRegistered`; its map is ordered downwards, so its
`lower_bound` is the last region that does not begin behind the address. -/
def queryHasRegistered (addr size : ℕ) : Bool :=
  match s.mrs.upTo addr with
  | none => false
  | some (first, regionSize) => (addr + size) % 2 ^ 64 ≤ (first + regionSize) % 2 ^ 64

end OpState

variable (env : Environment)

def call (c : Call) : Program OpState Result := fun s => (env.outcome s c, s.counted)

def memcpy (kind : MemcpyKind) (t : Transfer) : Program OpState Result :=
  (call env (.memcpy kind t)).andThen (.modify fun s => s.perform [t])

def memcpyAsync (kind : MemcpyKind) (st : Option ℕ) (t : Transfer) : Program OpState Result :=
  (call env (.memcpyAsync kind st t)).andThen (.modify fun s => s.accept (.stream st) [t])

def streamSynchronize (st : Option ℕ) : Program OpState Result :=
  (call env (.streamSynchronize st)).andThen (.modify fun s => s.complete env (.stream st))

/-- `ReadRemote` and `WriteRemote`. -/
def remote (rankId : ℕ) (t : Transfer) : Program OpState Result :=
  (call env (.remote rankId t)).andThen (.modify fun s => s.perform [t])

/-- `ReadRemoteAsync` and `WriteRemoteAsync`. -/
def remoteAsync (rankId : ℕ) (t : Transfer) : Program OpState Result :=
  (call env (.remoteAsync rankId t)).andThen (.modify fun s => s.accept (.rank rankId) [t])

/-- `ReadRemoteBatchAsync` and `WriteRemoteBatchAsync`; one that fails may have accepted a part
of the batch. -/
def remoteBatchAsync (rankId : ℕ) (ts : List Transfer) : Program OpState Result := fun s =>
  (env.outcome s (.remoteBatchAsync rankId ts), s.counted.accept (.rank rankId)
      (if env.outcome s (.remoteBatchAsync rankId ts) = 0 then ts
        else ts.take (env.accepted s (.remoteBatchAsync rankId ts))))

/-- `Synchronize` of the transport. -/
def synchronize (rankId : ℕ) : Program OpState Result :=
  (call env (.synchronize rankId)).andThen (.modify fun s => s.complete env (.rank rankId))

/-- `ComposeTransportManager::RegisterMemoryRegion`; the call is to the transports below. -/
def registerMemoryRegion (addr size : ℕ) : Program OpState Result :=
  (call env (.registerMemoryRegion addr size)).andThen (.modify fun s => s.enter addr size)

/-- `ComposeTransportManager::UnregisterMemoryRegion`. -/
def unregisterMemoryRegion (addr : ℕ) : Program OpState Result := fun s =>
  match s.mrs.lookup addr with
  | none => (.invalidParam, s)
  | some size =>
    (call env (.unregisterMemoryRegion addr)).andThen (.modify fun s => s.remove addr size) s

/-- Allocate from the swap space, run `body` with the address, and release the range on the way
out. -/
def withSwap (size : ℕ) (body : ℕ → Program OpState Result) : Program OpState Result := fun s =>
  match s.pool.allocate size with
  | (none, pool) => (.mallocFailed, s.withPool pool)
  | (some element, pool) =>
    ((body element.startAddress).finish (.modify fun s => s.free element)) (s.withPool pool)

/-! ### Rules for the calls -/

section

variable {env} {P Q E : OpState → Prop}

open Program (Triple)

theorem triple_call {c : Call} {f : OpState → OpState}
    (hok : ∀ s, P s → env.outcome s c = 0 → Q (f s.counted))
    (hfail : ∀ s, P s → env.outcome s c ≠ 0 → E s.counted) :
    Triple P ((call env c).andThen (.modify f)) Q E := by
  intro s hs
  unfold Program.andThen
  by_cases hr : (call env c s).1 = 0
  · rw [if_pos hr]
    exact ⟨fun _ => hok s hs hr, fun h => absurd rfl h⟩
  · rw [if_neg hr]
    exact ⟨fun h => absurd h hr, fun _ => hfail s hs hr⟩

theorem triple_withSwap {size : ℕ} {body : ℕ → Program OpState Result}
    (hnone : ∀ s, P s → (s.pool.allocate size).1 = none → E (s.withPool (s.pool.allocate size).2))
    (hsome : ∀ element, Triple (fun s' => ∃ s, P s ∧ (s.pool.allocate size).1 = some element ∧
        s' = s.withPool (s.pool.allocate size).2)
      (body element.startAddress) (fun s => Q (s.free element)) fun s => E (s.free element)) :
    Triple P (withSwap size body) Q E := by
  intro s hs
  unfold withSwap
  rcases hal : s.pool.allocate size with ⟨_ | element, pool⟩
  · have hE := hnone s hs (by rw [hal])
    rw [hal] at hE
    have hr : Result.mallocFailed ≠ 0 := by decide
    exact ⟨fun h => absurd h hr, fun _ => hE⟩
  · exact ((hsome element).finish (.modify fun _ hs => hs) (.modify fun _ hs => hs)) _
      ⟨s, hs, by rw [hal], by rw [hal]⟩

end

end Hybm
