/-
The host RDMA operator.

`HostDataOpRDMA` copies between local memory and the global space of the hosts.  What is
on another rank goes through the swap space, which the transport can reach, unless the
local buffers of a batch are registered themselves.  `DataCopy` and `BatchDataCopy`
register the local side of a large copy before and unregister it behind.
-/
import MemFabric.DataOperator

namespace Hybm

open Program (Triple Keeps)

/-- `HYBM_PRE_REG_SIZE_THRES`. -/
def preRegSizeThres : ℕ := 8192 * 1024

def smallIoLimitSize : ℕ := 1024 * 8

/-- The values of `hybm_data_copy_direction`. -/
def CopyDirection.ordinal : CopyDirection → ℕ
  | .localHostToGlobalHost => 0
  | .localHostToGlobalDevice => 1
  | .localDeviceToGlobalHost => 2
  | .localDeviceToGlobalDevice => 3
  | .globalHostToGlobalHost => 4
  | .globalHostToGlobalDevice => 5
  | .globalHostToLocalHost => 6
  | .globalHostToLocalDevice => 7
  | .globalDeviceToGlobalHost => 8
  | .globalDeviceToGlobalDevice => 9
  | .globalDeviceToLocalHost => 10
  | .globalDeviceToLocalDevice => 11
  | .auto => 12
  | .butt => 13

/-- Where each piece of a run stands in the swap memory from `tmpHost` on. -/
def placePieces : ℕ → List Piece → List (ℕ × Piece)
  | _, [] => []
  | tmpHost, piece :: pieces => (tmpHost, piece) :: placePieces (tmpHost + piece.count) pieces

/-- The longest run of pieces whose sizes, with `sum` before them, fit into `limit`, and the
pieces behind it. -/
def packRun (limit : ℕ) : ℕ → List Piece → List Piece × List Piece
  | _, [] => ([], [])
  | sum, piece :: pieces =>
    let next := (sum + piece.count) % 2 ^ 64
    if next ≤ limit then (piece :: (packRun limit next pieces).1, (packRun limit next pieces).2)
    else ([], piece :: pieces)

/-- `currentBatchDataSize` of a run. -/
def runSize (pieces : List Piece) : ℕ := (pieces.map Piece.count).sum % 2 ^ 64

def pushPiece (rank : ℕ) (piece : Piece) : List (ℕ × List Piece) → List (ℕ × List Piece)
  | [] => [(rank, [piece])]
  | (r, pieces) :: groups =>
    if r = rank then (r, pieces ++ [piece]) :: groups
    else (r, pieces) :: pushPiece rank piece groups

namespace BatchCopyParams

/-- The elements of a batch whose destinations are global, as a descriptor. -/
def toGlobal (params : BatchCopyParams) : List Piece :=
  params.items.map fun item => ⟨item.src, item.dest, item.dataSize⟩

/-- The elements of a batch whose sources are global, as a descriptor. -/
def fromGlobal (params : BatchCopyParams) : List Piece :=
  params.items.map fun item => ⟨item.dest, item.src, item.dataSize⟩

/-- The parameters that the batch registers: the addresses of the pointers, with the size of
the data. -/
def slots (params : BatchCopyParams) : List CopyParams :=
  params.items.zipIdx.map fun item =>
    ⟨params.sources + 8 * item.2, params.destinations + 8 * item.2, item.1.dataSize⟩

end BatchCopyParams

namespace HostRdma

variable (op : DataOperator) (env : Environment)

/-! ### The local region -/

def getLocalMrAddr (params : CopyParams) (direction : CopyDirection) : ℕ :=
  let realDirection := if direction = .auto then env.inferCopyDirection params.src params.dest
    else direction
  if realDirection.ordinal ≤ CopyDirection.localDeviceToGlobalDevice.ordinal then params.src
  else params.dest

/-- `PreRegisterLocalMr`; a failure is only logged. -/
def preRegisterLocalMr (params : CopyParams) (direction : CopyDirection) :
    Program OpState Result := fun s =>
  if params.dataSize ≤ preRegSizeThres then (0, s)
  else if s.queryHasRegistered (getLocalMrAddr env params direction) params.dataSize then (0, s)
  else (registerMemoryRegion env (getLocalMrAddr env params direction) params.dataSize).ignore s

variable (params : BatchCopyParams) (direction : CopyDirection) (options : ExtOptions)

def batchPreRegisterLocalMr : Program OpState Result :=
  .forEach (fun param => preRegisterLocalMr env param direction) params.slots

def batchUnRegisterLocalMr : Program OpState Result :=
  .forEach (fun param => (unregisterMemoryRegion env (getLocalMrAddr env param direction)).ignore)
    params.slots

/-! ### One copy -/

/-- `SafePut`; `kind` is `HOST_TO_HOST` for a local host and `DEVICE_TO_HOST` else. -/
def safePut (kind : MemcpyKind) (rankId : ℕ) : ℕ → ℕ → ℕ → ℕ → Program OpState Result
  | 0, _, _, _ => .give 0
  | fuel + 1, src, dest, remainingLength =>
    if remainingLength = 0 then .give 0
    else
      let currentChunkSize := min remainingLength op.rdmaSwapSpaceSize
      (withSwap currentChunkSize fun tmpHost =>
        (memcpy env kind (op.copyHere src tmpHost currentChunkSize)).andThen
          (remote env rankId (op.writeTo rankId tmpHost dest currentChunkSize))).andThen
      (safePut kind rankId fuel (src + currentChunkSize) (dest + currentChunkSize)
        (remainingLength - currentChunkSize))

def safeGet (kind : MemcpyKind) (rankId : ℕ) : ℕ → ℕ → ℕ → ℕ → Program OpState Result
  | 0, _, _, _ => .give 0
  | fuel + 1, src, dest, remainingLength =>
    if remainingLength = 0 then .give 0
    else
      let currentChunkSize := min remainingLength op.rdmaSwapSpaceSize
      (withSwap currentChunkSize fun tmpHost =>
        (remote env rankId (op.readFrom rankId tmpHost src currentChunkSize)).andThen
          (memcpy env kind (op.copyHere tmpHost dest currentChunkSize))).andThen
      (safeGet kind rankId fuel (src + currentChunkSize) (dest + currentChunkSize)
        (remainingLength - currentChunkSize))

/-- To the own rank by a copy, to another one by `SafePut`; every round handles at least one
byte, so there are no more rounds than bytes. -/
def putTo (kind : MemcpyKind) (src dest length : ℕ) (options : ExtOptions) :
    Program OpState Result :=
  if options.destRankId = op.rankId then memcpy env kind (op.copyHere src dest length)
  else safePut op env kind options.destRankId length src dest length

def getFrom (kind : MemcpyKind) (src dest length : ℕ) (options : ExtOptions) :
    Program OpState Result :=
  if options.srcRankId = op.rankId then memcpy env kind (op.copyHere src dest length)
  else safeGet op env kind options.srcRankId length src dest length

def copyHost2Gva := putTo op env .hostToHost

def copyDevice2Gva := putTo op env .deviceToHost

def copyGva2Host := getFrom op env .hostToHost

def copyGva2Device := getFrom op env .hostToDevice

def copyGva2Gva (src dest length : ℕ) (options : ExtOptions) : Program OpState Result :=
  if options.srcRankId = op.rankId then copyHost2Gva op env src dest length options
  else if options.destRankId = op.rankId then copyGva2Host op env src dest length options
  else .give .invalidParam

/-- The switch of `DataCopy`. -/
def copyByDirection (params : CopyParams) (direction : CopyDirection) (options : ExtOptions) :
    Program OpState Result :=
  match direction with
  | .localHostToGlobalHost => copyHost2Gva op env params.src params.dest params.dataSize options
  | .localDeviceToGlobalHost =>
    copyDevice2Gva op env params.src params.dest params.dataSize options
  | .globalHostToGlobalHost => copyGva2Gva op env params.src params.dest params.dataSize options
  | .globalHostToLocalHost => copyGva2Host op env params.src params.dest params.dataSize options
  | .globalHostToLocalDevice =>
    copyGva2Device op env params.src params.dest params.dataSize options
  | _ => .give .invalidParam

def dataCopy (params : CopyParams) (direction : CopyDirection) (options : ExtOptions) :
    Program OpState Result :=
  if op.inited then
    (preRegisterLocalMr env params direction).andThen
      ((copyByDirection op env params direction options).finish
        (unregisterMemoryRegion env (getLocalMrAddr env params direction)).ignore)
  else .give .notInitialized

/-! ### A batch -/

def batchMemcpyAsync (kind : MemcpyKind) (items : List CopyParams) (options : ExtOptions) :
    Program OpState Result :=
  (Program.forEach (fun item =>
    (memcpyAsync env kind options.stream
      (op.copyHere item.src item.dest item.dataSize)).failWith .dlFunctionFailed) items).andThen
  (streamSynchronize env options.stream)

def batchCopyLD2LH := batchMemcpyAsync op env .deviceToHost

def batchCopyLH2LD := batchMemcpyAsync op env .hostToDevice

def batchCopyLH2LH (items : List CopyParams) : Program OpState Result :=
  .forEach (fun item => memcpy env .hostToHost (op.copyHere item.src item.dest item.dataSize)) items

/-- `ClassifyDataAddr`: the descriptors of the other ranks, and that of the own one. -/
def classifyDataAddr (globalRankId : ℕ) (pieces : List Piece) :
    List (ℕ × List Piece) × List (ℕ × List Piece) :=
  pieces.foldl (fun maps piece =>
    let gvaRankId := op.rankOf globalRankId piece.globalAddr
    if gvaRankId = op.rankId then (maps.1, pushPiece gvaRankId piece maps.2)
    else (pushPiece gvaRankId piece maps.1, maps.2)) ([], [])

/-- The loop that the four batches through the swap space share.  `step` gets the pieces of a
run with their addresses in the swap memory; a run is never empty, so there are no more rounds
than pieces. -/
def throughSwap (step : List (ℕ × Piece) → Program OpState Result) :
    ℕ → List Piece → Program OpState Result
  | 0, _ => .give 0
  | fuel + 1, pieces =>
    if pieces = [] then .give 0
    else
      let run := packRun op.rdmaSwapSpaceSize 0 pieces
      if runSize run.1 = 0 then .give .invalidParam
      else
        (withSwap (runSize run.1) fun tmpHost => step (placePieces tmpHost run.1)).andThen
          (throughSwap step fuel run.2)

/-- Submit the transfers to a rank and wait for them, also where a submission fails. -/
def submitAll (rankId : ℕ) (ts : List Transfer) : Program OpState Result :=
  (Program.forEach (fun t => remoteAsync env rankId t) ts).finish (synchronize env rankId)

def intoSwap (placed : List (ℕ × Piece)) : List CopyParams :=
  placed.map fun place => ⟨place.2.localAddr, place.1, place.2.count⟩

def outOfSwap (placed : List (ℕ × Piece)) : List CopyParams :=
  placed.map fun place => ⟨place.1, place.2.localAddr, place.2.count⟩

/-- `InnerBatchWriteLH2RH`. -/
def innerBatchWrite (rankId : ℕ) (placed : List (ℕ × Piece)) : Program OpState Result :=
  submitAll env rankId
    (placed.map fun place => op.writeTo rankId place.1 place.2.globalAddr place.2.count)

/-- `InnerBatchReadRH2LH`. -/
def innerBatchRead (rankId : ℕ) (placed : List (ℕ × Piece)) : Program OpState Result :=
  submitAll env rankId
    (placed.map fun place => op.readFrom rankId place.1 place.2.globalAddr place.2.count)

def batchWrite (copyIn : List CopyParams → Program OpState Result) (rankId : ℕ)
    (pieces : List Piece) : Program OpState Result :=
  throughSwap op (fun placed => (copyIn (intoSwap placed)).andThen
    (innerBatchWrite op env rankId placed)) pieces.length pieces

def batchRead (copyOut : List CopyParams → Program OpState Result) (rankId : ℕ)
    (pieces : List Piece) : Program OpState Result :=
  throughSwap op (fun placed => (innerBatchRead op env rankId placed).andThen
    (copyOut (outOfSwap placed))) pieces.length pieces

def batchWriteLD2RH (rmtRankId : ℕ) (pieces : List Piece) (options : ExtOptions) :=
  batchWrite op env
    (fun items => batchCopyLD2LH op env items { options with destRankId := rmtRankId })
    rmtRankId pieces

def batchReadRH2LD (rmtRankId : ℕ) (pieces : List Piece) (options : ExtOptions) :=
  batchRead op env
    (fun items => batchCopyLH2LD op env items { options with srcRankId := rmtRankId })
    rmtRankId pieces

def batchWriteLH2RH (pieces : List Piece) (options : ExtOptions) :=
  batchWrite op env (batchCopyLH2LH op env) options.destRankId pieces

def batchReadRH2LH (pieces : List Piece) (options : ExtOptions) :=
  batchRead op env (batchCopyLH2LH op env) options.srcRankId pieces

def batchCopyLD2GH (pieces : List Piece) (options : ExtOptions) : Program OpState Result :=
  let maps := classifyDataAddr op options.destRankId pieces
  (Program.forEach (fun it => batchCopyLD2LH op env
    (it.2.map fun piece => ⟨piece.localAddr, piece.globalAddr, piece.count⟩)
    { options with destRankId := it.1 }) (env.iterate maps.2)).andThen
  (.forEach (fun it => batchWriteLD2RH op env it.1 it.2 options) (env.iterate maps.1))

def batchCopyGH2LD (pieces : List Piece) (options : ExtOptions) : Program OpState Result :=
  let maps := classifyDataAddr op options.srcRankId pieces
  (Program.forEach (fun it => batchCopyLH2LD op env
    (it.2.map fun piece => ⟨piece.globalAddr, piece.localAddr, piece.count⟩)
    { options with srcRankId := it.1 }) (env.iterate maps.2)).andThen
  (.forEach (fun it => batchReadRH2LD op env it.1 it.2 options) (env.iterate maps.1))

/-- The other rank of a copy between global addresses; `isPut` is that the source is own. -/
def peerOf : ℕ :=
  if options.srcRankId = op.rankId then options.destRankId else options.srcRankId

def gvaTransfer (item : CopyParams) : Transfer :=
  if options.srcRankId = op.rankId then
    op.writeTo options.destRankId item.src item.dest item.dataSize
  else op.readFrom options.srcRankId item.dest item.src item.dataSize

def submitSmallIo (peer : ℕ) (ts : List Transfer) : Program OpState Result :=
  if ts = [] then .give 0 else remoteBatchAsync env peer ts

/-- `BatchCopyGH2GH`: small elements in one batch, then the other ones each alone. -/
def batchCopyGH2GH (items : List CopyParams) (options : ExtOptions) : Program OpState Result :=
  let smallIo := items.filter fun item => item.dataSize ≤ smallIoLimitSize
  let bigIo := items.filter fun item => ¬ item.dataSize ≤ smallIoLimitSize
  ((submitSmallIo env (peerOf op options) (smallIo.map (gvaTransfer op options))).andThen
    (.forEach (fun t => remoteAsync env (peerOf op options) t)
      (bigIo.map (gvaTransfer op options)))).finish
  (synchronize env (peerOf op options))

def allRegistered (s : OpState) (pieces : List Piece) : Bool :=
  pieces.all fun piece => s.queryHasRegistered piece.localAddr piece.count

def batchCopyLH2GH : Program OpState Result := fun s =>
  if options.destRankId = op.rankId then batchCopyLH2LH op env params.items s
  else if allRegistered s params.toGlobal then batchCopyGH2GH op env params.items options s
  else batchWriteLH2RH op env params.toGlobal options s

def batchCopyGH2LH : Program OpState Result := fun s =>
  if options.srcRankId = op.rankId then batchCopyLH2LH op env params.items s
  else if allRegistered s params.fromGlobal then batchCopyGH2GH op env params.items options s
  else batchReadRH2LH op env params.fromGlobal options s

/-- The switch of `BatchDataCopy`. -/
def batchCopyByDirection : Program OpState Result :=
  match direction with
  | .localDeviceToGlobalHost => batchCopyLD2GH op env params.toGlobal options
  | .globalHostToLocalDevice => batchCopyGH2LD op env params.fromGlobal options
  | .localHostToGlobalHost => batchCopyLH2GH op env params options
  | .globalHostToLocalHost => batchCopyGH2LH op env params options
  | .globalHostToGlobalHost => batchCopyGH2GH op env params.items options
  | _ => .give .invalidParam

def batchDataCopy : Program OpState Result :=
  if op.inited then
    (batchPreRegisterLocalMr env params direction).andThen
      ((batchCopyByDirection op env params direction options).finish
        (batchUnRegisterLocalMr env params direction))
  else .give .notInitialized

/-! ### What every path keeps -/

/-- `I` is kept by the parts that the copies are put together from. -/
structure Kept (I : OpState → Prop) : Prop where
  memcpy : ∀ kind t, Keeps I (memcpy env kind t)
  remote : ∀ rankId t, Keeps I (remote env rankId t)
  batchMemcpyAsync : ∀ kind items options, Keeps I (batchMemcpyAsync op env kind items options)
  submitAll : ∀ rankId ts, Keeps I (submitAll env rankId ts)
  batchCopyGH2GH : ∀ items options, Keeps I (batchCopyGH2GH op env items options)
  withSwap : ∀ {size body}, (∀ tmpHost, Keeps I (body tmpHost)) → Keeps I (withSwap size body)

namespace Kept

variable {op env} {I : OpState → Prop}

section

variable (h : Kept op env I) (kind : MemcpyKind)
include h kind

theorem safePut (rankId fuel src dest length : ℕ) :
    Keeps I (safePut op env kind rankId fuel src dest length) := by
  induction fuel generalizing src dest length with
  | zero => exact .give_zero fun _ hs => hs
  | succ fuel ih =>
    unfold HostRdma.safePut
    split
    · exact .give_zero fun _ hs => hs
    · exact (h.withSwap fun tmpHost => (h.memcpy _ _).andThen (h.remote _ _)).andThen (ih _ _ _)

theorem safeGet (rankId fuel src dest length : ℕ) :
    Keeps I (safeGet op env kind rankId fuel src dest length) := by
  induction fuel generalizing src dest length with
  | zero => exact .give_zero fun _ hs => hs
  | succ fuel ih =>
    unfold HostRdma.safeGet
    split
    · exact .give_zero fun _ hs => hs
    · exact (h.withSwap fun tmpHost => (h.remote _ _).andThen (h.memcpy _ _)).andThen (ih _ _ _)

theorem putTo (src dest length : ℕ)
    (options : ExtOptions) : Keeps I (putTo op env kind src dest length options) := by
  unfold HostRdma.putTo
  split
  · exact h.memcpy _ _
  · exact h.safePut _ _ _ _ _ _

theorem getFrom (src dest length : ℕ)
    (options : ExtOptions) : Keeps I (getFrom op env kind src dest length options) := by
  unfold HostRdma.getFrom
  split
  · exact h.memcpy _ _
  · exact h.safeGet _ _ _ _ _ _

end

theorem invalidParam : Keeps I (Program.give Result.invalidParam) :=
  .give (by decide) fun _ hs => hs

section

variable (h : Kept op env I)
include h

theorem copyByDirection (params : CopyParams) (direction : CopyDirection)
    (options : ExtOptions) : Keeps I (copyByDirection op env params direction options) := by
  unfold HostRdma.copyByDirection
  split
  · exact h.putTo _ _ _ _ _
  · exact h.putTo _ _ _ _ _
  · unfold copyGva2Gva
    split
    · exact h.putTo _ _ _ _ _
    split
    · exact h.getFrom _ _ _ _ _
    · exact invalidParam
  · exact h.getFrom _ _ _ _ _
  · exact h.getFrom _ _ _ _ _
  · exact invalidParam

theorem batchCopyLH2LH (items : List CopyParams) : Keeps I (batchCopyLH2LH op env items) :=
  .forEach_inv fun _ _ => h.memcpy _ _

theorem throughSwap {step : List (ℕ × Piece) → Program OpState Result}
    (hstep : ∀ placed, Keeps I (step placed)) (fuel : ℕ) (pieces : List Piece) :
    Keeps I (throughSwap op step fuel pieces) := by
  induction fuel generalizing pieces with
  | zero => exact .give_zero fun _ hs => hs
  | succ fuel ih =>
    unfold HostRdma.throughSwap
    split
    · exact .give_zero fun _ hs => hs
    simp only
    split
    · exact invalidParam
    · exact (h.withSwap fun tmpHost => hstep _).andThen (ih _)

theorem batchWrite {copyIn : List CopyParams → Program OpState Result}
    (hcopy : ∀ items, Keeps I (copyIn items)) (rankId : ℕ) (pieces : List Piece) :
    Keeps I (batchWrite op env copyIn rankId pieces) :=
  h.throughSwap (fun _ => (hcopy _).andThen (h.submitAll _ _)) _ _

theorem batchRead {copyOut : List CopyParams → Program OpState Result}
    (hcopy : ∀ items, Keeps I (copyOut items)) (rankId : ℕ) (pieces : List Piece) :
    Keeps I (batchRead op env copyOut rankId pieces) :=
  h.throughSwap (fun _ => (h.submitAll _ _).andThen (hcopy _)) _ _

theorem batchCopyByDirection (params : BatchCopyParams)
    (direction : CopyDirection) (options : ExtOptions) :
    Keeps I (batchCopyByDirection op env params direction options) := by
  unfold HostRdma.batchCopyByDirection
  split
  · exact Triple.andThen (.forEach_inv fun _ _ => h.batchMemcpyAsync _ _ _)
      (.forEach_inv fun _ _ => h.batchWrite (fun _ => h.batchMemcpyAsync _ _ _) _ _)
  · exact Triple.andThen (.forEach_inv fun _ _ => h.batchMemcpyAsync _ _ _)
      (.forEach_inv fun _ _ => h.batchRead (fun _ => h.batchMemcpyAsync _ _ _) _ _)
  · intro s hs
    unfold batchCopyLH2GH
    split
    · exact h.batchCopyLH2LH _ s hs
    split
    · exact h.batchCopyGH2GH _ _ s hs
    · exact h.batchWrite h.batchCopyLH2LH _ _ s hs
  · intro s hs
    unfold batchCopyGH2LH
    split
    · exact h.batchCopyLH2LH _ s hs
    split
    · exact h.batchCopyGH2GH _ _ s hs
    · exact h.batchRead h.batchCopyLH2LH _ _ s hs
  · exact h.batchCopyGH2GH _ _
  · exact invalidParam

end

end Kept

/-! ### An operator -/

/-- `RDMA_SWAP_SPACE_SIZE`, which depends on `NO_XPU`. -/
def swapSpaceSize (noXpu : Bool) : ℕ :=
  if noXpu then 1024 * 1024 * 1024 * 4 else 1024 * 1024 * 1024

/-- Rank 0 of two ranks that have 1 GiB each of the global space of the hosts. -/
def firstOfTwo : DataOperator where
  inited := true
  rankId := 0
  rdmaSwapBaseAddr := 2 ^ 40
  rdmaSwapSpaceSize := swapSpaceSize false
  spaces
    | .host => ⟨2 ^ 44, 2 ^ 30, 2⟩
    | _ => ⟨0, 0, 0⟩

end HostRdma

def Environment.succeeding : Environment where
  outcome _ _ := .ok
  accepted _ _ := 0
  order := id
  order_perm _ := .refl _
  iterate := id
  iterate_perm _ := .refl _
  inferCopyDirection _ _ := .butt

def OpState.idle (op : DataOperator) (mrs : OrderedMap ℕ ℕ) : OpState where
  memory _ := 0
  pool := .new op.rdmaSwapBaseAddr op.rdmaSwapSpaceSize
  mrs := mrs
  pending := []
  calls := 0
  registrations := []
  unregistrations := []

end Hybm
