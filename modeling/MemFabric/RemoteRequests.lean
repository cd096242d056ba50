/-
Remote reads and writes down to the hardware layer.

The device transport sends one work request for an operation (`remoteIo`).  The hcom transport
sends one request for a synchronous operation, up to three times (`readRemote`, `writeRemote`),
cuts an asynchronous one into slices (`readRemoteAsync`, `writeRemoteAsync`), and sends a batch
in vectors of four (`readRemoteBatchAsync`, `writeRemoteBatchAsync`).  The host RDMA operator
puts what is on another rank through its swap memory in chunks (`safePut`, `safeGet`).

Each is followed by its rules: on success exactly the given bytes have been requested, where no
size that is narrowed to 32 bits has more (`requests_`), and how many are requested if every call
succeeds (`sends_`).
-/
import MemFabric.HardwareLayer
import MemFabric.HostRdma

namespace Hybm

open Requests List

open Program (Triple Keeps)

variable {α : Type*} {v : ℕ × ℕ → α} {env : HwEnv}

theorem error_ne_zero : Result.error ≠ 0 := by decide

theorem invalidParam_ne_zero : Result.invalidParam ≠ 0 := by decide

variable {b : List α}

theorem keeps_check (c : HwCall) : Keeps (Sent v b) ((ask env c).failWith .error) :=
  keeps_ask.failWith error_ne_zero

theorem requests_check (c : HwCall) : Requests v ((ask env c).failWith .error) [] :=
  .of_keeps fun _ => keeps_check c

theorem sends_check (c : HwCall) : Sends ((ask allOkHw c).failWith .error) 0 :=
  (Sends.ask c).failWith error_ne_zero

/-! ### Device RDMA -/

/-- What a lookup in a `MemoryRegionMap` reads of a `RegMemResult`. -/
structure RegMem where
  size : ℕ
  regAddress : ℕ
  lkey : ℕ
  rkey : ℕ
  deriving DecidableEq

/-- The regions registered here and those of the other ranks. -/
structure DeviceRegions where
  registerMRS : OrderedMap ℕ RegMem
  ranksMRs : ℕ → OrderedMap ℕ RegMem

/-- `GetRegAddress`: the address at which a range is registered, and the key.  The map is ordered
downwards, so `lower_bound` is the last region that does not begin behind the address. -/
def getRegAddress (map : OrderedMap ℕ RegMem) (inputAddr size : ℕ) (isLocal : Bool) :
    Option (ℕ × ℕ) :=
  match map.upTo inputAddr with
  | none => none
  | some (first, region) =>
    if (first + region.size) % 2 ^ 64 < (inputAddr + size) % 2 ^ 64 then none
    else some ((region.regAddress + (inputAddr - first)) % 2 ^ 64,
      if isLocal then region.lkey else region.rkey)

/-- `CorrectHostRegWr`: the addresses of the work request. -/
def DeviceRegions.correctHostRegWr (t : DeviceRegions) (rankId lAddr rAddr size : ℕ) :
    Option (ℕ × ℕ) :=
  match getRegAddress t.registerMRS lAddr size true,
    getRegAddress (t.ranksMRs rankId) rAddr size false with
  | some l, some r => some (l.1, r.1)
  | _, _ => none

/-- `RdmaTransportManager::RemoteIO`. -/
def remoteIo (env : HwEnv) (t : DeviceRegions) (rankId lAddr rAddr size : ℕ) (sync : Bool) :
    Program HwState Result :=
  ((ask env .qpManager).failWith .error).andThen <|
  ((ask env (.qpHandle rankId)).failWith .error).andThen <|
  ((ask env .threadHybmStream).failWith .error).andThen <|
  match t.correctHostRegWr rankId lAddr rAddr size with
  | none => .give .invalidParam
  | some (l, r) =>
    (request env [⟨l, r, narrow size⟩]).andThen <|
    (ask env .submitDoorbell).andThen <|
    if sync then ask env .synchronize else .give 0

/-- The bytes an operation of the device transport is asked for. -/
def DeviceRegions.wanted (t : DeviceRegions) (rankId lAddr rAddr size : ℕ) : List Span :=
  match t.correctHostRegWr rankId lAddr rAddr size with
  | none => []
  | some (l, r) => [⟨l, r, size⟩]

section

variable {t : DeviceRegions} {rankId lAddr rAddr size : ℕ} {sync : Bool}

theorem requests_remoteIo
    (hsize : t.correctHostRegWr rankId lAddr rAddr size = none ∨ size < 2 ^ 32) :
    Requests v (remoteIo env t rankId lAddr rAddr size sync)
      (seen v (t.wanted rankId lAddr rAddr size)) := by
  refine (requests_check _).after ((requests_check _).after ((requests_check _).after ?_))
  rw [DeviceRegions.wanted]
  split
  · exact .give invalidParam_ne_zero
  next l r hwr =>
  rw [narrow_of_lt (hsize.resolve_left (by simp [hwr]))]
  refine (Requests.request _).before ((Requests.ask _).after ?_)
  split
  · exact .ask _
  · exact .give_zero

theorem sends_remoteIo {l r : ℕ} (hwr : t.correctHostRegWr rankId lAddr rAddr size = some (l, r)) :
    Sends (remoteIo allOkHw t rankId lAddr rAddr size sync) (narrow size) := by
  rw [remoteIo, hwr]
  refine (sends_check _).after ((sends_check _).after ((sends_check _).after ?_))
  refine (Sends.request [⟨l, r, narrow size⟩]).before ((Sends.ask _).after ?_)
  split
  · exact .ask _
  · exact .give_zero

end

/-! ### hcom -/

/-- What a build and a service fix: `HCOM_MAX_SLICE_SIZE` and `RDMA_SWAP_SPACE_SIZE` depend on
`NO_XPU`. -/
structure HcomConfig where
  noXpu : Bool
  rankId : ℕ
  rankCount : ℕ

def HcomConfig.maxSliceSize (t : HcomConfig) : ℕ := if t.noXpu then 2 ^ 30 else 2 ^ 20

def HcomConfig.swapSpaceSize (t : HcomConfig) : ℕ := if t.noXpu then 2 ^ 32 else 2 ^ 30

def hcomIovBatchSize : ℕ := 4

namespace Hcom

variable (env) (t : HcomConfig)

def connected (rankId : ℕ) : Program HwState Result :=
  ((ask env .rpcService).failWith .error).andThen <|
  (Program.give (if rankId < t.rankCount then 0 else .invalidParam)).andThen <|
  (ask env (.channel rankId)).failWith .error

def keys (rankId lAddr rAddr : ℕ) : Program HwState Result :=
  ((ask env (.memoryRegion t.rankId lAddr)).failWith .error).andThen <|
  (ask env (.memoryRegion rankId rAddr)).failWith .error

/-- `InnerReadRemote` and `InnerWriteRemote` alike; a span has the local address first. -/
def innerRemote (rankId lAddr rAddr size : ℕ) : Program HwState Result :=
  (connected env t rankId).andThen <|
  (keys env t rankId lAddr rAddr).andThen <|
  request env [⟨lAddr, rAddr, narrow size⟩]

def innerReadRemote (rankId lAddr rAddr size : ℕ) : Program HwState Result :=
  innerRemote env t rankId lAddr rAddr size

def innerWriteRemote (rankId lAddr rAddr size : ℕ) : Program HwState Result :=
  innerRemote env t rankId lAddr rAddr size

/-- Up to `kMaxRetries` attempts; a reconnection in between requests nothing. -/
def attempts (p : Program HwState Result) : ℕ → Program HwState Result
  | 0 => .give .error
  | n + 1 => p.orElse (attempts p n)

def readRemote (rankId lAddr rAddr size : ℕ) : Program HwState Result :=
  attempts (innerReadRemote env t rankId lAddr rAddr size) 3

def writeRemote (rankId lAddr rAddr size : ℕ) : Program HwState Result :=
  attempts (innerWriteRemote env t rankId lAddr rAddr size) 3

/-- The loop over the slices; every round handles at least one byte, so there are no more
rounds than bytes. -/
def slices (lAddr rAddr : ℕ) : ℕ → ℕ → ℕ → Program HwState Result
  | 0, _, _ => .give 0
  | fuel + 1, offset, remain =>
    if remain = 0 then .give 0
    else
      let sliceSize := narrow (if t.maxSliceSize < remain then t.maxSliceSize else remain)
      (request env [⟨(lAddr + offset) % 2 ^ 64, (rAddr + offset) % 2 ^ 64, sliceSize⟩]).andThen <|
      slices lAddr rAddr fuel (offset + sliceSize) (remain - sliceSize)

/-- `ReadRemoteAsync` and `WriteRemoteAsync` alike. -/
def remoteAsync (rankId lAddr rAddr size : ℕ) : Program HwState Result :=
  (connected env t rankId).andThen <|
  (keys env t rankId lAddr rAddr).andThen <|
  (ask env .prepareStream).andThen <|
  slices env t lAddr rAddr size 0 size

def readRemoteAsync (rankId lAddr rAddr size : ℕ) : Program HwState Result :=
  remoteAsync env t rankId lAddr rAddr size

def writeRemoteAsync (rankId lAddr rAddr size : ℕ) : Program HwState Result :=
  remoteAsync env t rankId lAddr rAddr size

/-- One vector of a batch: the keys of each element, then one request for all of them. -/
def sendVector (rankId : ℕ) (spans : List Span) : Program HwState Result :=
  (Program.forEach (fun span => (keys env t rankId span.near span.far).andThen
    (ask env .prepareStream)) spans).andThen <|
  request env (spans.map fun span => { span with len := narrow span.len })

/-- The elements of the vector `index`. -/
def vector (spans : List Span) (index : ℕ) : List Span :=
  (spans.drop (index * hcomIovBatchSize)).take hcomIovBatchSize

/-- The loop over the vectors: the number of elements is 32 bits wide, and so is the sum that
is rounded up. -/
def sendBatch (rankId : ℕ) (spans : List Span) : Program HwState Result :=
  let allBatch := narrow spans.length
  let batchs := narrow (allBatch + hcomIovBatchSize - 1) / hcomIovBatchSize
  (connected env t rankId).andThen <|
  .forEach (fun index => sendVector env t rankId (vector (spans.take allBatch) index))
    (List.range batchs)

/-- `ReadRemoteBatchAsync`, in which the global addresses are the local ones of the requests. -/
def readRemoteBatchAsync (rankId : ℕ) (descriptor : List Piece) : Program HwState Result :=
  if descriptor = [] then .give .invalidParam
  else sendBatch env t rankId (descriptor.map fun x => ⟨x.globalAddr, x.localAddr, x.count⟩)

def writeRemoteBatchAsync (rankId : ℕ) (descriptor : List Piece) : Program HwState Result :=
  sendBatch env t rankId (descriptor.map fun x => ⟨x.localAddr, x.globalAddr, x.count⟩)

variable {env} {t} {rankId lAddr rAddr size : ℕ}

theorem keeps_connected : Keeps (Sent v b) (connected env t rankId) := by
  refine (keeps_check _).andThen (Triple.andThen ?_ (keeps_check _))
  split
  · exact .give_zero fun _ hs => hs
  · exact .give invalidParam_ne_zero fun _ hs => hs

theorem keeps_keys : Keeps (Sent v b) (keys env t rankId lAddr rAddr) :=
  (keeps_check _).andThen (keeps_check _)

/-- A rank that does not exist is refused before anything is requested. -/
theorem triple_refused (hrank : t.rankCount ≤ rankId) {q : Program HwState Result} {w : List α} :
    Triple (Sent v b) ((connected env t rankId).andThen q) (Sent v (b ++ w)) (Sent v b) := by
  have hconnected : Triple (Sent v b) (connected env t rankId) (fun _ => False) (Sent v b) := by
    rw [connected, if_neg (Nat.not_lt.mpr hrank)]
    refine (keeps_check _).andThen (Triple.andThen (R := fun _ => False) ?_ fun _ h => h.elim)
    exact .give invalidParam_ne_zero fun _ hs => hs
  exact hconnected.andThen fun _ h => h.elim

theorem triple_innerRemote (hsize : t.rankCount ≤ rankId ∨ size < 2 ^ 32) :
    Triple (Sent v b) (innerRemote env t rankId lAddr rAddr size)
      (Sent v (b ++ seen v [⟨lAddr, rAddr, size⟩])) (Sent v b) := by
  rcases hsize with hrank | hsize
  · exact triple_refused hrank
  rw [innerRemote, narrow_of_lt hsize]
  exact keeps_connected.andThen (keeps_keys.andThen triple_request)

theorem requests_attempts {p : Program HwState Result} {w : List α}
    (hp : ∀ b, Triple (Sent v b) p (Sent v (b ++ w)) (Sent v b)) (n : ℕ) :
    Requests v (attempts p n) w := by
  have hall : ∀ b, Triple (Sent v b) (attempts p n) (Sent v (b ++ w)) (Sent v b) := by
    intro b
    induction n with
    | zero => exact .give error_ne_zero fun _ hs => hs
    | succ n ih => exact (hp b).orElse ih
  exact .of_triple hall

theorem requests_readRemote (hsize : t.rankCount ≤ rankId ∨ size < 2 ^ 32) :
    Requests v (readRemote env t rankId lAddr rAddr size) (seen v [⟨lAddr, rAddr, size⟩]) :=
  requests_attempts (fun _ => triple_innerRemote hsize) 3

theorem requests_writeRemote (hsize : t.rankCount ≤ rankId ∨ size < 2 ^ 32) :
    Requests v (writeRemote env t rankId lAddr rAddr size) (seen v [⟨lAddr, rAddr, size⟩]) :=
  requests_attempts (fun _ => triple_innerRemote hsize) 3

theorem maxSliceSize_pos : 0 < t.maxSliceSize := by
  rw [HcomConfig.maxSliceSize]
  split <;> norm_num

theorem maxSliceSize_lt : t.maxSliceSize < 2 ^ 32 := by
  rw [HcomConfig.maxSliceSize]
  split <;> norm_num

theorem sliceSize_bounds {remain : ℕ} (hremain : remain ≠ 0) :
    0 < narrow (if t.maxSliceSize < remain then t.maxSliceSize else remain) ∧
      narrow (if t.maxSliceSize < remain then t.maxSliceSize else remain) ≤ remain := by
  have hpos := @maxSliceSize_pos t
  have hlt := @maxSliceSize_lt t
  split
  · rw [narrow_of_lt hlt]
    omega
  · rw [narrow_of_lt (by omega)]
    omega

theorem requests_slices (fuel offset remain : ℕ) (hfuel : remain ≤ fuel) :
    Requests v (slices env t lAddr rAddr fuel offset remain)
      (seen v [⟨lAddr + offset, rAddr + offset, remain⟩]) := by
  induction fuel generalizing offset remain with
  | zero =>
    obtain rfl := Nat.le_zero.mp hfuel
    exact .give_zero
  | succ fuel ih =>
    unfold slices
    split
    · next hremain =>
      subst hremain
      exact .give_zero
    next hremain =>
    obtain ⟨hpos, hle⟩ := @sliceSize_bounds t remain hremain
    set slice := narrow (if t.maxSliceSize < remain then t.maxSliceSize else remain)
    have hcut : seen v [⟨lAddr + offset, rAddr + offset, remain⟩] =
        seen v [⟨(lAddr + offset) % 2 ^ 64, (rAddr + offset) % 2 ^ 64, slice⟩] ++
          seen v [⟨lAddr + (offset + slice), rAddr + (offset + slice), remain - slice⟩] := by
      rw [seen_mod, ← seen_add (by rw [Nat.add_assoc]) (by rw [Nat.add_assoc])]
      congr
      omega
    rw [hcut]
    exact (Requests.request _).andThen (ih (offset + slice) (remain - slice) (by omega))

theorem requests_remoteAsync :
    Requests v (remoteAsync env t rankId lAddr rAddr size) (seen v [⟨lAddr, rAddr, size⟩]) := by
  refine (of_keeps fun _ => keeps_connected).after ?_
  refine (of_keeps fun _ => keeps_keys).after ?_
  exact (Requests.ask _).after (requests_slices size 0 size le_rfl)

theorem requests_sendVector {spans : List Span} (hlen : ∀ span ∈ spans, span.len < 2 ^ 32) :
    Requests v (sendVector env t rankId spans) (seen v spans) := by
  have hnarrow : spans.map (fun span => { span with len := narrow span.len }) = spans := by
    refine (map_congr_left fun span hspan => ?_).trans (map_id spans)
    rw [narrow_of_lt (hlen span hspan)]
    rfl
  rw [sendVector, hnarrow]
  refine after (.of_keeps fun b => .forEach_inv fun span _ => ?_) (.request spans)
  exact keeps_keys.andThen keeps_ask

/-- The elements of a batch of `count` that are reached by its vectors. -/
def batchReach (count : ℕ) : ℕ := min (reach hcomIovBatchSize (narrow count)) (narrow count)

theorem flatMap_vector {β : Type*} (spans : List Span) (f : Span → β) :
    (range (narrow (narrow spans.length + hcomIovBatchSize - 1) / hcomIovBatchSize)).flatMap
      (fun index => (vector (spans.take (narrow spans.length)) index).map f) =
        (spans.take (batchReach spans.length)).map f := by
  rw [← map_flatMap]
  exact congrArg (map f) ((flatMap_range_chunks _ hcomIovBatchSize _).trans (take_take ..))

theorem requests_sendBatch {spans : List Span}
    (hlen : ∀ span ∈ spans.take (batchReach spans.length), span.len < 2 ^ 32)
    (hrest : ∀ span ∈ spans.drop (batchReach spans.length), span.len = 0) :
    Requests v (sendBatch env t rankId spans) (seen v spans) := by
  have hvectors := flatMap_vector spans id
  simp only [map_id_fun, id_eq] at hvectors
  rw [sendBatch, ← seen_take hrest, ← hvectors, seen_flatMap]
  refine (of_keeps fun _ => keeps_connected).after (.forEach fun index hindex => ?_)
  refine requests_sendVector fun span hspan => hlen span ?_
  rw [← hvectors]
  exact mem_flatMap.mpr ⟨index, hindex, hspan⟩

section

variable (hrank : rankId < t.rankCount)
include hrank

theorem sends_connected : Sends (connected allOkHw t rankId) 0 := by
  refine (sends_check _).after (Sends.after ?_ (sends_check _))
  rw [if_pos hrank]
  exact .give_zero

theorem sends_innerRemote :
    Sends (innerRemote allOkHw t rankId lAddr rAddr size) (narrow size) :=
  (sends_connected hrank).after
    (((sends_check _).after (sends_check _)).after (Sends.request [⟨lAddr, rAddr, narrow size⟩]))

theorem sends_readRemote : Sends (readRemote allOkHw t rankId lAddr rAddr size) (narrow size) :=
  (sends_innerRemote hrank).orElse

theorem sends_writeRemote : Sends (writeRemote allOkHw t rankId lAddr rAddr size) (narrow size) :=
  (sends_innerRemote hrank).orElse

theorem sends_sendBatch (spans : List Span) : Sends (sendBatch allOkHw t rankId spans)
    ((spans.take (batchReach spans.length)).map fun span => narrow span.len).sum := by
  rw [← flatMap_vector, flatMap_def, sum_flatten, map_map]
  refine (sends_connected hrank).after (.forEach fun index _ => ?_)
  have hkeys : Sends (.forEach (fun span => (keys allOkHw t rankId span.near span.far).andThen
      (ask allOkHw .prepareStream)) (vector (spans.take (narrow spans.length)) index))
      ((vector (spans.take (narrow spans.length)) index).map fun _ => 0).sum :=
    .forEach fun span _ => ((sends_check _).after (sends_check _)).after (Sends.ask _)
  rw [map_const', sum_replicate, smul_zero] at hkeys
  have hrequest := Sends.request ((vector (spans.take (narrow spans.length)) index).map
    fun span => { span with len := narrow span.len })
  rw [map_map] at hrequest
  exact hkeys.after hrequest

end

/-! ### Swap memory in between -/

variable (env) (t)

/-- The loop over the chunks, each handled by `body` with its offset and its size. -/
def chunks (body : ℕ → ℕ → Program HwState Result) : ℕ → ℕ → ℕ → Program HwState Result
  | 0, _, _ => .give 0
  | fuel + 1, offset, remainingLength =>
    if remainingLength = 0 then .give 0
    else
      let currentChunkSize := min remainingLength t.swapSpaceSize
      (body offset currentChunkSize).andThen <|
      chunks body fuel (offset + currentChunkSize) (remainingLength - currentChunkSize)

/-- `HostDataOpRDMA::SafePut` over the hcom transport: the loop of `HostRdma.safePut`, with the
requests of each `WriteRemote`. -/
def safePut (rankId src dest length : ℕ) : Program HwState Result :=
  chunks t (fun offset currentChunkSize =>
    withBuffer env (.swapMemory currentChunkSize) .mallocFailed fun tmpHost =>
      (ask env (.memcpy tmpHost (src + offset) currentChunkSize)).andThen
        (writeRemote env t rankId tmpHost ((dest + offset) % 2 ^ 64) currentChunkSize))
    length 0 length

/-- `HostDataOpRDMA::SafeGet` over the hcom transport. -/
def safeGet (rankId src dest length : ℕ) : Program HwState Result :=
  chunks t (fun offset currentChunkSize =>
    withBuffer env (.swapMemory currentChunkSize) .mallocFailed fun tmpHost =>
      (readRemote env t rankId tmpHost ((src + offset) % 2 ^ 64) currentChunkSize).andThen
        (ask env (.memcpy (dest + offset) tmpHost currentChunkSize)))
    length 0 length

variable {env} {t}

theorem swapSpaceSize_pos : 0 < t.swapSpaceSize := by
  rw [HcomConfig.swapSpaceSize]
  split <;> norm_num

theorem mallocFailed_ne_zero : Result.mallocFailed ≠ 0 := by decide

theorem seen_chunk (near far offset remain chunk tmp : ℕ) (hchunk : chunk ≤ remain) :
    seen farSide [⟨near, far + offset, remain⟩] =
      seen farSide [⟨tmp, (far + offset) % 2 ^ 64, chunk⟩] ++
        seen farSide [⟨near, far + (offset + chunk), remain - chunk⟩] := by
  have hhead : seen farSide [⟨tmp, (far + offset) % 2 ^ 64, chunk⟩] =
      seen farSide [⟨near, far + offset, chunk⟩] := by
    rw [seen_farSide tmp (near % 2 ^ 64), seen_mod]
  have htail : seen farSide [⟨near, far + (offset + chunk), remain - chunk⟩] =
      seen farSide [⟨near + chunk, far + offset + chunk, remain - chunk⟩] := by
    rw [seen_farSide near (near + chunk), Nat.add_assoc]
  rw [hhead, htail, ← seen_add rfl rfl, Nat.add_sub_cancel' hchunk]

theorem requests_chunks {body : ℕ → ℕ → Program HwState Result} {near far most : ℕ}
    (hbody : ∀ offset, ∀ chunk ≤ most, Requests farSide (body offset chunk)
      (seen farSide [⟨near, (far + offset) % 2 ^ 64, chunk⟩]))
    (fuel offset remain : ℕ) (hfuel : remain ≤ fuel)
    (hmost : min remain t.swapSpaceSize ≤ most) :
    Requests farSide (chunks t body fuel offset remain)
      (seen farSide [⟨near, far + offset, remain⟩]) := by
  induction fuel generalizing offset remain with
  | zero =>
    obtain rfl := Nat.le_zero.mp hfuel
    exact .give_zero
  | succ fuel ih =>
    unfold chunks
    split
    · next hremain =>
      subst hremain
      exact .give_zero
    next hremain =>
    have hpos := @swapSpaceSize_pos t
    set chunk := min remain t.swapSpaceSize with hchunk
    rw [seen_chunk near far offset remain chunk near (by omega)]
    exact (hbody offset chunk hmost).andThen
      (ih (offset + chunk) (remain - chunk) (by omega) (by omega))

section

variable {src dest length : ℕ}

theorem requests_safePut
    (hsize : t.rankCount ≤ rankId ∨ min length t.swapSpaceSize < 2 ^ 32) :
    Requests farSide (safePut env t rankId src dest length)
      (seen farSide [⟨src, dest, length⟩]) := by
  refine requests_chunks (fun offset chunk hchunk => ?_) length 0 length le_rfl le_rfl
  refine .withBuffer mallocFailed_ne_zero fun tmpHost => ?_
  rw [seen_farSide src tmpHost]
  exact (Requests.ask _).after (requests_writeRemote (hsize.imp_right hchunk.trans_lt))

theorem requests_safeGet
    (hsize : t.rankCount ≤ rankId ∨ min length t.swapSpaceSize < 2 ^ 32) :
    Requests farSide (safeGet env t rankId src dest length)
      (seen farSide [⟨dest, src, length⟩]) := by
  refine requests_chunks (fun offset chunk hchunk => ?_) length 0 length le_rfl le_rfl
  refine .withBuffer mallocFailed_ne_zero fun tmpHost => ?_
  rw [seen_farSide dest tmpHost]
  exact (requests_readRemote (hsize.imp_right hchunk.trans_lt)).before (.ask _)

theorem sends_chunks {body : ℕ → ℕ → Program HwState Result}
    (hbody : ∀ offset chunk, Sends (body offset chunk) (narrow chunk))
    (fuel offset remain : ℕ) (hfuel : remain ≤ fuel) :
    ∃ n, Sends (chunks t body fuel offset remain) n ∧ n ≤ remain ∧
      (2 ^ 32 ≤ min remain t.swapSpaceSize → n < remain) := by
  induction fuel generalizing offset remain with
  | zero => exact ⟨0, .give_zero, Nat.zero_le remain, fun h => by omega⟩
  | succ fuel ih =>
    unfold chunks
    split
    · exact ⟨0, .give_zero, Nat.zero_le remain, fun h => by omega⟩
    next hremain =>
    have hpos := @swapSpaceSize_pos t
    dsimp only
    set chunk := min remain t.swapSpaceSize with hchunk
    obtain ⟨n, hn, hle, -⟩ := ih (offset + chunk) (remain - chunk) (by omega)
    have hnarrow := @narrow_le chunk
    refine ⟨narrow chunk + n, (hbody offset chunk).andThen hn, by omega, fun hlarge => ?_⟩
    have hlt : narrow chunk < chunk := (Nat.mod_lt chunk (by decide)).trans_le hlarge
    omega

variable (hrank : rankId < t.rankCount)
include hrank

theorem sends_safePut : ∃ n, Sends (safePut allOkHw t rankId src dest length) n ∧
    (2 ^ 32 ≤ min length t.swapSpaceSize → n < length) := by
  obtain ⟨n, hn, -, hlt⟩ := @sends_chunks t _ (fun offset chunk => .withBuffer mallocFailed_ne_zero
    fun tmpHost => (Sends.ask _).after (sends_writeRemote hrank)) length 0 length le_rfl
  exact ⟨n, hn, hlt⟩

theorem sends_safeGet : ∃ n, Sends (safeGet allOkHw t rankId src dest length) n ∧
    (2 ^ 32 ≤ min length t.swapSpaceSize → n < length) := by
  obtain ⟨n, hn, -, hlt⟩ := @sends_chunks t _ (fun offset chunk => .withBuffer mallocFailed_ne_zero
    fun tmpHost => (sends_readRemote hrank).before (.ask _)) length 0 length le_rfl
  exact ⟨n, hn, hlt⟩

end

end Hcom

end Hybm
