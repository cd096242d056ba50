/-
Sizes on their way to the hardware.

The remote operations of the two transports, the copies of the SDMA operator and the chunks of
the host RDMA operator take 64-bit sizes and put them into fields of 32 bits.  `TransferOp` lists
them, `SizesExact` says that an operation that succeeds has requested exactly the bytes it was
asked for, each once, and `Narrow` is what keeps the sizes inside the fields.
-/
import MemFabric.SdmaOperator

namespace Hybm

open List Sdma

/-- The operations with a 64-bit size. -/
inductive TransferOp
  | deviceIo (t : DeviceRegions) (rankId lAddr rAddr size : ℕ) (sync : Bool)
  | hcomRead (t : HcomConfig) (rankId lAddr rAddr size : ℕ)
  | hcomWrite (t : HcomConfig) (rankId lAddr rAddr size : ℕ)
  | hcomReadAsync (t : HcomConfig) (rankId lAddr rAddr size : ℕ)
  | hcomWriteAsync (t : HcomConfig) (rankId lAddr rAddr size : ℕ)
  | hcomReadBatch (t : HcomConfig) (rankId : ℕ) (descriptor : List Piece)
  | hcomWriteBatch (t : HcomConfig) (rankId : ℕ) (descriptor : List Piece)
  | safePut (t : HcomConfig) (rankId src dest length : ℕ)
  | safeGet (t : HcomConfig) (rankId src dest length : ℕ)
  | sdmaCopy (inited : Bool) (params : CopyParams) (direction : CopyDirection) (flags : ℕ)
      (stream : Option ℕ)
  | sdmaBatch (items : List CopyParams) (direction : CopyDirection) (flags : ℕ) (stream : Option ℕ)

/-- The side of an SDMA copy that the caller's sizes are about: the global one where local host
memory goes through a buffer, and both else. -/
def Sdma.side : CopyDirection → ℕ × ℕ → ℕ × ℕ
  | .localHostToGlobalDevice | .localHostToGlobalHost => farSide
  | .globalDeviceToLocalHost | .globalHostToLocalHost => nearSide
  | _ => id

def Sdma.staged : CopyDirection → Bool
  | .localHostToGlobalDevice | .localHostToGlobalHost => true
  | .globalDeviceToLocalHost | .globalHostToLocalHost => true
  | _ => false

namespace TransferOp

def run (env : HwEnv) : TransferOp → Program HwState Result
  | deviceIo t rankId lAddr rAddr size sync => remoteIo env t rankId lAddr rAddr size sync
  | hcomRead t rankId lAddr rAddr size => Hcom.readRemote env t rankId lAddr rAddr size
  | hcomWrite t rankId lAddr rAddr size => Hcom.writeRemote env t rankId lAddr rAddr size
  | hcomReadAsync t rankId lAddr rAddr size => Hcom.readRemoteAsync env t rankId lAddr rAddr size
  | hcomWriteAsync t rankId lAddr rAddr size => Hcom.writeRemoteAsync env t rankId lAddr rAddr size
  | hcomReadBatch t rankId descriptor => Hcom.readRemoteBatchAsync env t rankId descriptor
  | hcomWriteBatch t rankId descriptor => Hcom.writeRemoteBatchAsync env t rankId descriptor
  | safePut t rankId src dest length => Hcom.safePut env t rankId src dest length
  | safeGet t rankId src dest length => Hcom.safeGet env t rankId src dest length
  | sdmaCopy inited params direction flags stream =>
    Sdma.dataCopy env inited params direction flags stream
  | sdmaBatch items direction flags stream => Sdma.batchDataCopy env items direction flags stream

def wanted : TransferOp → List Span
  | deviceIo t rankId lAddr rAddr size _ => t.wanted rankId lAddr rAddr size
  | hcomRead _ _ lAddr rAddr size => [⟨lAddr, rAddr, size⟩]
  | hcomWrite _ _ lAddr rAddr size => [⟨lAddr, rAddr, size⟩]
  | hcomReadAsync _ _ lAddr rAddr size => [⟨lAddr, rAddr, size⟩]
  | hcomWriteAsync _ _ lAddr rAddr size => [⟨lAddr, rAddr, size⟩]
  | hcomReadBatch _ _ descriptor => descriptor.map fun x => ⟨x.globalAddr, x.localAddr, x.count⟩
  | hcomWriteBatch _ _ descriptor => descriptor.map fun x => ⟨x.localAddr, x.globalAddr, x.count⟩
  | safePut _ _ src dest length => [⟨src, dest, length⟩]
  | safeGet _ _ src dest length => [⟨dest, src, length⟩]
  | sdmaCopy _ params _ _ _ => [Sdma.spanOf params]
  | sdmaBatch items _ _ _ => items.map Sdma.spanOf

/-- Where the bytes are compared: on the other side of a buffer, or on both sides. -/
def side : TransferOp → ℕ × ℕ → ℕ × ℕ
  | safePut .. => farSide
  | safeGet .. => farSide
  | sdmaCopy _ _ direction _ _ => Sdma.side direction
  | sdmaBatch _ direction _ _ => Sdma.side direction
  | _ => id

/-- The arguments are refused before anything is requested: addresses that are not registered, a
rank that does not exist, an operator that is not initialized, a direction that is none. -/
def Refused : TransferOp → Prop
  | deviceIo t rankId lAddr rAddr size _ => t.correctHostRegWr rankId lAddr rAddr size = none
  | hcomRead t rankId _ _ _ => t.rankCount ≤ rankId
  | hcomWrite t rankId _ _ _ => t.rankCount ≤ rankId
  | hcomReadAsync t rankId _ _ _ => t.rankCount ≤ rankId
  | hcomWriteAsync t rankId _ _ _ => t.rankCount ≤ rankId
  | hcomReadBatch t rankId _ => t.rankCount ≤ rankId
  | hcomWriteBatch t rankId _ => t.rankCount ≤ rankId
  | safePut t rankId _ _ _ => t.rankCount ≤ rankId
  | safeGet t rankId _ _ _ => t.rankCount ≤ rankId
  | sdmaCopy inited _ direction _ _ => inited = false ∨ direction = .auto ∨ direction = .butt
  | sdmaBatch .. => False

/-- The elements of a batch that its vectors reach have at most 32 bits, and the others none;
vectors miss elements only where there are almost 2^32. -/
def NarrowBatch (descriptor : List Piece) : Prop :=
  (∀ x ∈ descriptor.take (Hcom.batchReach descriptor.length), x.count < 2 ^ 32) ∧
    ∀ x ∈ descriptor.drop (Hcom.batchReach descriptor.length), x.count = 0

/-- Every size that is narrowed has at most 32 bits.  An asynchronous operation of the hcom
transport is cut into slices first and needs no condition; chunks of the swap memory are too
long for 32 bits only where the swap memory is. -/
def Narrow : TransferOp → Prop
  | deviceIo _ _ _ _ size _ => size < 2 ^ 32
  | hcomRead _ _ _ _ size => size < 2 ^ 32
  | hcomWrite _ _ _ _ size => size < 2 ^ 32
  | hcomReadAsync .. => True
  | hcomWriteAsync .. => True
  | hcomReadBatch _ _ descriptor => NarrowBatch descriptor
  | hcomWriteBatch _ _ descriptor => NarrowBatch descriptor
  | safePut t _ _ _ length => min length t.swapSpaceSize < 2 ^ 32
  | safeGet t _ _ _ length => min length t.swapSpaceSize < 2 ^ 32
  | sdmaCopy _ params direction flags stream => params.dataSize < 2 ^ 32 ∨
    (Sdma.staged direction = false ∧
      if Sdma.asyncCopy flags then Sdma.toAclStream flags stream else Sdma.copyExtend flags)
  | sdmaBatch items direction flags stream =>
    if Sdma.staged direction then ∀ x ∈ items, x.dataSize < 2 ^ 32
    else Sdma.BatchFits items flags stream

end TransferOp

/-- An operation that succeeds has requested the bytes it was asked for and no others, each of
them once; in particular as many as it was asked for. -/
def SizesExact (op : TransferOp) : Prop :=
  ∀ env calls, (op.run env ⟨[], calls⟩).1 = .ok →
    seen op.side (op.run env ⟨[], calls⟩).2.requests = seen op.side op.wanted

section

variable {env : HwEnv} {params : CopyParams} {items : List CopyParams}
  {direction : CopyDirection} {flags : ℕ} {stream : Option ℕ}

theorem requests_copyBy {g2g : CopyParams → Program HwState Result}
    (hstaged : staged direction = true → params.dataSize < 2 ^ 32)
    (hg2g : staged direction = false →
      Requests id (g2g params) (seen id [spanOf params])) :
    Requests (side direction) (copyBy env g2g params direction)
      (seen (side direction) [spanOf params]) := by
  cases direction with
  | localHostToGlobalDevice | localHostToGlobalHost => exact requests_copyLH2G (hstaged rfl)
  | globalDeviceToLocalHost | globalHostToLocalHost => exact requests_copyG2LH (hstaged rfl)
  | auto | butt => exact .give invalidParam_ne_zero
  | _ => exact hg2g rfl

theorem requests_sdmaCopy {inited : Bool}
    (h : (TransferOp.sdmaCopy inited params direction flags stream).Refused ∨
      (TransferOp.sdmaCopy inited params direction flags stream).Narrow) :
    Requests (side direction) (dataCopy env inited params direction flags stream)
      (seen (side direction) [spanOf params]) := by
  have hnotInitialized : Result.notInitialized ≠ 0 := by decide
  rw [dataCopy]
  split
  on_goal 2 => exact .give hnotInitialized
  next hinited =>
  rcases h with (hno | rfl | rfl) | h
  · exact absurd (hno.symm.trans hinited) Bool.false_ne_true
  iterate 2 split <;> exact .give invalidParam_ne_zero
  have hstaged : staged direction = true → params.dataSize < 2 ^ 32 := fun hstaged =>
    h.resolve_right fun hwhole => Bool.false_ne_true (hwhole.1.symm.trans hstaged)
  split
  · next hasync =>
    rw [TransferOp.Narrow, if_pos hasync] at h
    exact requests_copyBy hstaged fun _ => requests_copyG2GAsync (h.symm.imp_left And.right)
  · next hasync =>
    rw [TransferOp.Narrow, if_neg hasync] at h
    exact requests_copyBy hstaged fun _ => requests_copyG2G (h.symm.imp_left And.right)

theorem requests_each {v : ℕ × ℕ → ℕ × ℕ} {f : CopyParams → Program HwState Result}
    (h : ∀ x ∈ items, Requests v (f x) (seen v [spanOf x])) :
    Requests v (.forEach f items) (seen v (items.map spanOf)) := by
  have hspans : seen v (items.map spanOf) = items.flatMap fun x => seen v [spanOf x] := by
    rw [← seen_flatMap, ← map_eq_flatMap]
  rw [hspans]
  exact .forEach h

theorem requests_sdmaBatch (h : (TransferOp.sdmaBatch items direction flags stream).Narrow) :
    Requests (side direction) (batchDataCopy env items direction flags stream)
      (seen (side direction) (items.map spanOf)) := by
  cases direction with
  | localHostToGlobalDevice
  | localHostToGlobalHost => exact requests_each fun x hx => requests_copyLH2G (h x hx)
  | globalDeviceToLocalHost
  | globalHostToLocalHost => exact requests_each fun x hx => requests_copyG2LH (h x hx)
  | _ => exact requests_batchCopyG2G h

theorem requests_batch {t : HcomConfig} {rankId : ℕ} {descriptor : List Piece} {f : Piece → Span}
    (hf : ∀ x, (f x).len = x.count)
    (h : t.rankCount ≤ rankId ∨ TransferOp.NarrowBatch descriptor) :
    Requests id (Hcom.sendBatch env t rankId (descriptor.map f)) (seen id (descriptor.map f)) := by
  rcases h with hrank | h
  · exact .of_triple fun _ => Hcom.triple_refused hrank
  refine Hcom.requests_sendBatch ?_ ?_
  · rw [length_map, ← map_take]
    exact forall_mem_map.mpr fun x hx => (hf x).trans_lt (h.1 x hx)
  · rw [length_map, ← map_drop]
    exact forall_mem_map.mpr fun x hx => (hf x).trans (h.2 x hx)

theorem requests_of_narrow {op : TransferOp} (h : op.Refused ∨ op.Narrow) :
    Requests op.side (op.run env) (seen op.side op.wanted) := by
  cases op with
  | deviceIo => exact requests_remoteIo h
  | hcomRead => exact Hcom.requests_readRemote h
  | hcomWrite => exact Hcom.requests_writeRemote h
  | hcomReadAsync | hcomWriteAsync => exact Hcom.requests_remoteAsync
  | hcomReadBatch t rankId descriptor =>
    rw [TransferOp.run, Hcom.readRemoteBatchAsync]
    split
    · exact .give invalidParam_ne_zero
    · exact requests_batch (fun _ => rfl) h
  | hcomWriteBatch t rankId descriptor => exact requests_batch (fun _ => rfl) h
  | safePut => exact Hcom.requests_safePut h
  | safeGet => exact Hcom.requests_safeGet h
  | sdmaCopy => exact requests_sdmaCopy h
  | sdmaBatch => exact requests_sdmaBatch (h.resolve_left id)

end

/-! ### What is lost else -/

section

variable {params : CopyParams} {items : List CopyParams} {direction : CopyDirection} {flags : ℕ}
  {stream : Option ℕ}

/-- If every call succeeds, an operation whose sizes are exact requests as many bytes as it was
asked for. -/
theorem SizesExact.sum_eq {op : TransferOp} (h : SizesExact op)
    (hok : (op.run allOkHw ⟨[], 0⟩).1 = .ok) :
    ((op.run allOkHw ⟨[], 0⟩).2.requests.map Span.len).sum = (op.wanted.map Span.len).sum := by
  have hlen := congrArg length (h allOkHw 0 hok)
  rwa [length_seen, length_seen] at hlen

theorem SizesExact.eq_of_sends {op : TransferOp} {n : ℕ} (h : SizesExact op)
    (hsends : Sends (op.run allOkHw) n) : n = (op.wanted.map Span.len).sum := by
  obtain ⟨hok, htotal⟩ := hsends.eq_of_ok
  exact htotal.symm.trans (h.sum_eq hok)

theorem SizesExact.lt_of_sends {op : TransferOp} {size : ℕ} (h : SizesExact op)
    (hsends : Sends (op.run allOkHw) (narrow size))
    (hwanted : (op.wanted.map Span.len).sum = size) :
    size < 2 ^ 32 :=
  lt_of_narrow_eq ((h.eq_of_sends hsends).trans hwanted)

section

variable {β : Type*} {f : β → ℕ} {l : List β} {k : ℕ}

theorem sum_narrow_le (l : List β) : (l.map fun x => narrow (f x)).sum ≤ (l.map f).sum :=
  sum_le_sum fun _ _ => narrow_le

theorem forall_lt_of_sum_narrow (h : (l.map fun x => narrow (f x)).sum = (l.map f).sum) :
    ∀ x ∈ l, f x < 2 ^ 32 := by
  induction l with
  | nil => simp
  | cons x rest ih =>
    have hrest := sum_narrow_le (f := f) rest
    have hx := @narrow_le (f x)
    simp only [map_cons, sum_cons] at h
    exact forall_mem_cons.mpr ⟨lt_of_narrow_eq (by omega), ih (by omega)⟩

theorem sum_take_add_drop (f : β → ℕ) (l : List β) (k : ℕ) :
    (l.map f).sum = ((l.take k).map f).sum + ((l.drop k).map f).sum := by
  rw [← sum_append, ← map_append, take_append_drop]

theorem drop_eq_zero (h : ((l.take k).map f).sum = (l.map f).sum) : ∀ x ∈ l.drop k, f x = 0 := by
  rw [sum_take_add_drop f l k] at h
  exact forall_mem_map.mp (sum_eq_zero_iff.mp (by omega))

theorem reached_narrow (h : ((l.take k).map fun x => narrow (f x)).sum = (l.map f).sum) :
    (∀ x ∈ l.take k, f x < 2 ^ 32) ∧ ∀ x ∈ l.drop k, f x = 0 := by
  have hle := sum_narrow_le (f := f) (l.take k)
  have hsplit := sum_take_add_drop f l k
  exact ⟨forall_lt_of_sum_narrow (by omega), drop_eq_zero (by omega)⟩

end

theorem narrowBatch_of_sizesExact {op : TransferOp} {t : HcomConfig} {rankId : ℕ}
    {descriptor : List Piece} {f : Piece → Span} (hf : ∀ x, (f x).len = x.count)
    (hrank : rankId < t.rankCount) (h : SizesExact op) (hwanted : op.wanted = descriptor.map f)
    (hrun : op.run allOkHw = Hcom.sendBatch allOkHw t rankId (descriptor.map f)) :
    TransferOp.NarrowBatch descriptor := by
  have hsum := h.eq_of_sends (hrun ▸ Hcom.sends_sendBatch hrank (descriptor.map f))
  rw [hwanted, length_map, ← map_take, List.map_map, List.map_map] at hsum
  refine reached_narrow (f := Piece.count) ?_
  simpa only [Function.comp_def, hf] using hsum

theorem sends_copyBy {g2g : CopyParams → Program HwState Result} (hauto : direction ≠ .auto)
    (hbutt : direction ≠ .butt) (hg2g : staged direction = false →
      Sends (g2g params) (narrow params.dataSize)) :
    Sends (copyBy allOkHw g2g params direction) (narrow params.dataSize) := by
  cases direction with
  | localHostToGlobalDevice | localHostToGlobalHost => exact sends_copyLH2G
  | globalDeviceToLocalHost | globalHostToLocalHost => exact sends_copyG2LH
  | auto => exact absurd rfl hauto
  | butt => exact absurd rfl hbutt
  | _ => exact hg2g rfl

theorem sends_dataCopy (hauto : direction ≠ .auto) (hbutt : direction ≠ .butt)
    (hwhole : ¬ (staged direction = false ∧
      if asyncCopy flags then toAclStream flags stream else copyExtend flags)) :
    Sends (dataCopy allOkHw true params direction flags stream)
      (narrow params.dataSize) := by
  rw [dataCopy, if_pos rfl]
  split
  · next hasync =>
    refine sends_copyBy hauto hbutt fun hdirect => ?_
    rw [if_pos hasync] at hwhole
    have hsubmitted : submitted flags stream params.dataSize = narrow params.dataSize :=
      if_neg fun hacl => hwhole ⟨hdirect, hacl⟩
    rw [← hsubmitted]
    exact sends_copyG2GAsync
  next hasync =>
  refine sends_copyBy hauto hbutt fun hdirect => sends_copyG2G ?_
  rw [if_neg hasync] at hwhole
  exact Bool.eq_false_of_not_eq_true fun hextend => hwhole ⟨hdirect, hextend⟩

theorem narrow_sdmaBatch (hsizes : ∀ x ∈ items, x.dataSize < 2 ^ 64)
    (h : SizesExact (.sdmaBatch items direction flags stream)) :
    (TransferOp.sdmaBatch items direction flags stream).Narrow := by
  have hwanted : ((items.map spanOf).map Span.len).sum =
      (items.map CopyParams.dataSize).sum := by
    rw [List.map_map]
    rfl
  have hbatch : (TransferOp.sdmaBatch items direction flags stream).run allOkHw =
      batchCopyG2G allOkHw items flags stream → BatchFits items flags stream := by
    intro hrun
    by_cases hextend : copyExtend flags = true
    · rw [batchCopyG2G, if_pos hextend] at hrun
      rw [BatchFits, if_pos hextend]
      exact drop_eq_zero ((h.eq_of_sends (hrun ▸ sends_batchCopyExtend items)).trans hwanted)
    · have hextend := Bool.eq_false_of_not_eq_true hextend
      exact fits_of_sum_eq hextend hsizes
        ((h.eq_of_sends (hrun ▸ sends_merged hextend)).trans hwanted)
  cases direction with
  | localHostToGlobalDevice | localHostToGlobalHost =>
    exact forall_lt_of_sum_narrow
      ((h.eq_of_sends (.forEach fun x _ => sends_copyLH2G)).trans hwanted)
  | globalDeviceToLocalHost | globalHostToLocalHost =>
    exact forall_lt_of_sum_narrow
      ((h.eq_of_sends (.forEach fun x _ => sends_copyG2LH)).trans hwanted)
  | _ => exact hbatch rfl

/-- An operation that is not refused and whose sizes are exact is narrow. -/
theorem narrow_of_sizesExact {op : TransferOp} (hsizes : ∀ x ∈ op.wanted, x.len < 2 ^ 64)
    (h : SizesExact op) (hrefused : ¬ op.Refused) : op.Narrow := by
  cases op with
  | deviceIo t rankId lAddr rAddr size sync =>
    obtain ⟨⟨l, r⟩, hwr⟩ := Option.ne_none_iff_exists'.mp hrefused
    refine h.lt_of_sends (sends_remoteIo hwr) ?_
    rw [TransferOp.wanted, DeviceRegions.wanted, hwr]
    rfl
  | hcomRead t rankId lAddr rAddr size =>
    exact h.lt_of_sends (Hcom.sends_readRemote (Nat.not_le.mp hrefused)) rfl
  | hcomWrite t rankId lAddr rAddr size =>
    exact h.lt_of_sends (Hcom.sends_writeRemote (Nat.not_le.mp hrefused)) rfl
  | hcomReadAsync | hcomWriteAsync => exact trivial
  | hcomReadBatch t rankId descriptor =>
    by_cases hempty : descriptor = []
    · rw [hempty]
      exact ⟨by simp, by simp⟩
    · refine narrowBatch_of_sizesExact (fun _ => rfl) (Nat.not_le.mp hrefused) h rfl ?_
      exact if_neg hempty
  | hcomWriteBatch t rankId descriptor =>
    exact narrowBatch_of_sizesExact (fun _ => rfl) (Nat.not_le.mp hrefused) h rfl rfl
  | safePut t rankId src dest length =>
    obtain ⟨n, hn, hlt⟩ := @Hcom.sends_safePut t rankId src dest length (Nat.not_le.mp hrefused)
    by_contra hlarge
    exact (hlt (Nat.not_lt.mp hlarge)).ne (h.eq_of_sends hn)
  | safeGet t rankId src dest length =>
    obtain ⟨n, hn, hlt⟩ := @Hcom.sends_safeGet t rankId src dest length (Nat.not_le.mp hrefused)
    by_contra hlarge
    exact (hlt (Nat.not_lt.mp hlarge)).ne (h.eq_of_sends hn)
  | sdmaCopy inited params direction flags stream =>
    simp only [TransferOp.Refused, not_or, Bool.not_eq_false] at hrefused
    obtain ⟨rfl, hauto, hbutt⟩ := hrefused
    by_cases hwhole : staged direction = false ∧
        if asyncCopy flags then toAclStream flags stream else copyExtend flags
    · exact .inr hwhole
    · exact .inl (h.lt_of_sends (sends_dataCopy hauto hbutt hwhole) rfl)
  | sdmaBatch items direction flags stream =>
    exact narrow_sdmaBatch (forall_mem_map.mp hsizes) h

end

theorem not_sizesExact {op : TransferOp} {requests : List Span} {calls : ℕ}
    (hrun : op.run allOkHw ⟨[], 0⟩ = (.ok, ⟨requests, calls⟩))
    (hsum : (requests.map Span.len).sum ≠ (op.wanted.map Span.len).sum) : ¬ SizesExact op := by
  intro h
  have hlen := h.sum_eq (by rw [hrun])
  rw [hrun] at hlen
  exact hsum hlen

def largeRegions : DeviceRegions where
  registerMRS := .singleton 0 ⟨2 ^ 33, 0, 1, 1⟩
  ranksMRs _ := .singleton 0 ⟨2 ^ 33, 0, 1, 1⟩

end Hybm
