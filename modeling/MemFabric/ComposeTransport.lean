/-
Asynchronous remote operations over two sub-transports.

A submission to `ComposeTransportManager` goes to the device transport if the tags permit it,
and falls over to the host transport if that does not take it; `Synchronize` asks the two in the
same order and returns with the first one that succeeds.  A state is the list of the operations
accepted so far, each with the sub-transport that has it.
-/
import MemFabric.DataOperator
import MemFabric.TagInfo

namespace Hybm.Compose

open Function List Option

inductive SubTransport
  | device
  | host
  deriving DecidableEq

/-- The members of `ComposeTransportManager` that its calls read; a sub-transport is there or
its pointer is null. -/
structure Manager where
  tagManager : TagInfo
  rankId : ℕ
  hasDevice : Bool
  hasHost : Bool

/-- The asynchronous calls with their arguments. -/
inductive RemoteOp
  | read (rankId lAddr rAddr size : ℕ)
  | write (rankId lAddr rAddr size : ℕ)
  | readBatch (rankId : ℕ) (descriptor : List Piece)
  | writeBatch (rankId : ℕ) (descriptor : List Piece)
  deriving DecidableEq

def RemoteOp.rankId : RemoteOp → ℕ
  | .read rankId _ _ _ => rankId
  | .write rankId _ _ _ => rankId
  | .readBatch rankId _ => rankId
  | .writeBatch rankId _ => rankId

/-- An operation that was accepted, and whether it has completed. -/
structure Submission where
  sub : SubTransport
  op : RemoteOp
  completed : Bool
  deriving DecidableEq

abbrev Submissions := List Submission

namespace Submissions

def accept (s : Submissions) (sub : SubTransport) (op : RemoteOp) : Submissions :=
  s ++ [⟨sub, op, false⟩]

/-- The operations of a sub-transport for a rank complete. -/
def waitFor (s : Submissions) (sub : SubTransport) (rankId : ℕ) : Submissions :=
  s.map fun x => if x.sub = sub ∧ x.op.rankId = rankId then { x with completed := true } else x

def complete (s : Submissions) (i : ℕ) : Submissions :=
  s.modify i fun x => { x with completed := true }

end Submissions

namespace Manager

variable (m : Manager)

def opType (rankId : ℕ) : BitVec 32 := m.tagManager.getRank2RankOpType rankId m.rankId

def hostProtocol : BitVec 32 :=
  DataOpType.hostTcp.bit ||| DataOpType.hostRdma.bit ||| DataOpType.hostUrma.bit

/-- The condition under which a call tries the device transport. -/
def triesDevice (rankId : ℕ) : Bool :=
  DataOpType.deviceRdma.allowedBy (m.opType rankId) && m.hasDevice

/-- The condition under which a call turns to the host transport. -/
def permitsHost (rankId : ℕ) : Bool := m.opType rankId &&& hostProtocol != 0

variable (s : Submissions)

/-- The second half of a submission: a null host transport is not checked for, so there is no
next state then. -/
def submitToHost (op : RemoteOp) (answer : Result) : Option (Result × Submissions) :=
  if m.permitsHost op.rankId then
    if m.hasHost then
      if answer = .ok then some (.ok, s.accept .host op) else some (.error, s)
    else none
  else some (.error, s)

/-- `ReadRemoteAsync` and `WriteRemoteAsync` alike: what they share is the choice of the
sub-transport.  The answers are those of the sub-transports if they are asked. -/
def remoteAsync (op : RemoteOp) (answers : SubTransport → Result) : Option (Result × Submissions) :=
  if m.triesDevice op.rankId ∧ answers .device = .ok then some (.ok, s.accept .device op)
  else m.submitToHost s op (answers .host)

/-- `ReadRemoteBatchAsync` and `WriteRemoteBatchAsync` alike: the device transport has none. -/
def remoteBatchAsync (op : RemoteOp) (answers : SubTransport → Result) :
    Option (Result × Submissions) :=
  if DataOpType.deviceRdma.allowedBy (m.opType op.rankId) then some (.notSupported, s)
  else m.submitToHost s op (answers .host)

def readRemoteAsync (rankId lAddr rAddr size : ℕ) :
    (SubTransport → Result) → Option (Result × Submissions) :=
  m.remoteAsync s (.read rankId lAddr rAddr size)

def writeRemoteAsync (rankId lAddr rAddr size : ℕ) :
    (SubTransport → Result) → Option (Result × Submissions) :=
  m.remoteAsync s (.write rankId lAddr rAddr size)

def readRemoteBatchAsync (rankId : ℕ) (descriptor : List Piece) :
    (SubTransport → Result) → Option (Result × Submissions) :=
  m.remoteBatchAsync s (.readBatch rankId descriptor)

def writeRemoteBatchAsync (rankId : ℕ) (descriptor : List Piece) :
    (SubTransport → Result) → Option (Result × Submissions) :=
  m.remoteBatchAsync s (.writeBatch rankId descriptor)

def submit : RemoteOp → (SubTransport → Result) → Option (Result × Submissions)
  | .read rankId lAddr rAddr size => m.readRemoteAsync s rankId lAddr rAddr size
  | .write rankId lAddr rAddr size => m.writeRemoteAsync s rankId lAddr rAddr size
  | .readBatch rankId descriptor => m.readRemoteBatchAsync s rankId descriptor
  | .writeBatch rankId descriptor => m.writeRemoteBatchAsync s rankId descriptor

def synchronize (rankId : ℕ) (answers : SubTransport → Result) : Result × Submissions :=
  if m.triesDevice rankId ∧ answers .device = .ok then (.ok, s.waitFor .device rankId)
  else if m.permitsHost rankId ∧ m.hasHost ∧ answers .host = .ok then
    (.ok, s.waitFor .host rankId)
  else (.error, s)

end Manager

/-! ### Runs -/

inductive Step
  | submit (op : RemoteOp) (answers : SubTransport → Result)
  | synchronize (rankId : ℕ) (answers : SubTransport → Result)
  | complete (i : ℕ)

def system (m : Manager) : TransitionSystem Submissions Step where
  start := []
  next s
    | .submit op answers => (m.submit s op answers).map Prod.snd
    | .synchronize rankId answers => some (m.synchronize s rankId answers).2
    | .complete i => some (s.complete i)

variable {m : Manager} {s s' : Submissions}

/-- A call that tried the device transport and was served by the host transport. -/
def Manager.FallsOver (m : Manager) (rankId : ℕ) (answers : SubTransport → Result) : Prop :=
  m.triesDevice rankId ∧ answers .device ≠ .ok ∧ m.permitsHost rankId ∧ answers .host = .ok

/-- No submission falls over, and `Synchronize` does only where the device transport has
nothing left to complete for the rank. -/
def Direct (m : Manager) (s : Submissions) : Step → Prop
  | .submit op answers => ¬ m.FallsOver op.rankId answers
  | .synchronize rankId answers => m.FallsOver rankId answers →
      ∀ x ∈ s, x.sub = .device → x.op.rankId = rankId → x.completed = true
  | .complete _ => True

/-- The sub-transport that `Synchronize` asks first. -/
def Manager.home (m : Manager) (rankId : ℕ) : SubTransport :=
  if m.triesDevice rankId then .device else .host

/-- Every operation is with the sub-transport of its rank. -/
def AllHome (m : Manager) (s : Submissions) : Prop := ∀ x ∈ s, x.sub = m.home x.op.rankId

variable {op : RemoteOp} {ret : Result} {answers : SubTransport → Result}

theorem submitToHost_cases {answer : Result} (h : m.submitToHost s op answer = some (ret, s')) :
    s' = s ∨ (m.permitsHost op.rankId ∧ answer = .ok ∧ s' = s.accept .host op) := by
  rw [Manager.submitToHost] at h
  split_ifs at h with hperm hhost hanswer
  · exact .inr ⟨hperm, hanswer, (congrArg Prod.snd (some.inj h)).symm⟩
  · exact .inl (congrArg Prod.snd (some.inj h)).symm
  · exact .inl (congrArg Prod.snd (some.inj h)).symm

theorem remoteAsync_cases (hdirect : ¬ m.FallsOver op.rankId answers)
    (h : m.remoteAsync s op answers = some (ret, s')) :
    s' = s ∨ s' = s.accept (m.home op.rankId) op := by
  rw [Manager.remoteAsync] at h
  rw [Manager.home]
  split_ifs at h with hdev
  · rw [if_pos hdev.1]
    exact .inr (congrArg Prod.snd (some.inj h)).symm
  rcases submitToHost_cases h with rfl | ⟨hperm, hhost, rfl⟩
  · exact .inl rfl
  -- the host transport took it, so the device transport was not tried
  have htries : ¬ m.triesDevice op.rankId := fun htries =>
    hdirect ⟨htries, fun hok => hdev ⟨htries, hok⟩, hperm, hhost⟩
  rw [if_neg htries]
  exact .inr rfl

theorem remoteBatchAsync_cases (h : m.remoteBatchAsync s op answers = some (ret, s')) :
    s' = s ∨ s' = s.accept (m.home op.rankId) op := by
  rw [Manager.remoteBatchAsync] at h
  split_ifs at h with hdev
  · exact .inl (congrArg Prod.snd (some.inj h)).symm
  rcases submitToHost_cases h with rfl | ⟨-, -, rfl⟩
  · exact .inl rfl
  have htries : ¬ m.triesDevice op.rankId := by
    simp [Manager.triesDevice, hdev]
  rw [Manager.home, if_neg htries]
  exact .inr rfl

theorem submit_cases (hdirect : ¬ m.FallsOver op.rankId answers)
    (h : m.submit s op answers = some (ret, s')) :
    s' = s ∨ s' = s.accept (m.home op.rankId) op := by
  cases op with
  | read | write => exact remoteAsync_cases hdirect h
  | readBatch | writeBatch => exact remoteBatchAsync_cases h

theorem AllHome.accept (h : AllHome m s) (op : RemoteOp) :
    AllHome m (s.accept (m.home op.rankId) op) := by
  intro x hx
  rcases mem_append.mp hx with hx | hx
  · exact h x hx
  · rw [mem_singleton.mp hx]

theorem AllHome.waitFor (h : AllHome m s) (sub : SubTransport) (rankId : ℕ) :
    AllHome m (s.waitFor sub rankId) := by
  intro x hx
  obtain ⟨y, hy, rfl⟩ := mem_map.mp hx
  split
  · exact h y hy
  · exact h y hy

theorem AllHome.complete (h : AllHome m s) (i : ℕ) : AllHome m (s.complete i) := by
  intro x hx
  obtain ⟨j, hj, rfl⟩ := getElem_of_mem hx
  rw [Submissions.complete, length_modify] at hj
  have hmem := h _ (getElem_mem hj)
  simp only [Submissions.complete, getElem_modify]
  split
  · exact hmem
  · exact hmem

/-- Where no submission falls over, the operations of a rank are all with the sub-transport its
`Synchronize` asks first. -/
theorem all_home (h : (system m).ReachableBy (Direct m) s) : AllHome m s := by
  have hstart : AllHome m (system m).start := nofun
  refine h.invariant hstart ?_
  intro s s' step hs hdirect hnext
  cases step with
  | submit op answers =>
    obtain ⟨⟨ret, s₁⟩, hsubmit, rfl⟩ := map_eq_some_iff.mp hnext
    rcases submit_cases hdirect hsubmit with rfl | rfl
    · exact hs
    · exact hs.accept op
  | synchronize rankId answers =>
    cases hnext
    rw [Manager.synchronize]
    split_ifs
    · exact hs.waitFor .device rankId
    · exact hs.waitFor .host rankId
    · exact hs
  | complete i =>
    cases hnext
    exact hs.complete i

theorem completed_of_waitFor {sub : SubTransport} {rankId : ℕ}
    (h : ∀ x ∈ s, x.op.rankId = rankId → x.sub ≠ sub → x.completed = true) :
    ∀ x ∈ s.waitFor sub rankId, x.op.rankId = rankId → x.completed = true := by
  intro x hx hrank
  obtain ⟨y, hy, rfl⟩ := mem_map.mp hx
  split_ifs at hrank ⊢ with hwaited
  · rfl
  · exact h y hy hrank fun hsub => hwaited ⟨hsub, hrank⟩

/-- Where no submission falls over, `Synchronize` covers the operations of its rank, unless it falls
over itself while the device transport has an unfinished one. -/
theorem synchronize_completes {rankId : ℕ} {answers : SubTransport → Result}
    (h : (system m).ReachableBy (Direct m) s) (hdirect : Direct m s (.synchronize rankId answers))
    (hsync : m.synchronize s rankId answers = (.ok, s')) :
    ∀ x ∈ s', x.op.rankId = rankId → x.completed = true := by
  have hhome := all_home h
  rw [Manager.synchronize] at hsync
  split_ifs at hsync with hdev hhost
  · obtain rfl := congrArg Prod.snd hsync
    refine completed_of_waitFor fun x hx hrank hsub => absurd ?_ hsub
    rw [hhome x hx, hrank, Manager.home, if_pos hdev.1]
  · obtain rfl := congrArg Prod.snd hsync
    refine completed_of_waitFor fun x hx hrank hsub => ?_
    have htries : m.triesDevice rankId := by
      by_contra htries
      apply hsub
      rw [hhome x hx, hrank, Manager.home, if_neg htries]
    refine hdirect ⟨htries, fun hok => hdev ⟨htries, hok⟩, hhost.1, hhost.2.2⟩ x hx ?_ hrank
    rw [hhome x hx, hrank, Manager.home, if_pos htries]
  · cases hsync

/-- Rank 1 may be reached by the device path and the host path, rank 2 by the host path. -/
def twoPaths : Manager where
  tagManager :=
    let tags := (TagInfo.empty.tagInfoInit 0 (Bytes.ofString "a")
      (Bytes.ofString "a:DEVICE_RDMA:a,a:HOST_RDMA:a,a:HOST_RDMA:b")).2
    ((tags.addRankTag 1 (Bytes.ofString "a")).2.addRankTag 2 (Bytes.ofString "b")).2
  rankId := 0
  hasDevice := true
  hasHost := true

def allOk : SubTransport → Result := fun _ => .ok

def hostOnly : SubTransport → Result
  | .device => .error
  | .host => .ok

def threeOps : Submissions :=
  [⟨.device, .write 1 4096 8192 64, false⟩, ⟨.host, .read 2 4096 8192 64, false⟩,
    ⟨.device, .read 1 8192 4096 64, false⟩]

/-- Both sub-transports have operations, which the `Synchronize` of their rank waits for. -/
theorem synchronize_completes_both_paths :
    (system twoPaths).Reachable threeOps ∧ ∀ rankId ∈ [1, 2],
      (twoPaths.synchronize threeOps rankId allOk).1 = .ok ∧
      ∀ x ∈ (twoPaths.synchronize threeOps rankId allOk).2, x.op.rankId = rankId →
        x.completed = true := by
  have hdirect : ∀ rankId, ¬ twoPaths.FallsOver rankId allOk := fun _ h => h.2.1 rfl
  have hsafe : ∀ a ∈ threeOps.map fun x => Step.submit x.op allOk, ∀ s, Direct twoPaths s a :=
    forall_mem_map.mpr fun x _ _ => hdirect x.op.rankId
  have hreach : (system twoPaths).ReachableBy (Direct twoPaths) threeOps :=
    .run .start hsafe (by decide +kernel)
  refine ⟨hreach.reachable, fun rankId hrank => ?_⟩
  have hok : ∀ rankId ∈ [1, 2], (twoPaths.synchronize threeOps rankId allOk).1 = .ok := by
    decide +kernel
  exact ⟨hok rankId hrank, synchronize_completes hreach
    (fun h => absurd h (hdirect rankId)) (Prod.ext (hok rankId hrank) rfl)⟩

/-- The write fell over to the host transport; `Synchronize` waits for the device transport
alone and returns `BM_OK`. -/
theorem synchronize_misses_host :
    ∃ s, (system twoPaths).Reachable s ∧ (twoPaths.synchronize s 1 allOk).1 = .ok ∧
      ∃ x ∈ (twoPaths.synchronize s 1 allOk).2, x.op.rankId = 1 ∧ x.completed = false := by
  have hrun : (system twoPaths).run (system twoPaths).start
      [.submit (.write 1 4096 8192 64) hostOnly] =
        some [⟨.host, .write 1 4096 8192 64, false⟩] := by decide +kernel
  exact ⟨_, TransitionSystem.reachable_of_run hrun, by decide +kernel, by decide +kernel⟩

/-! ### Registered regions -/

/-- `mrs_`, the addresses that the sub-transports have registered, and what they were asked to
register (`true`) or unregister. -/
structure Regions where
  mrs : ℕ → Option ℕ
  held : SubTransport → ℕ → Bool
  asked : List (SubTransport × ℕ × Bool)

/-- The sub-transports that are there, in the order in which they are asked. -/
def Manager.subs (m : Manager) : List SubTransport :=
  (if m.hasDevice then [.device] else []) ++ if m.hasHost then [.host] else []

section

variable (addr : ℕ) (answers : SubTransport → Result)

def askAll (value : Bool) : List SubTransport → Regions → Result × Regions
  | [], s => (.ok, s)
  | sub :: subs, s =>
    if answers sub = .ok then
      askAll value subs ⟨s.mrs, update s.held sub (update (s.held sub) addr value),
        s.asked ++ [(sub, addr, value)]⟩
    else (answers sub, { s with asked := s.asked ++ [(sub, addr, value)] })

def Manager.registerMemoryRegion (m : Manager) (s : Regions) (size : ℕ) : Result × Regions :=
  let r := askAll addr answers true m.subs s
  if r.1 = .ok then
    (.ok, { r.2 with mrs := update s.mrs addr (some ((s.mrs addr).getD size)) })
  else r

def Manager.unregisterMemoryRegion (m : Manager) (s : Regions) : Result × Regions :=
  if s.mrs addr = none then (.invalidParam, s)
  else
    let r := askAll addr answers false m.subs s
    if r.1 = .ok then (.ok, { r.2 with mrs := update s.mrs addr none }) else r

end

inductive RegionCall
  | register (addr size : ℕ) (answers : SubTransport → Result)
  | unregister (addr : ℕ) (answers : SubTransport → Result)

def regionSystem (m : Manager) : TransitionSystem Regions RegionCall where
  start := ⟨fun _ => none, fun _ _ => false, []⟩
  next s
    | .register addr size answers => some (m.registerMemoryRegion addr answers s size).2
    | .unregister addr answers => some (m.unregisterMemoryRegion addr answers s).2

/-- If a sub-transport fails, it is the first one, and none fails to unregister. -/
def together (m : Manager) : RegionCall → Bool
  | .register _ _ answers =>
    (∀ sub ∈ m.subs, answers sub = .ok) ∨ ∃ sub ∈ m.subs.head?, answers sub ≠ .ok
  | .unregister _ answers => ∀ sub ∈ m.subs, answers sub = .ok

/-- Every sub-transport holds the regions of `mrs_`; a call to register that meets `ok` and fails
leaves them as they are, and one to unregister asks both. -/
structure Atomic (m : Manager) (ok : RegionCall → Bool) (s : Regions) : Prop where
  same : ∀ sub ∈ m.subs, ∀ addr, s.held sub addr = (s.mrs addr).isSome
  register : ∀ addr size answers, ok (.register addr size answers) →
    (m.registerMemoryRegion addr answers s size).1 ≠ .ok →
      (m.registerMemoryRegion addr answers s size).2.held = s.held
  unregister : ∀ addr answers, ok (.unregister addr answers) → s.mrs addr ≠ none → ∀ sub ∈ m.subs,
      (sub, addr, false) ∈ (m.unregisterMemoryRegion addr answers s).2.asked.drop s.asked.length

section

variable {addr : ℕ} {value : Bool} {s : Regions} {subs : List SubTransport}

theorem askAll_of_ok (h : ∀ sub ∈ subs, answers sub = .ok) :
    askAll addr answers value subs s = (.ok, ⟨s.mrs,
      fun sub a => if sub ∈ subs ∧ a = addr then value else s.held sub a,
      s.asked ++ subs.map (·, addr, value)⟩) := by
  induction subs generalizing s with
  | nil => simp [askAll]
  | cons sub subs ih =>
    obtain ⟨hsub, hsubs⟩ := forall_mem_cons.mp h
    rw [askAll, if_pos hsub, ih hsubs]
    congr 2
    · funext sub' a
      by_cases hsame : sub' = sub
      · subst hsame
        by_cases ha : a = addr
        · simp [ha]
        · simp [ha]
      · simp [hsame]
    · simp

theorem register_of_error (hfirst : ∃ sub ∈ m.subs.head?, answers sub ≠ .ok) (size : ℕ) :
    ∃ asked, (m.registerMemoryRegion addr answers s size).2 = { s with asked := asked } := by
  obtain ⟨sub, hsub, herror⟩ := hfirst
  unfold Manager.registerMemoryRegion
  cases hsubs : m.subs with
  | nil =>
    rw [hsubs] at hsub
    cases hsub
  | cons sub' subs =>
    rw [hsubs] at hsub
    obtain rfl : sub' = sub := some.inj hsub
    simp [askAll, herror]

/-- The regions that are held once an address is entered, or taken out, everywhere. -/
theorem same_update {sub : SubTransport} (h : ∀ a, s.held sub a = (s.mrs a).isSome)
    (hsub : sub ∈ m.subs) (x : Option ℕ) (a : ℕ) :
    (if sub ∈ m.subs ∧ a = addr then x.isSome else s.held sub a) =
      (update s.mrs addr x a).isSome := by
  by_cases ha : a = addr
  · simp [ha, hsub]
  · simp [ha, h]

theorem same_of_together
    (h : (regionSystem m).ReachableBy (fun _ call => together m call = true) s) :
    ∀ sub ∈ m.subs, ∀ addr, s.held sub addr = (s.mrs addr).isSome := by
  induction h with
  | start => exact fun _ _ _ => rfl
  | @next s s' call _ hcall hnext hsame =>
    intro sub hsub
    cases call with
    | register addr size answers =>
      obtain rfl := some.inj hnext
      rcases of_decide_eq_true hcall with hall | hfirst
      · unfold Manager.registerMemoryRegion
        simp only [askAll_of_ok hall]
        exact same_update (hsame sub hsub) hsub (some _)
      · obtain ⟨asked, heq⟩ := register_of_error hfirst size
        rw [heq]
        exact hsame sub hsub
    | unregister addr answers =>
      obtain rfl := some.inj hnext
      unfold Manager.unregisterMemoryRegion
      split_ifs
      · exact hsame sub hsub
      · simp only [askAll_of_ok (of_decide_eq_true hcall)]
        exact same_update (hsame sub hsub) hsub none

end

end Hybm.Compose
