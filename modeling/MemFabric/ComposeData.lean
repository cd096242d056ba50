/-
Which data operators a copy is handed to.

`HostComposeDataOp` hands a copy to its data operators in a fixed order until one succeeds.  It
may use an operator only for two ranks whose tags permit its kind, so it asks
`GetRank2RankOpType` for the ranks in the options.  The entity finds the ranks of a copy from its
addresses (`locateAddrAndRank`); a batch it groups by ranks, but leaves those in the options at
zero.
-/
import MemFabric.DataOperator
import MemFabric.TagInfo

namespace Hybm.Compose

open List

/-- The operators owned by `HostComposeDataOp`. -/
inductive OperatorId
  | sdma
  | devRdma
  | hostRdma
  deriving DecidableEq

/-- `HostComposeDataOp`: the tags, and which operators were created. -/
structure ComposeDataOp where
  entityTagInfo : TagInfo
  has : OperatorId → Bool

/-- The kinds in the order of `GetPrioritedDataOperators`, each with the operator for it. -/
def priorities : List (DataOpType × OperatorId) :=
  [(.sdma, .sdma), (.deviceRdma, .devRdma), (.hostRdma, .hostRdma), (.hostUrma, .hostRdma),
    (.hostTcp, .hostRdma)]

def ComposeDataOp.getPrioritedDataOperators (c : ComposeDataOp) (options : ExtOptions) :
    List (DataOpType × OperatorId) :=
  let opTypes := c.entityTagInfo.getRank2RankOpType options.srcRankId options.destRankId
  priorities.filter fun x => c.has x.2 && x.1.allowedBy opTypes

/-- A call to an operator: the kind it was chosen for, and the elements it is handed, by their
indices in the caller's parameters and by their values. -/
structure OperatorCall where
  type : DataOpType
  operator : OperatorId
  direction : CopyDirection
  srcRankId : ℕ
  destRankId : ℕ
  stream : Option ℕ
  flags : ℕ
  indices : List ℕ
  items : List CopyParams
  deriving DecidableEq

/-- The elements of one source and one destination rank. -/
abbrev Group := (ℕ × ℕ) × List ℕ

/-- What the rest of the program answers: whether the thread's device is set, what the operators
return, given all calls before, and the order in which an unordered map is visited. -/
structure CopyEnv where
  setThreadAclDevice : Bool
  answer : List OperatorCall → OperatorCall → Result
  visit : { visit : List Group → List Group // ∀ groups, (visit groups).Perm groups }

namespace ComposeDataOp

variable (c : ComposeDataOp) (env : CopyEnv)

/-! ### The compose operator -/

def handOver (calls : List OperatorCall) (call : OperatorCall) : Result × List OperatorCall :=
  (env.answer calls call, calls ++ [call])

/-- The loop of `DataCopy`. -/
def copyByEach (call : DataOpType × OperatorId → OperatorCall) :
    List (DataOpType × OperatorId) → Result → List OperatorCall → Result × List OperatorCall
  | [], result, calls => (result, calls)
  | ops :: rest, _, calls =>
    let out := handOver env calls (call ops)
    if out.1 = .ok then out else copyByEach call rest out.1 out.2

def dataCopy (params : CopyParams) (direction : CopyDirection) (options : ExtOptions)
    (flags : ℕ) : Result × List OperatorCall :=
  let availableOps := c.getPrioritedDataOperators options
  if availableOps = [] then (.invalidParam, [])
  else copyByEach env (fun ops => ⟨ops.1, ops.2, direction, options.srcRankId,
    options.destRankId, options.stream, flags, [0], [params]⟩) availableOps .error []

/-- The loop over the groups: it ends at the first one that fails. -/
def copyGroups (call : Group → OperatorCall) :
    List Group → Result → List OperatorCall → Result × List OperatorCall
  | [], result, calls => (result, calls)
  | group :: rest, _, calls =>
    let out := handOver env calls (call group)
    if out.1 = .ok then copyGroups call rest out.1 out.2 else out

variable (params : BatchCopyParams) (direction : CopyDirection) (options : ExtOptions)

def wholeCall (flags : ℕ) (ops : DataOpType × OperatorId) : OperatorCall :=
  ⟨ops.1, ops.2, direction, options.srcRankId, options.destRankId, options.stream, flags,
    List.range params.items.length, params.items⟩

def groupCall (flags : ℕ) (ops : DataOpType × OperatorId) (group : Group) : OperatorCall :=
  ⟨ops.1, ops.2, direction, group.1.1, group.1.2, options.stream, flags, group.2,
    group.2.filterMap (params.items[·]?)⟩

/-- The batch by one operator: SDMA takes it as it is, the others group by group. -/
def batchByOne (flags : ℕ) (groups : List Group) (ops : DataOpType × OperatorId) (result : Result)
    (calls : List OperatorCall) : Result × List OperatorCall :=
  if ops.1 = .sdma then handOver env calls (wholeCall params direction options flags ops)
  else copyGroups env (groupCall params direction options flags ops) groups result calls

/-- The loop of `BatchDataCopy`. -/
def batchByEach (params : BatchCopyParams) (direction : CopyDirection) (options : ExtOptions)
    (flags : ℕ) (groups : List Group) :
    List (DataOpType × OperatorId) → Result → List OperatorCall → Result × List OperatorCall
  | [], result, calls => (result, calls)
  | ops :: rest, result, calls =>
    let out := batchByOne env params direction options flags groups ops result calls
    if out.1 = .ok then out
    else batchByEach params direction options flags groups rest out.1 out.2

def batchDataCopy (flags : ℕ) (groupMap : List Group) : Result × List OperatorCall :=
  let availableOps := c.getPrioritedDataOperators options
  if availableOps = [] then (.invalidParam, [])
  else batchByEach env params direction options flags (env.visit.1 groupMap) availableOps .error []

end ComposeDataOp

/-! ### The entity -/

/-- The members of `MemEntityDefault` that a copy reads.  A segment is given by its
`GetRankIdByAddr`. -/
structure CopyEntity where
  initialized : Bool
  rankId : ℕ
  dramSegment : Option (ℕ → ℕ → Option ℕ)
  hbmSegment : Option (ℕ → ℕ → Option ℕ)
  sceneTrans : Bool
  dataOperator : Option ComposeDataOp

def valid48BitsAddress (address : ℕ) : ℕ := address % 2 ^ 48

namespace CopyEntity

variable (e : CopyEntity) (env : CopyEnv)

/-- The rank of an address: that of the first segment that knows it, or the own one. -/
def rankOfAddr (addr length : ℕ) : ℕ :=
  match e.dramSegment.bind (· addr length) with
  | some rankId => rankId
  | none => (e.hbmSegment.bind (· addr length)).getD e.rankId

def with48BitsAddresses (params : CopyParams) : CopyParams :=
  { params with
    src := valid48BitsAddress params.src
    dest := valid48BitsAddress params.dest }

/-- `LocateAddrAndRank`: the ranks, and the addresses without their upper bits. -/
def locateAddrAndRank (params : CopyParams) : (ℕ × ℕ) × CopyParams :=
  ((e.rankOfAddr params.src params.dataSize, e.rankOfAddr params.dest params.dataSize),
    with48BitsAddresses params)

/-- `CopyData`; a null data operator is not checked for, so there is no result then. -/
def copyData (params : CopyParams) (direction : CopyDirection) (stream : Option ℕ)
    (flags : ℕ) : Option (Result × List OperatorCall) :=
  if !e.initialized then some (.notInitialized, [])
  else if !env.setThreadAclDevice then some (.error, [])
  else
    let located := e.locateAddrAndRank params
    let params := if e.sceneTrans then located.2 else with48BitsAddresses located.2
    e.dataOperator.map fun c =>
      c.dataCopy env params direction ⟨located.1.1, located.1.2, stream⟩ flags

/-- `groupMap[p2pInfo].push_back(i)`. -/
def pushIndex (p2pInfo : ℕ × ℕ) (i : ℕ) : List Group → List Group
  | [] => [(p2pInfo, [i])]
  | group :: rest =>
    if group.1 = p2pInfo then (p2pInfo, group.2 ++ [i]) :: rest
    else group :: pushIndex p2pInfo i rest

def groupMap (items : List CopyParams) : List Group :=
  (items.map fun params => (e.locateAddrAndRank params).1).zipIdx.foldl
    (fun groups x => pushIndex x.1 x.2 groups) []

/-- `BatchCopyData`: `ExtOptions sOptions{}` has both ranks zero. -/
def batchCopyData (params : BatchCopyParams) (direction : CopyDirection) (stream : Option ℕ)
    (flags : ℕ) : Result × List OperatorCall :=
  if !e.initialized then (.notInitialized, [])
  else if !env.setThreadAclDevice then (.error, [])
  else
    match e.dataOperator with
    | none => (.error, [])
    | some c =>
      let located := { params with items := params.items.map fun p => (e.locateAddrAndRank p).2 }
      c.batchDataCopy env located direction ⟨0, 0, stream⟩ flags (e.groupMap params.items)

def Permitted (c : ComposeDataOp) (type : DataOpType) (params : CopyParams) : Prop :=
  type.allowedBy (c.entityTagInfo.getRank2RankOpType (e.locateAddrAndRank params).1.1
    (e.locateAddrAndRank params).1.2) = true

end CopyEntity

open ComposeDataOp CopyEntity

variable {c : ComposeDataOp} {env : CopyEnv} {e : CopyEntity} {options : ExtOptions}
  {P : OperatorCall → Prop} {calls : List OperatorCall} {params : CopyParams}
  {direction : CopyDirection} {flags j : ℕ} {stream : Option ℕ} {groups : List Group} {q : ℕ × ℕ}

theorem mem_priorited {ops : DataOpType × OperatorId}
    (h : ops ∈ c.getPrioritedDataOperators options) :
    ops.1.allowedBy
      (c.entityTagInfo.getRank2RankOpType options.srcRankId options.destRankId) = true :=
  (Bool.and_eq_true_iff.mp (mem_filter.mp h).2).2

theorem handOver_forall (env : CopyEnv) {call : OperatorCall} (hcalls : ∀ x ∈ calls, P x)
    (hcall : P call) : ∀ x ∈ (handOver env calls call).2, P x := by
  intro x hx
  rcases mem_append.mp hx with hx | hx
  · exact hcalls x hx
  · rw [mem_singleton.mp hx]
    exact hcall

/-! ### Single copies -/

theorem copyByEach_forall {call : DataOpType × OperatorId → OperatorCall}
    {available : List (DataOpType × OperatorId)} (hcall : ∀ ops ∈ available, P (call ops))
    {result : Result} (hcalls : ∀ x ∈ calls, P x) :
    ∀ x ∈ (copyByEach env call available result calls).2, P x := by
  induction available generalizing result calls with
  | nil => exact hcalls
  | cons ops rest ih =>
    have hlog := handOver_forall env hcalls (hcall ops mem_cons_self)
    rw [copyByEach]
    split
    · exact hlog
    · exact ih (fun ops hops => hcall ops (mem_cons_of_mem _ hops)) hlog

theorem dataCopy_permitted :
    ∀ call ∈ (c.dataCopy env params direction options flags).2, call.type.allowedBy
      (c.entityTagInfo.getRank2RankOpType options.srcRankId options.destRankId) = true := by
  rw [dataCopy]
  split
  · nofun
  · refine copyByEach_forall ?_ nofun
    exact fun ops hops => mem_priorited hops

/-- A single copy is handed to permitted operators only. -/
theorem copyData_permitted {out : Result × List OperatorCall} (hc : e.dataOperator = some c)
    (h : e.copyData env params direction stream flags = some out) :
    ∀ call ∈ out.2, e.Permitted c call.type params := by
  rw [copyData, hc] at h
  split at h
  · obtain rfl := Option.some.inj h
    nofun
  split at h
  · obtain rfl := Option.some.inj h
    nofun
  · obtain rfl := Option.some.inj h
    exact dataCopy_permitted

/-! ### Groups -/

def InGroup (groups : List Group) (p2pInfo : ℕ × ℕ) (i : ℕ) : Prop :=
  ∃ indices, (p2pInfo, indices) ∈ groups ∧ i ∈ indices

theorem inGroup_cons {group : Group} {p : ℕ × ℕ} {i : ℕ} :
    InGroup (group :: groups) p i ↔ (group.1 = p ∧ i ∈ group.2) ∨ InGroup groups p i := by
  constructor
  · rintro ⟨indices, hmem, hi⟩
    rcases mem_cons.mp hmem with rfl | hmem
    · exact .inl ⟨rfl, hi⟩
    · exact .inr ⟨indices, hmem, hi⟩
  · rintro (⟨rfl, hi⟩ | ⟨indices, hmem, hi⟩)
    · exact ⟨group.2, mem_cons_self, hi⟩
    · exact ⟨indices, mem_cons_of_mem _ hmem, hi⟩

theorem inGroup_pushIndex {p : ℕ × ℕ} {i : ℕ} :
    InGroup (pushIndex p i groups) q j ↔ InGroup groups q j ∨ (q = p ∧ j = i) := by
  induction groups with
  | nil => simp [pushIndex, InGroup]
  | cons group rest ih =>
    rw [pushIndex]
    split_ifs with hgroup
    · rw [inGroup_cons, inGroup_cons, mem_append, mem_singleton, hgroup]
      constructor
      · rintro (⟨rfl, hj | rfl⟩ | hrest)
        · exact .inl (.inl ⟨rfl, hj⟩)
        · exact .inr ⟨rfl, rfl⟩
        · exact .inl (.inr hrest)
      rintro ((⟨rfl, hj⟩ | hrest) | ⟨rfl, rfl⟩)
      · exact .inl ⟨rfl, .inl hj⟩
      · exact .inr hrest
      · exact .inl ⟨rfl, .inr rfl⟩
    · rw [inGroup_cons, inGroup_cons, ih, or_assoc]

theorem inGroup_foldl {xs : List ((ℕ × ℕ) × ℕ)} :
    InGroup (xs.foldl (fun groups x => pushIndex x.1 x.2 groups) groups) q j ↔
      InGroup groups q j ∨ (q, j) ∈ xs := by
  induction xs generalizing groups with
  | nil => simp
  | cons x rest ih =>
    have hx : (q, j) = x ↔ q = x.1 ∧ j = x.2 := Prod.eq_iff_fst_eq_snd_eq
    rw [foldl_cons, ih, inGroup_pushIndex, or_assoc, mem_cons, hx]

theorem inGroup_groupMap {items : List CopyParams} :
    InGroup (e.groupMap items) q j ↔
      ∃ params, items[j]? = some params ∧ (e.locateAddrAndRank params).1 = q := by
  have hnil : ¬ InGroup [] q j := by
    rintro ⟨indices, hmem, -⟩
    cases hmem
  rw [groupMap, inGroup_foldl, or_iff_right hnil, mk_mem_zipIdx_iff_getElem?,
    getElem?_map, Option.map_eq_some_iff]

/-! ### Batches -/

section

variable {params : BatchCopyParams} {direction : CopyDirection} {options : ExtOptions}
  {flags : ℕ} {groups : List Group} {call : Group → OperatorCall} {result : Result}
  {available : List (DataOpType × OperatorId)} {type : DataOpType} {ops : DataOpType × OperatorId}
  {p2pInfo : ℕ × ℕ}

theorem copyGroups_forall (hcall : ∀ group ∈ groups, P (call group)) (hcalls : ∀ x ∈ calls, P x) :
    ∀ x ∈ (copyGroups env call groups result calls).2, P x := by
  induction groups generalizing result calls with
  | nil => exact hcalls
  | cons group rest ih =>
    have hlog := handOver_forall env hcalls (hcall group mem_cons_self)
    rw [copyGroups]
    split
    · exact ih (fun group hgroup => hcall group (mem_cons_of_mem _ hgroup)) hlog
    · exact hlog

theorem batchByEach_forall
    (hwhole : ∀ ops ∈ available, P (wholeCall params direction options flags ops))
    (hgroup : ∀ ops ∈ available, ∀ group ∈ groups,
      P (groupCall params direction options flags ops group)) (hcalls : ∀ x ∈ calls, P x) :
    ∀ x ∈ (batchByEach env params direction options flags groups available result calls).2,
      P x := by
  induction available generalizing result calls with
  | nil => exact hcalls
  | cons ops rest ih =>
    have hlog : ∀ x ∈
        (batchByOne env params direction options flags groups ops result calls).2, P x := by
      rw [batchByOne]
      split
      · exact handOver_forall env hcalls (hwhole ops mem_cons_self)
      · exact copyGroups_forall (hgroup ops mem_cons_self) hcalls
    rw [batchByEach]
    split
    · exact hlog
    · exact ih (fun ops hops => hwhole ops (mem_cons_of_mem _ hops))
        (fun ops hops => hgroup ops (mem_cons_of_mem _ hops)) hlog

/-- The program around an entity in which one kind alone succeeds. -/
def onlyKind (type : DataOpType) : CopyEnv where
  setThreadAclDevice := true
  answer _ call := if call.type = type then .ok else .error
  visit := ⟨id, fun _ => .rfl⟩

theorem copyGroups_ok (hok : ∀ calls, ∀ group ∈ groups, env.answer calls (call group) = .ok) :
    (copyGroups env call groups result calls).2 = calls ++ groups.map call ∧
      (groups ≠ [] → (copyGroups env call groups result calls).1 = .ok) := by
  induction groups generalizing result calls with
  | nil => exact ⟨(append_nil calls).symm, fun h => absurd rfl h⟩
  | cons group rest ih =>
    have hhead : (handOver env calls (call group)).1 = .ok := hok calls group mem_cons_self
    have hrest := @ih (calls ++ [call group]) .ok
      fun calls group hgroup => hok calls group (mem_cons_of_mem _ hgroup)
    rw [copyGroups, if_pos hhead, hhead]
    refine ⟨?_, fun _ => ?_⟩
    · rw [map_cons, append_cons]
      exact hrest.1
    cases rest with
    | nil => rfl
    | cons group rest => exact hrest.2 (cons_ne_nil group rest)

theorem copyGroups_fails (hgroups : groups ≠ [])
    (hfail : ∀ calls group, env.answer calls (call group) ≠ .ok) :
    (copyGroups env call groups result calls).1 ≠ .ok := by
  cases groups with
  | nil => exact absurd rfl hgroups
  | cons group rest =>
    have hhead : (handOver env calls (call group)).1 ≠ .ok := hfail calls group
    rw [copyGroups, if_neg hhead]
    exact hhead

theorem onlyKind_ok (calls : List OperatorCall) {call : OperatorCall} (h : call.type = type) :
    (onlyKind type).answer calls call = .ok := if_pos h

theorem onlyKind_fails (calls : List OperatorCall) {call : OperatorCall} (h : call.type ≠ type) :
    (onlyKind type).answer calls call ≠ .ok := by
  have hanswer : (onlyKind type).answer calls call = .error := if_neg h
  rw [hanswer]
  decide

theorem batchByOne_ok {i : ℕ} (hi : i < params.items.length) (hgroup : InGroup groups p2pInfo i)
    (hgroups : groups ≠ []) :
    (batchByOne (onlyKind ops.1) params direction options flags groups ops result calls).1 = .ok ∧
      ∃ call ∈ (batchByOne (onlyKind ops.1) params direction options flags groups ops result
        calls).2, call.type = ops.1 ∧ i ∈ call.indices := by
  rw [batchByOne]
  split
  · exact ⟨onlyKind_ok calls rfl, wholeCall params direction options flags ops,
      mem_append_right _ mem_cons_self, rfl, mem_range.mpr hi⟩
  obtain ⟨hlog, hres⟩ := @copyGroups_ok (onlyKind ops.1) calls groups
    (groupCall params direction options flags ops) result
    fun calls group _ => onlyKind_ok calls rfl
  obtain ⟨indices, hmem, hindex⟩ := hgroup
  refine ⟨hres hgroups, groupCall params direction options flags ops (p2pInfo, indices), ?_,
    rfl, hindex⟩
  rw [hlog]
  exact mem_append_right _ (mem_map_of_mem hmem)

theorem batchByOne_fails (hops : ops.1 ≠ type) (hgroups : groups ≠ []) :
    (batchByOne (onlyKind type) params direction options flags groups ops result calls).1 ≠
      .ok := by
  rw [batchByOne]
  split
  · exact onlyKind_fails calls hops
  · exact copyGroups_fails hgroups fun calls group => onlyKind_fails calls hops

theorem batchByEach_reaches (htype : ∃ ops ∈ available, ops.1 = type) {i : ℕ}
    (hi : i < params.items.length) (hgroup : InGroup groups p2pInfo i) :
    ∃ call ∈ (batchByEach (onlyKind type) params direction options flags groups available result
      calls).2, call.type = type ∧ i ∈ call.indices := by
  have hgroups : groups ≠ [] := by
    rintro rfl
    obtain ⟨indices, hmem, -⟩ := hgroup
    cases hmem
  induction available generalizing result calls with
  | nil =>
    obtain ⟨ops, hops, -⟩ := htype
    cases hops
  | cons ops rest ih =>
    rw [batchByEach]
    by_cases hops : ops.1 = type
    · subst hops
      obtain ⟨hok, hreach⟩ := @batchByOne_ok calls params direction options flags groups
        result ops p2pInfo i hi hgroup hgroups
      rw [if_pos hok]
      exact hreach
    rw [if_neg (batchByOne_fails hops hgroups)]
    obtain ⟨ops', hmem, heq⟩ := htype
    rcases mem_cons.mp hmem with rfl | hmem
    · exact absurd heq hops
    · exact ih ⟨ops', hmem, heq⟩

end

/-- Whatever the operators answer, an element of the batch is handed only to operators whose
kind is permitted for its own ranks. -/
def BatchPathsPermitted (e : CopyEntity) (params : BatchCopyParams) : Prop :=
  ∀ c, e.dataOperator = some c → ∀ env direction stream flags,
    ∀ call ∈ (e.batchCopyData env params direction stream flags).2, ∀ i ∈ call.indices,
      ∀ item, params.items[i]? = some item → e.Permitted c call.type item

theorem batchCopyData_eq {params : BatchCopyParams} (hinit : e.initialized = true)
    (hdev : env.setThreadAclDevice = true) (hc : e.dataOperator = some c) :
    e.batchCopyData env params direction stream flags = c.batchDataCopy env
        { params with items := params.items.map fun p => (e.locateAddrAndRank p).2 } direction
        ⟨0, 0, stream⟩ flags (e.groupMap params.items) := by
  simp [batchCopyData, hinit, hdev, hc]

/-- A batch is handed to permitted operators only, whatever they answer, exactly if each operator
that ranks 0 and 0 may use is permitted for the ranks of each element. -/
theorem batchPaths_permitted_iff (e : CopyEntity) (params : BatchCopyParams) :
    BatchPathsPermitted e params ↔ ∀ c, e.dataOperator = some c → e.initialized = true →
        ∀ ops ∈ c.getPrioritedDataOperators ⟨0, 0, none⟩, ∀ item ∈ params.items,
          e.Permitted c ops.1 item := by
  constructor
  · intro h c hc hinit ops hops item hitem
    obtain ⟨i, hi⟩ := mem_iff_getElem?.mp hitem
    have hgroup : InGroup (e.groupMap params.items) (e.locateAddrAndRank item).1 i :=
      inGroup_groupMap.mpr ⟨item, hi, rfl⟩
    have hlen : i < (params.items.map fun p => (e.locateAddrAndRank p).2).length := by
      rw [length_map]
      exact (List.getElem?_eq_some_iff.mp hi).1
    have hne : c.getPrioritedDataOperators ⟨0, 0, none⟩ ≠ [] := ne_nil_of_mem hops
    obtain ⟨call, hcall, htype, hindex⟩ := @batchByEach_reaches []
      { params with items := params.items.map fun p => (e.locateAddrAndRank p).2 }
      .auto ⟨0, 0, none⟩ 0 (e.groupMap params.items) .error _ ops.1 _ ⟨ops, hops, rfl⟩ i hlen
      hgroup
    have hmem : call ∈ (e.batchCopyData (onlyKind ops.1) params .auto none 0).2 := by
      rw [batchCopyData_eq hinit rfl hc, batchDataCopy, if_neg hne]
      exact hcall
    rw [← htype]
    exact h c hc (onlyKind ops.1) .auto none 0 call hmem i hindex item hi
  intro h c hc env direction stream flags call hcall i hindex item hitem
  rw [batchCopyData] at hcall
  split_ifs at hcall with hinit hdev
  · cases hcall
  · cases hcall
  have hallowed := h c hc (by simpa using hinit)
  rw [hc] at hcall
  dsimp only at hcall
  rw [batchDataCopy] at hcall
  split_ifs at hcall with hnone
  · cases hcall
  -- every call is for an available kind, and a group holds elements of its ranks only
  refine @batchByEach_forall env (fun call => ∀ i ∈ call.indices, ∀ item,
    params.items[i]? = some item → e.Permitted c call.type item) _ _ direction ⟨0, 0, stream⟩
    flags _ _ _ ?_ ?_ (fun x hx => absurd hx not_mem_nil)
    call hcall i hindex item hitem
  · intro ops hops i _ item hitem
    exact hallowed ops hops item (mem_of_getElem? hitem)
  · intro ops hops group _ i _ item hitem
    exact hallowed ops hops item (mem_of_getElem? hitem)

/-- A table in which rank 0 may reach itself by device RDMA, and rank 1 by host RDMA only. -/
def hostToPeer : ComposeDataOp where
  entityTagInfo :=
    ((TagInfo.empty.tagInfoInit 0 (Bytes.ofString "a")
      (Bytes.ofString "a:DEVICE_RDMA:a,a:HOST_RDMA:b")).2.addRankTag 1 (Bytes.ofString "b")).2
  has _ := true

/-- Rank 0 with a segment of which rank 1 has the addresses from `2^40`. -/
def peerAbove : CopyEntity where
  initialized := true
  rankId := 0
  dramSegment := some fun addr _ => if 2 ^ 40 ≤ addr then some 1 else none
  hbmSegment := none
  sceneTrans := false
  dataOperator := some hostToPeer

theorem copyData_permitted_to_peer :
    ∃ out, peerAbove.copyData (onlyKind .hostRdma) ⟨0, 2 ^ 40, 64⟩ .localHostToGlobalHost none 0 =
        some out ∧ out.2 ≠ [] ∧
      ∀ call ∈ out.2, peerAbove.Permitted hostToPeer call.type ⟨0, 2 ^ 40, 64⟩ :=
  ⟨_, rfl, by decide +kernel, @copyData_permitted _ (onlyKind .hostRdma) _ _ _ _ none _ rfl rfl⟩

theorem batchPaths_permitted_own_rank :
    BatchPathsPermitted peerAbove ⟨[⟨4096, 8192, 64⟩, ⟨8192, 12288, 64⟩], 0, 0⟩ := by
  refine (batchPaths_permitted_iff _ _).mpr ?_
  intro c hc _ ops hops item hitem
  have hranks : (peerAbove.locateAddrAndRank item).1 = (0, 0) := by
    have hall : ∀ item ∈ [⟨4096, 8192, 64⟩, ⟨8192, 12288, 64⟩],
        (peerAbove.locateAddrAndRank item).1 = (0, 0) := by decide +kernel
    exact hall item hitem
  rw [CopyEntity.Permitted, hranks]
  exact mem_priorited hops

/-- A table and a batch that goes to an operator which is not permitted. -/
theorem batch_path_not_permitted :
    ¬ BatchPathsPermitted peerAbove ⟨[⟨4096, 2 ^ 40, 64⟩], 0, 0⟩ := by
  intro h
  have hcalls : (peerAbove.batchCopyData (onlyKind .deviceRdma) ⟨[⟨4096, 2 ^ 40, 64⟩], 0, 0⟩
      .localHostToGlobalHost none 0).2 =
      [⟨.deviceRdma, .devRdma, .localHostToGlobalHost, 0, 1, none, 0, [0],
        [⟨4096, 2 ^ 40, 64⟩]⟩] := by decide +kernel
  have hpermitted := h hostToPeer rfl (onlyKind .deviceRdma) .localHostToGlobalHost none 0
  have hforbidden : ¬ peerAbove.Permitted hostToPeer .deviceRdma ⟨4096, 2 ^ 40, 64⟩ := by
    unfold CopyEntity.Permitted
    decide +kernel
  exact hforbidden (hpermitted _ mem_cons_self 0 mem_cons_self _ rfl)

end Hybm.Compose
