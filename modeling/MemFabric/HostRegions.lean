/-
The regions that a host RDMA copy registers.

`DataCopy` unregisters the address of its local side whether it has registered it or not, and
`BatchDataCopy` registers and unregisters the addresses of the pointers in place of the buffers.
-/
import MemFabric.HostRdma

namespace Hybm

open Function List OrderedMap

open Program (Triple Keeps)

/-- The registered regions, and the log of what was registered and unregistered. -/
def OpState.regions (s : OpState) : OrderedMap ℕ ℕ × List (ℕ × ℕ) × List (ℕ × ℕ) :=
  (s.mrs, s.registrations, s.unregistrations)

def SameRegions (x : OrderedMap ℕ ℕ × List (ℕ × ℕ) × List (ℕ × ℕ)) (s : OpState) : Prop :=
  s.regions = x

variable {op : DataOperator} {env : Environment} {x : OrderedMap ℕ ℕ × List (ℕ × ℕ) × List (ℕ × ℕ)}

/-! ### Copying keeps the regions -/

theorem keeps_call {c : Call} {f : OpState → OpState} (hf : ∀ s, (f s).regions = s.regions) :
    Keeps (SameRegions x) ((call env c).andThen (.modify f)) :=
  triple_call (fun s hs _ => (hf s.counted).trans hs) fun _ hs _ => hs

namespace HostRdma

theorem kept_sameRegions : Kept op env (SameRegions x) where
  memcpy _ _ := keeps_call fun _ => rfl
  remote _ _ := keeps_call fun _ => rfl
  batchMemcpyAsync _ _ _ := Triple.andThen
    (.forEach_inv fun _ _ => .failWith (by decide) (keeps_call fun _ => rfl))
    (keeps_call fun _ => rfl)
  submitAll _ _ := Triple.finish (.forEach_inv fun _ _ => keeps_call fun _ => rfl)
    (keeps_call fun _ => rfl) (keeps_call fun _ => rfl)
  batchCopyGH2GH items options := by
    have hsmall : ∀ peer ts, Keeps (SameRegions x) (submitSmallIo env peer ts) := by
      intro peer ts
      unfold submitSmallIo
      split
      · exact .give_zero fun _ hs => hs
      · exact fun s hs => ⟨fun _ => hs, fun _ => hs⟩
    exact Triple.finish ((hsmall _ _).andThen (.forEach_inv fun _ _ => keeps_call fun _ => rfl))
      (keeps_call fun _ => rfl) (keeps_call fun _ => rfl)
  withSwap hbody := by
    refine triple_withSwap (fun s hs _ => hs) fun element => ?_
    refine (hbody element.startAddress).pre ?_
    rintro _ ⟨s, hs, -, rfl⟩
    exact hs

/-! ### One call -/

/-- A call of the operator: `DataCopy` or `BatchDataCopy`. -/
inductive CopyCall
  | single (params : CopyParams)
  | batch (params : BatchCopyParams)

def CopyCall.run (op : DataOperator) (env : Environment) (direction : CopyDirection)
    (options : ExtOptions) : CopyCall → Program OpState Result
  | .single params => dataCopy op env params direction options
  | .batch params => batchDataCopy op env params direction options

/-- The local data buffer of a copy, of which both sides are global if the direction is; there
is none where the direction is not one. -/
def localBuffer (op : DataOperator) (env : Environment) (direction : CopyDirection)
    (options : ExtOptions) (params : CopyParams) : Option (ℕ × ℕ) :=
  match if direction = .auto then env.inferCopyDirection params.src params.dest
    else direction with
  | .localHostToGlobalHost | .localHostToGlobalDevice | .localDeviceToGlobalHost
  | .localDeviceToGlobalDevice => some (params.src, params.dataSize)
  | .globalHostToLocalHost | .globalHostToLocalDevice | .globalDeviceToLocalHost
  | .globalDeviceToLocalDevice => some (params.dest, params.dataSize)
  | .globalHostToGlobalHost | .globalHostToGlobalDevice | .globalDeviceToGlobalHost
  | .globalDeviceToGlobalDevice =>
    if options.srcRankId = op.rankId then some (params.src, params.dataSize)
    else if options.destRankId = op.rankId then some (params.dest, params.dataSize)
    else none
  | .auto | .butt => none

def CopyCall.localBuffers (op : DataOperator) (env : Environment) (direction : CopyDirection)
    (options : ExtOptions) : CopyCall → List (ℕ × ℕ)
  | .single params => (localBuffer op env direction options params).toList
  | .batch params => params.items.filterMap (localBuffer op env direction options)

/-- The parameters whose local sides a call registers and unregisters. -/
def CopyCall.sides : CopyCall → List CopyParams
  | .single params => [params]
  | .batch params => params.slots

/-- The local side of a copy, as a region. -/
def localMr (env : Environment) (direction : CopyDirection) (params : CopyParams) : ℕ × ℕ :=
  (getLocalMrAddr env params direction, params.dataSize)

/-- An operator that is initialized is given no side where a registered region begins, and each
side that it registers, being large and not in a registered region, is a local buffer. -/
def CopyCall.Separate (op : DataOperator) (env : Environment) (direction : CopyDirection)
    (options : ExtOptions) (s : OpState) (copyCall : CopyCall) : Prop :=
  op.inited = true → ∀ mr ∈ copyCall.sides.map (localMr env direction),
    s.mrs.lookup mr.1 = none ∧
    (preRegSizeThres < mr.2 → s.queryHasRegistered mr.1 mr.2 = false →
      mr ∈ copyCall.localBuffers op env direction options)

/-- The registered regions are the same behind a call, what it has registered meanwhile are
local buffers, and it has not unregistered what was there before. -/
structure Undisturbed (buffers : List (ℕ × ℕ)) (s s' : OpState) : Prop where
  same : s'.mrs = s.mrs
  registered : ∃ added, s'.registrations = s.registrations ++ added ∧
    ∀ region ∈ added, region ∈ buffers
  unregistered : ∃ removed, s'.unregistrations = s.unregistrations ++ removed ∧
    ∀ region ∈ removed, region ∉ s.mrs.entries

/-- The same environment with other answers to the calls. -/
def withOutcome (env : Environment) (outcome : OpState → Call → Result) : Environment :=
  { env with outcome := outcome }

/-! ### Registration -/

variable {direction : CopyDirection} {s s' : OpState}

/-- What is registered stays registered when a region is entered that was not. -/
theorem queryHasRegistered_enter {addr size k n : ℕ}
    (hnew : s.queryHasRegistered addr size = false) (h : s.queryHasRegistered k n = true) :
    (s.enter addr size).queryHasRegistered k n = true := by
  cases hlook : s.mrs.lookup addr with
  | some old =>
    have hsame : (s.enter addr size).mrs = s.mrs := emplace_of_some hlook size
    unfold OpState.queryHasRegistered at h ⊢
    rwa [hsame]
  | none =>
  have hmrs : (s.enter addr size).mrs.lookup = update s.mrs.lookup addr (some size) :=
    lookup_emplace hlook size
  cases hup : s.mrs.upTo k with
  | none =>
    rw [OpState.queryHasRegistered, hup] at h
    cases h
  | some region =>
  obtain ⟨first, regionSize⟩ := region
  obtain ⟨hfirst, hle, hlast⟩ := upTo_eq_some hup
  have hne : first ≠ addr := by
    rintro rfl
    rw [hlook] at hfirst
    cases hfirst
  rw [OpState.queryHasRegistered, hup] at h
  by_cases hbetween : first < addr ∧ addr ≤ k
  · -- the new region is the last before `k`, and it ends behind the one that was
    have hold : s.mrs.upTo addr = some (first, regionSize) :=
      upTo_eq hfirst hbetween.1.le fun hk' hlt =>
        lt_of_not_ge fun hge => absurd (hlast _ _ hk' (hge.trans hbetween.2)) hlt.not_ge
    have hup' : (s.enter addr size).mrs.upTo k = some (addr, size) := by
      refine upTo_eq (by rw [hmrs, update_self]) hbetween.2 fun {k'} _ hk' hlt => ?_
      rw [hmrs, update_of_ne hlt.ne'] at hk'
      exact lt_of_not_ge fun hge =>
        absurd (hlast _ _ hk' hge) (hbetween.1.trans hlt).not_ge
    rw [OpState.queryHasRegistered, hold] at hnew
    rw [OpState.queryHasRegistered, hup']
    have hend := of_decide_eq_true h
    have hbehind := of_decide_eq_false hnew
    exact decide_eq_true (by omega)
  · have hup' : (s.enter addr size).mrs.upTo k = some (first, regionSize) := by
      refine upTo_eq (by rw [hmrs, update_of_ne hne]; exact hfirst) hle
        fun {k'} _ hk' hlt => ?_
      rcases eq_or_ne k' addr with rfl | hk
      · omega
      rw [hmrs, update_of_ne hk] at hk'
      exact lt_of_not_ge fun hge => absurd (hlast _ _ hk' hge) hlt.not_ge
    rwa [OpState.queryHasRegistered, hup']

/-- `s'` is `s` with regions of `done` registered. -/
structure Entered (s : OpState) (done : List (ℕ × ℕ)) (s' : OpState) : Prop where
  kept : ∀ k ∉ done.map Prod.fst, s'.mrs.lookup k = s.mrs.lookup k
  query : ∀ k n, s.queryHasRegistered k n = true → s'.queryHasRegistered k n = true
  registrations : ∃ added, s'.registrations = s.registrations ++ added ∧
    ∀ mr ∈ added, mr ∈ done ∧ preRegSizeThres < mr.2 ∧ s.queryHasRegistered mr.1 mr.2 = false
  unregistrations : s'.unregistrations = s.unregistrations

theorem preRegisterLocalMr_regions {side : CopyParams} {mr : ℕ × ℕ}
    (hmr : localMr env direction side = mr) (s : OpState) :
    (preRegisterLocalMr env side direction s).1 = 0 ∧
      (preRegisterLocalMr env side direction s).2.regions =
        if preRegSizeThres < mr.2 ∧ s.queryHasRegistered mr.1 mr.2 = false ∧
          env.outcome s (.registerMemoryRegion mr.1 mr.2) = 0
        then (s.enter mr.1 mr.2).regions else s.regions := by
  subst hmr
  unfold preRegisterLocalMr localMr
  by_cases hsize : side.dataSize ≤ preRegSizeThres
  · rw [if_pos hsize, if_neg fun h => absurd hsize h.1.not_ge]
    exact ⟨rfl, rfl⟩
  rw [if_neg hsize]
  by_cases hquery : s.queryHasRegistered (getLocalMrAddr env side direction) side.dataSize = true
  · rw [if_pos hquery, if_neg fun h => absurd hquery (ne_true_of_eq_false h.2.1)]
    exact ⟨rfl, rfl⟩
  rw [if_neg hquery]
  refine ⟨rfl, ?_⟩
  unfold Program.ignore registerMemoryRegion Program.andThen
  by_cases hanswer : (call env (.registerMemoryRegion (getLocalMrAddr env side direction)
      side.dataSize) s).1 = 0
  · rw [if_pos hanswer, if_pos ⟨Nat.lt_of_not_le hsize, eq_false_of_ne_true hquery, hanswer⟩]
    rfl
  · rw [if_neg hanswer, if_neg fun h => hanswer h.2.2]
    rfl

theorem Entered.refl : Entered s [] s where
  kept _ _ := rfl
  query _ _ h := h
  registrations := ⟨[], (append_nil _).symm, nofun⟩
  unregistrations := rfl

theorem Entered.of_regions {s'' : OpState} {done : List (ℕ × ℕ)} (h : Entered s done s')
    (hregs : s''.regions = s'.regions) (more : List (ℕ × ℕ)) : Entered s (done ++ more) s'' := by
  have hmrs : s''.mrs = s'.mrs := congrArg Prod.fst hregs
  obtain ⟨added, hadded, hdone⟩ := h.registrations
  refine ⟨fun k hk => ?_, fun k n hq => ?_, ⟨added, ?_, fun mr hmr => ?_⟩, ?_⟩
  · rw [map_append, mem_append, not_or] at hk
    rw [hmrs]
    exact h.kept k hk.1
  · rw [OpState.queryHasRegistered, hmrs]
    exact h.query k n hq
  · exact (congrArg (fun r => r.2.1) hregs).trans hadded
  · exact (hdone mr hmr).imp_left (mem_append_left more)
  · exact (congrArg (fun r => r.2.2) hregs).trans h.unregistrations

theorem Entered.enter {done : List (ℕ × ℕ)} {mr : ℕ × ℕ} (h : Entered s done s')
    (hsize : preRegSizeThres < mr.2) (hquery : s'.queryHasRegistered mr.1 mr.2 = false) :
    Entered s (done ++ [mr]) (s'.enter mr.1 mr.2) := by
  obtain ⟨added, hadded, hdone⟩ := h.registrations
  -- what was registered at first is so now, hence this region was not
  have hfirst : s.queryHasRegistered mr.1 mr.2 = false := eq_false_of_ne_true fun hq => by
    rw [h.query _ _ hq] at hquery
    cases hquery
  refine ⟨fun k hk => ?_, fun k n hq => queryHasRegistered_enter hquery (h.query k n hq),
    ⟨added ++ [mr], ?_, fun q hq => ?_⟩, h.unregistrations⟩
  · rw [map_append, mem_append, not_or] at hk
    rw [← h.kept k hk.1]
    show (s'.mrs.emplace _ _).lookup k = _
    cases hlook : s'.mrs.lookup mr.1 with
    | some old => rw [emplace_of_some hlook]
    | none => rw [lookup_emplace hlook, update_of_ne (ne_of_not_mem_cons hk.2)]
  · show s'.registrations ++ _ = _
    rw [hadded, append_assoc]
  · rcases mem_append.mp hq with hq | hq
    · exact (hdone q hq).imp_left (mem_append_left _)
    · rw [mem_singleton.mp hq]
      exact ⟨mem_append_right _ (mem_singleton_self mr), hsize, hfirst⟩

theorem entered_forEach (sides : List CopyParams) (s : OpState) :
    Program.Runs (fun s' => s' = s)
      (Program.forEach (fun side => preRegisterLocalMr env side direction) sides)
      (Entered s (sides.map (localMr env direction))) := by
  refine Triple.pre (Triple.forEach (J := fun (done : List CopyParams) (s' : OpState) =>
    Entered s (done.map (localMr env direction)) s') fun done side _ _ s' hs' => ?_)
    (by rintro _ rfl; exact Entered.refl)
  obtain ⟨hok, hregs⟩ := preRegisterLocalMr_regions rfl s'
  refine ⟨fun _ => ?_, fun hfail => hfail hok⟩
  rw [map_append]
  split at hregs
  · next hnew => exact append_nil (_ ++ _) ▸ (hs'.enter hnew.1 hnew.2.1).of_regions hregs []
  · exact hs'.of_regions hregs _

/-! ### Unregistration -/

/-- `s'` is `s` without what begins where a region of `done` does. -/
structure Removed (s : OpState) (done : List (ℕ × ℕ)) (s' : OpState) : Prop where
  gone : ∀ mr ∈ done, s'.mrs.lookup mr.1 = none
  kept : ∀ k ∉ done.map Prod.fst, s'.mrs.lookup k = s.mrs.lookup k
  registrations : s'.registrations = s.registrations
  unregistrations : ∃ removed, s'.unregistrations = s.unregistrations ++ removed ∧
    ∀ region ∈ removed, ∃ mr ∈ done, region.1 = mr.1

theorem Removed.refl : Removed s [] s where
  gone := nofun
  kept _ _ := rfl
  registrations := rfl
  unregistrations := ⟨[], (append_nil _).symm, nofun⟩

theorem Removed.unregister {done : List (ℕ × ℕ)} {mr : ℕ × ℕ}
    (hanswer : env.outcome s' (.unregisterMemoryRegion mr.1) = 0) (h : Removed s done s') :
    Removed s (done ++ [mr]) ((unregisterMemoryRegion env mr.1).ignore s').2 := by
  obtain ⟨removed, hremoved, hdone⟩ := h.unregistrations
  have hmore : ∀ region ∈ removed, ∃ q ∈ done ++ [mr], region.1 = q.1 := fun region hregion =>
    (hdone region hregion).imp fun q hq => hq.imp_left (mem_append_left _)
  unfold Program.ignore unregisterMemoryRegion
  cases hlook : s'.mrs.lookup mr.1 with
  | none =>
    refine ⟨fun q hq => ?_, fun k hk => ?_, h.registrations, ⟨removed, hremoved, hmore⟩⟩
    · rcases mem_append.mp hq with hq | hq
      · exact h.gone q hq
      · rwa [mem_singleton.mp hq]
    · rw [map_append, mem_append, not_or] at hk
      exact h.kept k hk.1
  | some size =>
    have hstate : ((call env (.unregisterMemoryRegion mr.1)).andThen
        (.modify fun s => s.remove mr.1 size) s').2 = s'.counted.remove mr.1 size :=
      congrArg Prod.snd (if_pos hanswer)
    have hlookup : (s'.counted.remove mr.1 size).mrs.lookup =
        update s'.mrs.lookup mr.1 none := lookup_erase s'.mrs _
    dsimp only
    rw [hstate]
    refine ⟨fun q hq => ?_, fun k hk => ?_, h.registrations,
      ⟨removed ++ [(mr.1, size)], ?_, fun region hregion => ?_⟩⟩
    · rw [hlookup]
      by_cases heq : q.1 = mr.1
      · rw [heq, update_self]
      · rw [update_of_ne heq]
        exact h.gone q ((mem_append.mp hq).resolve_right fun hq =>
          heq (congrArg Prod.fst (mem_singleton.mp hq)))
    · rw [map_append, mem_append, not_or] at hk
      rw [hlookup, update_of_ne (ne_of_not_mem_cons hk.2)]
      exact h.kept k hk.1
    · show s'.unregistrations ++ _ = _
      rw [hremoved, append_assoc]
    · rcases mem_append.mp hregion with hregion | hregion
      · exact hmore region hregion
      · rw [mem_singleton.mp hregion]
        exact ⟨mr, mem_append_right _ (mem_singleton_self mr), rfl⟩

theorem removed_forEach (hanswer : ∀ s addr, env.outcome s (.unregisterMemoryRegion addr) = 0)
    (sides : List CopyParams) (s : OpState) :
    Program.Runs (fun s' => s' = s)
      (Program.forEach (fun side =>
        (unregisterMemoryRegion env (getLocalMrAddr env side direction)).ignore) sides)
      (Removed s (sides.map (localMr env direction))) := by
  refine Triple.pre (Triple.forEach (J := fun (done : List CopyParams) (s' : OpState) =>
    Removed s (done.map (localMr env direction)) s') fun done side _ _ s' hs' => ?_)
    (by rintro _ rfl; exact Removed.refl)
  refine ⟨fun _ => ?_, fun hfail => hfail rfl⟩
  rw [map_append]
  show Removed s (_ ++ [localMr env direction side]) _
  exact hs'.unregister (hanswer _ _)

/-! ### A call -/

/-- What an initialized operator does to the regions: it registers the sides, leaves the regions
alone while it copies, and unregisters the sides. -/
theorem CopyCall.run_regions (hinited : op.inited = true) (env : Environment)
    (hanswer : ∀ s addr, env.outcome s (.unregisterMemoryRegion addr) = 0) (copyCall : CopyCall)
    (direction : CopyDirection) (options : ExtOptions) (s : OpState) : ∃ s',
      s'.regions = (Program.forEach (fun side => preRegisterLocalMr env side direction)
        copyCall.sides s).2.regions ∧
      Removed s' (copyCall.sides.map (localMr env direction))
        (copyCall.run op env direction options s).2 := by
  cases copyCall with
  | single params =>
    obtain ⟨hok, -⟩ := @preRegisterLocalMr_regions env direction params _ rfl s
    refine ⟨(copyByDirection op env params direction options
      (preRegisterLocalMr env params direction s).2).2, ?_, ?_⟩
    · refine (Triple.elim (kept_sameRegions.copyByDirection params direction options) rfl).trans ?_
      show _ = OpState.regions (Program.andThen _ (.give 0) s).2
      unfold Program.andThen
      rw [if_pos hok]
      rfl
    · have hrun : (dataCopy op env params direction options s).2 =
          ((unregisterMemoryRegion env (getLocalMrAddr env params direction)).ignore
            (copyByDirection op env params direction options
              (preRegisterLocalMr env params direction s).2).2).2 := by
        unfold dataCopy
        rw [if_pos hinited]
        unfold Program.andThen
        rw [if_pos hok]
        rfl
      show Removed _ [localMr env direction params] (dataCopy op env params direction options s).2
      rw [hrun]
      exact Removed.refl.unregister (hanswer _ _)
  | batch params =>
    have hpre : (batchPreRegisterLocalMr env params direction s).1 = 0 :=
      ((entered_forEach params.slots s).apply rfl).1
    refine ⟨(batchCopyByDirection op env params direction options
      (batchPreRegisterLocalMr env params direction s).2).2, ?_, ?_⟩
    · exact Triple.elim (kept_sameRegions.batchCopyByDirection params direction options) rfl
    · have hrun : (batchDataCopy op env params direction options s).2 =
          (batchUnRegisterLocalMr env params direction
            (batchCopyByDirection op env params direction options
              (batchPreRegisterLocalMr env params direction s).2).2).2 := by
        unfold batchDataCopy
        rw [if_pos hinited]
        unfold Program.andThen
        rw [if_pos hpre]
        rfl
      show Removed _ _ (batchDataCopy op env params direction options s).2
      rw [hrun]
      exact ((removed_forEach hanswer params.slots _).apply rfl).2

theorem undisturbed_of_separate
    (hanswer : ∀ s addr, env.outcome s (.unregisterMemoryRegion addr) = 0) {copyCall : CopyCall}
    {options : ExtOptions} (hsep : copyCall.Separate op env direction options s) :
    Undisturbed (copyCall.localBuffers op env direction options) s
      (copyCall.run op env direction options s).2 := by
  by_cases hinited : op.inited = true
  · obtain ⟨s', hregs, hremoved⟩ :=
      CopyCall.run_regions hinited env hanswer copyCall direction options s
    have hentered := ((entered_forEach copyCall.sides s).apply rfl).2.of_regions hregs []
    rw [append_nil] at hentered
    obtain ⟨added, hadded, hsides⟩ := hentered.registrations
    obtain ⟨removed, hunregistered, hgone⟩ := hremoved.unregistrations
    refine ⟨ext_lookup (funext fun k => ?_), ⟨added, ?_, fun mr hmr => ?_⟩,
      ⟨removed, ?_, fun region hregion hmem => ?_⟩⟩
    · by_cases hk : k ∈ (copyCall.sides.map (localMr env direction)).map Prod.fst
      · obtain ⟨mr, hmr, rfl⟩ := mem_map.mp hk
        rw [hremoved.gone mr hmr, (hsep hinited mr hmr).1]
      · rw [hremoved.kept k hk, hentered.kept k hk]
    · rw [hremoved.registrations, hadded]
    · obtain ⟨hside, hsize, hquery⟩ := hsides mr hmr
      exact (hsep hinited mr hside).2 hsize hquery
    · rw [hunregistered, hentered.unregistrations]
    · obtain ⟨mr, hmr, heq⟩ := hgone region hregion
      rw [mem_entries_iff, heq, (hsep hinited mr hmr).1] at hmem
      cases hmem
  · have hrun : (copyCall.run op env direction options s).2 = s := by
      cases copyCall with
      | single params => exact congrArg (fun p : Program OpState Result => (p s).2) (if_neg hinited)
      | batch params => exact congrArg (fun p : Program OpState Result => (p s).2) (if_neg hinited)
    rw [hrun]
    refine ⟨rfl, ⟨[], (append_nil _).symm, ?_⟩, ⟨[], (append_nil _).symm, ?_⟩⟩
    · exact fun region hregion => absurd hregion not_mem_nil
    · exact fun region hregion => absurd hregion not_mem_nil

/-- Every call succeeds except that only one region is registered. -/
def onlyRegion (mr : ℕ × ℕ) (_ : OpState) : Call → Result
  | .registerMemoryRegion addr size => if (addr, size) = mr then 0 else .invalidParam
  | _ => 0

theorem registered_onlyRegion {sides : List CopyParams} {mr : ℕ × ℕ}
    (hmr : mr ∈ sides.map (localMr env direction)) (hsize : preRegSizeThres < mr.2)
    (hquery : s.queryHasRegistered mr.1 mr.2 = false) :
    ∃ added, (Program.forEach (fun q => preRegisterLocalMr
        (withOutcome env (onlyRegion mr)) q direction) sides s).2.registrations =
      s.registrations ++ added ∧ mr ∈ added := by
  let env' := withOutcome env (onlyRegion mr)
  -- nothing changes until the one region is registered
  have hloop : Program.Runs (fun s' => s' = s)
      (Program.forEach (fun q => preRegisterLocalMr env' q direction) sides)
      fun s' => (∃ added, s'.registrations = s.registrations ++ added ∧ mr ∈ added) ∨
        s'.regions = s.regions ∧ mr ∉ sides.map (localMr env direction) := by
    refine Triple.pre (Triple.forEach (J := fun (done : List CopyParams) (s' : OpState) =>
      (∃ added, s'.registrations = s.registrations ++ added ∧ mr ∈ added) ∨
        s'.regions = s.regions ∧ mr ∉ done.map (localMr env direction))
      fun done q _ _ s' hs' => ?_) (by rintro _ rfl; exact .inr ⟨rfl, not_mem_nil⟩)
    obtain ⟨hok, hregs⟩ := @preRegisterLocalMr_regions env' direction q _ rfl s'
    refine ⟨fun _ => ?_, fun hfail => hfail hok⟩
    rcases hs' with ⟨added, hadded, hmem⟩ | ⟨hsame, hnew⟩
    · left
      split at hregs
      · refine ⟨added ++ [localMr env' direction q],
          (congrArg (fun r => r.2.1) hregs).trans ?_, mem_append_left _ hmem⟩
        show s'.registrations ++ _ = _
        rw [hadded, append_assoc]
      · exact ⟨added, (congrArg (fun r => r.2.1) hregs).trans hadded, hmem⟩
    by_cases hq : localMr env direction q = mr
    · rw [show localMr env' direction q = mr from hq, if_pos] at hregs
      · refine .inl ⟨[mr], (congrArg (fun r => r.2.1) hregs).trans ?_, mem_singleton_self _⟩
        show s'.registrations ++ _ = _
        rw [show s'.registrations = s.registrations from congrArg (fun r => r.2.1) hsame]
      · refine ⟨hsize, ?_, if_pos rfl⟩
        rw [OpState.queryHasRegistered, show s'.mrs = s.mrs from congrArg Prod.fst hsame]
        exact hquery
    · rw [if_neg] at hregs
      · refine .inr ⟨hregs.trans hsame, fun hmem => ?_⟩
        rw [map_append, mem_append] at hmem
        exact hmem.elim hnew fun hmem => hq (mem_singleton.mp hmem).symm
      · rintro ⟨-, -, hanswer⟩
        have hrefused : (if localMr env direction q = mr then 0 else .invalidParam) = Result.ok :=
          hanswer
        rw [if_neg hq] at hrefused
        cases hrefused
  exact (hloop.apply rfl).2.resolve_right fun h => h.2 hmr

/-- A copy of more than 8 MiB, beside a region of the user. -/
def largeCopy : CopyCall := .single ⟨2 ^ 30, 2 ^ 44, 2 ^ 24⟩

def largeState : OpState := .idle firstOfTwo (.singleton 4096 4096)

end HostRdma

end Hybm
