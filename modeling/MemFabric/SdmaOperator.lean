/-
The SDMA data operator down to the hardware layer.

`HostDataOpSDMA` copies between global addresses by tasks of a stream, whose length is 32 bits
wide (`copyG2G`, `copyG2GAsync`), or, if the flags ask for it, by a kernel or the runtime,
which take 64-bit sizes.  Local host memory goes through a buffer on the device.  A batch of
global copies is merged first: elements that continue one another on both sides become one
task (`mergeRuns`).

The functions are followed by their rules, as in `RemoteRequests`.
-/
import MemFabric.RemoteRequests

namespace Hybm.Sdma

open List Requests

variable {α : Type*} {v : ℕ × ℕ → α}

/-- `flags & ASYNC_COPY_FLAG`. -/
def asyncCopy (flags : ℕ) : Bool := flags.testBit 0

/-- `flags & COPY_EXTEND_FLAG`. -/
def copyExtend (flags : ℕ) : Bool := flags.testBit 1

/-- `HYBM_SINGLE_PARAM_NUM`. -/
def singleParamNum : ℕ := 16 * 1024

theorem dlFunctionFailed_ne_zero : Result.dlFunctionFailed ≠ 0 := by decide

section

variable (env : HwEnv)

/-! ### Global to global -/

/-- `CopyG2G`; a span has the source first. -/
def copyG2G (destVA srcVA count flags : ℕ) : Program HwState Result :=
  if copyExtend flags then
    (request env [⟨srcVA, destVA, count⟩]).andThen <|
    (ask env .aclrtSynchronizeStream).failWith .error
  else
    ((ask env .threadHybmStream).failWith .error).andThen <|
    ((request env [⟨srcVA, destVA, narrow count⟩]).failWith .error).andThen <|
    (ask env .synchronize).failWith .error

/-- The condition under which `CopyG2GAsync` submits to the caller's stream. -/
def toAclStream (flags : ℕ) (stream : Option ℕ) : Bool := asyncCopy flags && stream.isSome

/-- `CopyG2GAsync`: on the caller's stream, the kernel and `RtMemcpyAsync` both take the whole
size. -/
def copyG2GAsync (destVA srcVA count flags : ℕ) (stream : Option ℕ) : Program HwState Result :=
  if toAclStream flags stream then request env [⟨srcVA, destVA, count⟩]
  else
    ((ask env .threadHybmStream).failWith .error).andThen <|
    (request env [⟨srcVA, destVA, narrow count⟩]).failWith .error

def wait : Program HwState Result :=
  ((ask env .threadHybmStream).failWith .error).andThen (ask env .synchronize)

/-! ### Local host memory -/

/-- `CopyLH2GD` and `CopyLH2GH` alike. -/
def copyLH2G (gvaAddr hostAddr count : ℕ) : Program HwState Result :=
  withBuffer env (.aclrtMalloc count) .dlFunctionFailed fun copyDevice =>
    ((ask env (.memcpy copyDevice hostAddr count)).failWith .dlFunctionFailed).andThen <|
    copyG2G env gvaAddr copyDevice count 0

/-- `CopyGD2LH` and `CopyGH2LH` alike. -/
def copyG2LH (hostAddr gvaAddr count : ℕ) : Program HwState Result :=
  withBuffer env (.aclrtMalloc count) .dlFunctionFailed fun copyDevice =>
    (copyG2G env copyDevice gvaAddr count 0).andThen <|
    (ask env (.memcpy hostAddr copyDevice count)).failWith .dlFunctionFailed

def copyLH2GD (gvaAddr hostAddr count : ℕ) : Program HwState Result :=
  copyLH2G env gvaAddr hostAddr count

def copyLH2GH (destVA srcVA length : ℕ) : Program HwState Result :=
  copyLH2G env destVA srcVA length

def copyGD2LH (hostAddr gvaAddr count : ℕ) : Program HwState Result :=
  copyG2LH env hostAddr gvaAddr count

def copyGH2LH (destVA srcVA length : ℕ) : Program HwState Result :=
  copyG2LH env destVA srcVA length

/-! ### `DataCopy` -/

/-- The cases of `DataCopy` and `DataCopyAsync`, which differ in the global copies only. -/
def copyBy (g2g : CopyParams → Program HwState Result) (params : CopyParams) :
    CopyDirection → Program HwState Result
  | .localHostToGlobalDevice => copyLH2GD env params.dest params.src params.dataSize
  | .globalDeviceToLocalHost => copyGD2LH env params.dest params.src params.dataSize
  | .localHostToGlobalHost => copyLH2GH env params.dest params.src params.dataSize
  | .globalHostToLocalHost => copyGH2LH env params.dest params.src params.dataSize
  | .auto => .give .invalidParam
  | .butt => .give .invalidParam
  | _ => g2g params

def dataCopyAsync (params : CopyParams) (direction : CopyDirection) (flags : ℕ)
    (stream : Option ℕ) : Program HwState Result :=
  copyBy env (fun x => copyG2GAsync env x.dest x.src x.dataSize flags stream) params direction

def dataCopy (inited : Bool) (params : CopyParams) (direction : CopyDirection) (flags : ℕ)
    (stream : Option ℕ) : Program HwState Result :=
  if inited then
    if asyncCopy flags then dataCopyAsync env params direction flags stream
    else copyBy env (fun x => copyG2G env x.dest x.src x.dataSize flags) params direction
  else .give .notInitialized

/-! ### `BatchDataCopy` -/

def spanOf (x : CopyParams) : Span := ⟨x.src, x.dest, x.dataSize⟩

/-- An element continues the run before it, on both sides. -/
def continues (run : Span) (x : CopyParams) : Bool :=
  0 < run.len && (run.near + run.len) % 2 ^ 64 == x.src && (run.far + run.len) % 2 ^ 64 == x.dest

/-- The copies that the loop of `BatchCopyG2G` submits, `run` being the one that is collected.
The last one is submitted even if it is empty. -/
def mergeRuns (run : Span) : List CopyParams → List Span
  | [] => [run]
  | x :: rest =>
    if continues run x then mergeRuns { run with len := (run.len + x.dataSize) % 2 ^ 64 } rest
    else if 0 < run.len then run :: mergeRuns (spanOf x) rest
    else mergeRuns (spanOf x) rest

/-- The submissions of a batch: one that fails does not end the loop. -/
def submitAll (flags : ℕ) (stream : Option ℕ) : List Span → Program HwState Result
  | [] => .give 0
  | x :: rest =>
    (copyG2GAsync env x.far x.near x.len flags stream).finish (submitAll flags stream rest)

/-- `BatchCopyExtend`: the kernel takes the elements in tables of `HYBM_SINGLE_PARAM_NUM`; the
number of tables is computed in 32 bits. -/
def batchCopyExtend (items : List CopyParams) (flags : ℕ) : Program HwState Result :=
  let taskNum := narrow (items.length + singleParamNum - 1) / singleParamNum
  (Program.forEach (fun idx =>
    ((ask env .paramSpace).failWith .error).andThen <|
    (request env (((items.map spanOf).drop (idx * singleParamNum)).take
      singleParamNum)).failWith .error) (List.range taskNum)).andThen <|
  if asyncCopy flags then .give 0 else (ask env .aclrtSynchronizeStream).failWith .error

def batchCopyG2G (items : List CopyParams) (flags : ℕ) (stream : Option ℕ) :
    Program HwState Result :=
  if copyExtend flags then batchCopyExtend env items flags
  else
    (submitAll env flags stream (mergeRuns ⟨0, 0, 0⟩ items)).finish <|
    if asyncCopy flags then .give 0 else wait env

def batchDataCopy (items : List CopyParams) (direction : CopyDirection) (flags : ℕ)
    (stream : Option ℕ) : Program HwState Result :=
  match direction with
  | .localHostToGlobalDevice => .forEach (fun x => copyLH2GD env x.dest x.src x.dataSize) items
  | .globalDeviceToLocalHost => .forEach (fun x => copyGD2LH env x.dest x.src x.dataSize) items
  | .localHostToGlobalHost => .forEach (fun x => copyLH2GH env x.dest x.src x.dataSize) items
  | .globalHostToLocalHost => .forEach (fun x => copyGH2LH env x.dest x.src x.dataSize) items
  | _ => batchCopyG2G env items flags stream

end

/-! ### What they request -/

variable {env : HwEnv} {flags : ℕ} {stream : Option ℕ}

theorem requests_copyG2G {destVA srcVA count : ℕ} (hcount : copyExtend flags ∨ count < 2 ^ 32) :
    Requests v (copyG2G env destVA srcVA count flags) (seen v [⟨srcVA, destVA, count⟩]) := by
  rw [copyG2G]
  split
  · exact (Requests.request _).before (requests_check _)
  next hextend =>
  rw [narrow_of_lt (hcount.resolve_left hextend)]
  refine (requests_check _).after (before ?_ (requests_check _))
  exact (Requests.request _).failWith error_ne_zero

theorem requests_copyG2GAsync {destVA srcVA count : ℕ}
    (hcount : toAclStream flags stream ∨ count < 2 ^ 32) :
    Requests v (copyG2GAsync env destVA srcVA count flags stream)
      (seen v [⟨srcVA, destVA, count⟩]) := by
  rw [copyG2GAsync]
  split
  · exact .request _
  next hacl =>
  rw [narrow_of_lt (hcount.resolve_left hacl)]
  exact (requests_check _).after ((Requests.request _).failWith error_ne_zero)

theorem requests_copyLH2G {gvaAddr hostAddr count : ℕ} (hcount : count < 2 ^ 32) :
    Requests farSide (copyLH2G env gvaAddr hostAddr count)
      (seen farSide [⟨hostAddr, gvaAddr, count⟩]) := by
  refine .withBuffer dlFunctionFailed_ne_zero fun copyDevice => ?_
  rw [seen_farSide hostAddr copyDevice]
  exact ((Requests.ask _).failWith dlFunctionFailed_ne_zero).after (requests_copyG2G (.inr hcount))

theorem requests_copyG2LH {hostAddr gvaAddr count : ℕ} (hcount : count < 2 ^ 32) :
    Requests nearSide (copyG2LH env hostAddr gvaAddr count)
      (seen nearSide [⟨gvaAddr, hostAddr, count⟩]) := by
  refine .withBuffer dlFunctionFailed_ne_zero fun copyDevice => ?_
  rw [seen_nearSide gvaAddr hostAddr copyDevice]
  exact (requests_copyG2G (.inr hcount)).before ((Requests.ask _).failWith dlFunctionFailed_ne_zero)

/-- The second element begins where the first one ends, on both sides. -/
def Adjacent (x y : CopyParams) : Prop :=
  (x.src + x.dataSize) % 2 ^ 64 = y.src ∧ (x.dest + x.dataSize) % 2 ^ 64 = y.dest

/-- Every run of adjacent elements has fewer than `b` bytes. -/
def ShortRuns (b : ℕ) (items : List CopyParams) : Prop :=
  ∀ run, run <:+: items → run.IsChain Adjacent → (run.map CopyParams.dataSize).sum < b

theorem shortRuns_of_sum {b : ℕ} {items : List CopyParams}
    (h : (items.map CopyParams.dataSize).sum < b) : ShortRuns b items := by
  intro run hrun _
  have hsublist := hrun.sublist.map CopyParams.dataSize
  exact (hsublist.sum_le_sum fun _ _ => Nat.zero_le _).trans_lt h

/-- The loop has collected these elements. -/
structure Collects (run : Span) (taken : List CopyParams) : Prop where
  chain : taken.IsChain Adjacent
  len : run.len = (taken.map CopyParams.dataSize).sum
  ends : ∀ y ∈ taken.getLast?, (run.near + run.len) % 2 ^ 64 = (y.src + y.dataSize) % 2 ^ 64 ∧
    (run.far + run.len) % 2 ^ 64 = (y.dest + y.dataSize) % 2 ^ 64

namespace Collects

variable {run : Span} {taken rest : List CopyParams} {x : CopyParams} {b : ℕ}

theorem empty (near far : ℕ) : Collects ⟨near, far, 0⟩ [] := ⟨.nil, rfl, by simp⟩

theorem single (x : CopyParams) : Collects (spanOf x) [x] :=
  ⟨.singleton x, by simp [spanOf], by simp [spanOf]⟩

theorem snoc (h : Collects run taken) (hnear : (run.near + run.len) % 2 ^ 64 = x.src)
    (hfar : (run.far + run.len) % 2 ^ 64 = x.dest) :
    Collects ⟨run.near, run.far, run.len + x.dataSize⟩ (taken ++ [x]) where
  chain := by
    refine isChain_append.mpr ⟨h.chain, .singleton x, fun y hy z hz => ?_⟩
    obtain rfl : x = z := Option.some.inj hz
    obtain ⟨hnear', hfar'⟩ := h.ends y hy
    exact ⟨hnear'.symm.trans hnear, hfar'.symm.trans hfar⟩
  len := by simp [h.len]
  ends y hy := by
    rw [getLast?_concat] at hy
    obtain rfl : x = y := Option.some.inj hy
    rw [← hnear, ← hfar, Nat.mod_add_mod, Nat.mod_add_mod, Nat.add_assoc, Nat.add_assoc]
    exact ⟨rfl, rfl⟩

theorem len_lt (h : Collects run taken) (hshort : ShortRuns b (taken ++ rest)) : run.len < b :=
  h.len ▸ hshort taken (prefix_append taken rest).isInfix h.chain

end Collects

theorem mergeRuns_spec {b : ℕ} (hb : b ≤ 2 ^ 64) (items : List CopyParams) :
    ∀ {run taken}, Collects run taken → ShortRuns b (taken ++ items) →
      seen v (mergeRuns run items) = seen v (run :: items.map spanOf) ∧
        ∀ x ∈ mergeRuns run items, x.len < b := by
  induction items with
  | nil => exact fun h hshort => ⟨rfl, forall_mem_singleton.mpr (h.len_lt hshort)⟩
  | cons x rest ih =>
    intro run taken h hshort
    rw [mergeRuns, map_cons]
    split
    · next hcontinues =>
      simp only [continues, Bool.and_eq_true, decide_eq_true_eq, beq_iff_eq] at hcontinues
      obtain ⟨⟨-, hnear⟩, hfar⟩ := hcontinues
      have h' := h.snoc hnear hfar
      rw [append_cons] at hshort
      have hlen : (run.len + x.dataSize) % 2 ^ 64 = run.len + x.dataSize :=
        Nat.mod_eq_of_lt ((h'.len_lt hshort).trans_le hb)
      have hcut : seen v [⟨run.near, run.far, run.len + x.dataSize⟩] =
          seen v [run] ++ seen v [spanOf x] :=
        seen_add (by rw [← hnear, Nat.mod_mod]) (by rw [← hfar, Nat.mod_mod])
      obtain ⟨hseen, hlens⟩ := ih h' hshort
      rw [hlen, hseen, seen_cons, hcut, append_assoc, ← seen_cons (spanOf x), ← seen_cons run]
      exact ⟨rfl, hlens⟩
    obtain ⟨htail, hlens⟩ := ih (.single x) fun l hl =>
      hshort l (hl.trans (suffix_append taken (x :: rest)).isInfix)
    split
    · rw [seen_cons run, htail, ← seen_cons run]
      exact ⟨rfl, forall_mem_cons.mpr ⟨h.len_lt hshort, hlens⟩⟩
    next hlen =>
    have hempty : seen v [run] = [] := by
      obtain ⟨near, far, len⟩ := run
      obtain rfl : len = 0 := by
        dsimp only at hlen
        omega
      rfl
    rw [htail, seen_cons run, hempty, nil_append]
    exact ⟨rfl, hlens⟩

theorem seen_mergeRuns {items : List CopyParams} (h : ShortRuns (2 ^ 64) items) :
    seen v (mergeRuns ⟨0, 0, 0⟩ items) = seen v (items.map spanOf) :=
  (mergeRuns_spec le_rfl items (.empty 0 0) h).1

theorem requests_submitAll {spans : List Span}
    (hlen : ∀ x ∈ spans, toAclStream flags stream ∨ x.len < 2 ^ 32) :
    Requests v (submitAll env flags stream spans) (seen v spans) := by
  induction spans with
  | nil => exact .give_zero
  | cons x rest ih =>
    rw [seen_cons]
    exact (requests_copyG2GAsync (hlen x mem_cons_self)).finish
      (ih fun y hy => hlen y (mem_cons_of_mem x hy))

theorem flatMap_tables (items : List CopyParams) :
    (range (narrow (items.length + singleParamNum - 1) / singleParamNum)).flatMap (fun idx =>
      ((items.map spanOf).drop (idx * singleParamNum)).take singleParamNum) =
        (items.map spanOf).take (reach singleParamNum items.length) :=
  flatMap_range_chunks ..

theorem requests_batchCopyExtend {items : List CopyParams}
    (hrest : ∀ x ∈ items.drop (reach singleParamNum items.length), x.dataSize = 0) :
    Requests v (batchCopyExtend env items flags) (seen v (items.map spanOf)) := by
  have hspans : ∀ x ∈ (items.map spanOf).drop (reach singleParamNum items.length), x.len = 0 := by
    rw [← map_drop]
    exact forall_mem_map.mpr hrest
  rw [batchCopyExtend, ← seen_take hspans, ← flatMap_tables, seen_flatMap]
  refine before (.forEach fun idx _ => ?_) ?_
  · exact (requests_check _).after ((Requests.request _).failWith error_ne_zero)
  split
  · exact .give_zero
  · exact requests_check _

/-- The sizes of a batch of global copies stay within the fields they go into.  The kernel takes
whole sizes, but its tables have to reach all elements that are not empty; else the sizes of
adjacent elements are added up, in 64 bits, and each sum has 32 bits unless the runtime takes it. -/
def BatchFits (items : List CopyParams) (flags : ℕ) (stream : Option ℕ) : Prop :=
  if copyExtend flags then ∀ x ∈ items.drop (reach singleParamNum items.length), x.dataSize = 0
  else ShortRuns (if toAclStream flags stream then 2 ^ 64 else 2 ^ 32) items

theorem requests_merged {items : List CopyParams} (hextend : copyExtend flags = false)
    (hshort : ShortRuns (if toAclStream flags stream then 2 ^ 64 else 2 ^ 32) items) :
    Requests v (batchCopyG2G env items flags stream) (seen v (items.map spanOf)) := by
  have hle : (if toAclStream flags stream then 2 ^ 64 else 2 ^ 32) ≤ 2 ^ 64 := by
    split <;> decide
  obtain ⟨hseen, hlen⟩ := mergeRuns_spec (v := v) hle items (.empty 0 0) hshort
  rw [batchCopyG2G, hextend, ← append_nil (seen v (items.map spanOf))]
  have hspans : seen v (mergeRuns ⟨0, 0, 0⟩ items) = seen v (items.map spanOf) := hseen
  rw [← hspans]
  refine (requests_submitAll fun x hx => ?_).finish ?_
  · have := hlen x hx
    split at this
    · next hacl => exact .inl hacl
    · exact .inr this
  split
  · exact .give_zero
  · exact (requests_check _).after (.ask _)

theorem requests_batchCopyG2G {items : List CopyParams} (h : BatchFits items flags stream) :
    Requests v (batchCopyG2G env items flags stream) (seen v (items.map spanOf)) := by
  rw [BatchFits] at h
  split at h
  · next hextend =>
    rw [batchCopyG2G, if_pos hextend]
    exact requests_batchCopyExtend h
  next hextend =>
  exact requests_merged (Bool.eq_false_of_not_eq_true hextend) h

/-! ### How much they request -/

section

variable {destVA srcVA count : ℕ}

theorem sends_copyG2G (hextend : copyExtend flags = false) :
    Sends (copyG2G allOkHw destVA srcVA count flags) (narrow count) := by
  rw [copyG2G, hextend]
  refine (sends_check _).after (Sends.before ?_ (sends_check _))
  exact (Sends.request [⟨srcVA, destVA, narrow count⟩]).failWith error_ne_zero

/-- What becomes of a size on its way to a stream. -/
def submitted (flags : ℕ) (stream : Option ℕ) (count : ℕ) : ℕ :=
  if toAclStream flags stream then count else narrow count

theorem sends_copyG2GAsync :
    Sends (copyG2GAsync allOkHw destVA srcVA count flags stream)
      (submitted flags stream count) := by
  rw [copyG2GAsync, submitted]
  split
  · exact .request [⟨srcVA, destVA, count⟩]
  · refine (sends_check _).after (Sends.failWith error_ne_zero ?_)
    exact .request [⟨srcVA, destVA, narrow count⟩]

theorem sends_copyLH2G : Sends (copyLH2G allOkHw destVA srcVA count) (narrow count) :=
  .withBuffer dlFunctionFailed_ne_zero fun _ =>
    ((Sends.ask _).failWith dlFunctionFailed_ne_zero).after (sends_copyG2G rfl)

theorem sends_copyG2LH : Sends (copyG2LH allOkHw destVA srcVA count) (narrow count) :=
  .withBuffer dlFunctionFailed_ne_zero fun _ =>
    (sends_copyG2G rfl).before ((Sends.ask _).failWith dlFunctionFailed_ne_zero)

end

theorem sends_submitAll (spans : List Span) : Sends (submitAll allOkHw flags stream spans)
    (spans.map fun x => submitted flags stream x.len).sum := by
  induction spans with
  | nil => exact .give_zero
  | cons x rest ih => exact sends_copyG2GAsync.finish ih

theorem sends_batchCopyExtend (items : List CopyParams) :
    Sends (batchCopyExtend allOkHw items flags)
      ((items.take (reach singleParamNum items.length)).map CopyParams.dataSize).sum := by
  have hsizes : ((items.take (reach singleParamNum items.length)).map CopyParams.dataSize) =
      ((items.map spanOf).take (reach singleParamNum items.length)).map Span.len := by
    rw [← map_take, map_map]
    rfl
  rw [hsizes, ← flatMap_tables, map_flatMap, flatMap_def, sum_flatten, map_map]
  refine Sends.before (.forEach fun idx _ => ?_) ?_
  · exact (sends_check _).after ((Sends.request _).failWith error_ne_zero)
  split
  · exact .give_zero
  · exact sends_check _

theorem sends_merged {items : List CopyParams} (hextend : copyExtend flags = false) :
    Sends (batchCopyG2G allOkHw items flags stream)
      ((mergeRuns ⟨0, 0, 0⟩ items).map fun x => submitted flags stream x.len).sum := by
  rw [batchCopyG2G, hextend]
  refine (sends_submitAll _).finish (n := 0) ?_
  split
  · exact .give_zero
  · exact (sends_check _).after (.ask _)

section

variable {b : ℕ} {f : ℕ → ℕ} {items : List CopyParams} {run : Span}

/-- Merged copies have no more bytes than the elements; where a sum overflows they have fewer. -/
theorem sum_mergeRuns_le (hf : ∀ n, f n ≤ n) (run : Span) (items : List CopyParams) :
    ((mergeRuns run items).map fun x => f x.len).sum ≤
      run.len + (items.map CopyParams.dataSize).sum := by
  induction items generalizing run with
  | nil => simpa [mergeRuns] using hf run.len
  | cons x rest ih =>
    rw [mergeRuns, map_cons, sum_cons]
    split
    · have hmod := Nat.mod_le (run.len + x.dataSize) (2 ^ 64)
      have := ih { run with len := (run.len + x.dataSize) % 2 ^ 64 }
      dsimp only at this
      omega
    have hnext : _ ≤ x.dataSize + _ := ih (spanOf x)
    split
    · have := hf run.len
      rw [map_cons, sum_cons]
      omega
    · omega

theorem Collects.sum_le {taken l : List CopyParams} (h : Collects run taken)
    (hl : l.Sublist taken) : (l.map CopyParams.dataSize).sum ≤ run.len :=
  h.len ▸ (hl.map CopyParams.dataSize).sum_le_sum fun _ _ => Nat.zero_le _

/-- A chain that goes on from what was collected continues it. -/
theorem Collects.continues_of_chain {taken l rest : List CopyParams} {x : CopyParams}
    (h : Collects run taken) (hl : l <:+ taken) (hne : l ≠ [])
    (hchain : (l ++ x :: rest).IsChain Adjacent) (hrun : 0 < run.len) :
    continues run x = true := by
  obtain ⟨y, hy⟩ : ∃ y, l.getLast? = some y := ⟨l.getLast hne, getLast?_eq_some_getLast hne⟩
  have htaken : taken.getLast? = some y := by
    obtain ⟨s, rfl⟩ := hl
    rw [getLast?_append_of_ne_nil s hne, hy]
  obtain ⟨hnear, hfar⟩ := h.ends y htaken
  obtain ⟨hsrc, hdest⟩ := (isChain_append.mp hchain).2.2 y hy x rfl
  simp only [continues, Bool.and_eq_true, decide_eq_true_eq, beq_iff_eq]
  exact ⟨⟨hrun, hnear.trans hsrc⟩, hfar.trans hdest⟩

/-- Where nothing is lost, all runs are short. -/
theorem shortRuns_of_sum_eq (hf : ∀ n, f n ≤ n) (hb : ∀ n < 2 ^ 64, f n = n → n < b)
    (items : List CopyParams) (hsizes : ∀ x ∈ items, x.dataSize < 2 ^ 64) :
    ∀ {run taken}, Collects run taken → run.len < 2 ^ 64 →
      ((mergeRuns run items).map fun x => f x.len).sum =
        run.len + (items.map CopyParams.dataSize).sum → ShortRuns b (taken ++ items) := by
  induction items with
  | nil =>
    intro run taken h hrun hsum l hl _
    rw [append_nil] at hl
    refine (h.sum_le hl.sublist).trans_lt (hb _ hrun ?_)
    simpa [mergeRuns] using hsum
  | cons x rest ih =>
    intro run taken h hrun hsum
    obtain ⟨hx, hrest⟩ := forall_mem_cons.mp hsizes
    rw [mergeRuns, map_cons, sum_cons] at hsum
    split at hsum
    · next hcontinues =>
      simp only [continues, Bool.and_eq_true, decide_eq_true_eq, beq_iff_eq] at hcontinues
      obtain ⟨⟨-, hnear⟩, hfar⟩ := hcontinues
      have hle := sum_mergeRuns_le hf { run with len := (run.len + x.dataSize) % 2 ^ 64 } rest
      dsimp only at hle
      have hmod : (run.len + x.dataSize) % 2 ^ 64 = run.len + x.dataSize := by
        have := Nat.mod_le (run.len + x.dataSize) (2 ^ 64)
        omega
      rw [hmod] at hsum
      rw [append_cons]
      refine ih hrest (h.snoc hnear hfar) ?_ (by dsimp only; omega)
      exact hmod ▸ Nat.mod_lt _ (by decide)
    next hstop =>
    have hle : _ ≤ x.dataSize + _ := sum_mergeRuns_le hf (spanOf x) rest
    -- the run is short, and nothing is lost behind it
    obtain ⟨hshort, htail⟩ : run.len < b ∧ ((mergeRuns (spanOf x) rest).map fun x => f x.len).sum =
        x.dataSize + (rest.map CopyParams.dataSize).sum := by
      have hfrun := hf run.len
      split at hsum
      · rw [map_cons, sum_cons] at hsum
        exact ⟨hb _ hrun (by omega), by omega⟩
      · exact ⟨hb _ hrun (by omega), by omega⟩
    have hnext := ih hrest (.single x) hx htail
    rintro l ⟨s, t, hl⟩ hchain
    rw [append_assoc, append_eq_append_iff] at hl
    rcases hl with ⟨l₁, rfl, hl⟩ | ⟨s', rfl, hl⟩
    · rcases append_eq_append_iff.mp hl with ⟨l₂, rfl, -⟩ | ⟨l₂, rfl, hjoin⟩
      · -- inside what was collected
        refine (h.sum_le ?_).trans_lt hshort
        exact (sublist_append_left l l₂).trans (sublist_append_right s _)
      cases l₂ with
      | nil =>
        rw [append_nil]
        exact (h.sum_le (sublist_append_right s l₁)).trans_lt hshort
      | cons y l₂ =>
        -- it goes on behind an empty run only
        obtain ⟨rfl, -⟩ := cons.inj hjoin
        have hzero : (l₁.map CopyParams.dataSize).sum = 0 := by
          by_contra hpos
          have hle := h.sum_le (sublist_append_right s l₁)
          refine hstop (h.continues_of_chain ⟨s, rfl⟩ ?_ hchain (by omega))
          rintro rfl
          exact hpos rfl
        rw [map_append, sum_append, hzero, Nat.zero_add]
        refine hnext (x :: l₂) ⟨[], t, ?_⟩ (isChain_append.mp hchain).2.1
        rw [nil_append, singleton_append, hjoin]
    · exact hnext l ⟨s', t, by rw [append_assoc]; exact hl.symm⟩ hchain

theorem fits_of_sum_eq (hextend : copyExtend flags = false)
    (hsizes : ∀ x ∈ items, x.dataSize < 2 ^ 64)
    (hsum : ((mergeRuns ⟨0, 0, 0⟩ items).map fun x => submitted flags stream x.len).sum =
      (items.map CopyParams.dataSize).sum) : BatchFits items flags stream := by
  rw [BatchFits, hextend, if_neg Bool.false_ne_true]
  refine shortRuns_of_sum_eq (f := submitted flags stream) ?_ ?_ items hsizes (.empty 0 0)
    (by decide) (by rw [hsum, Nat.zero_add])
  · intro n
    rw [submitted]
    split
    · exact le_rfl
    · exact narrow_le
  · intro n hn heq
    rw [submitted] at heq
    split
    · exact hn
    · next hacl =>
      rw [if_neg hacl] at heq
      exact lt_of_narrow_eq heq

end

/-! ### Merged copies against copies one by one -/

/-- The addresses that an element is copied to belong to no other one, and nothing is copied from
them. -/
structure Apart (items : List CopyParams) : Prop where
  dests : items.Pairwise fun x y =>
    ∀ p ∈ (spanOf x).bytes (2 ^ 64), ∀ q ∈ (spanOf y).bytes (2 ^ 64), p.2 ≠ q.2
  sources : ∀ x ∈ items, ∀ y ∈ items,
    ∀ p ∈ (spanOf x).bytes (2 ^ 64), ∀ q ∈ (spanOf y).bytes (2 ^ 64), p.2 ≠ q.1

/-- What the submissions of a batch have returned. -/
def submissions (env : HwEnv) (flags : ℕ) (stream : Option ℕ) : List Span → HwState → List Result
  | [], _ => []
  | x :: rest, s =>
    let r := copyG2GAsync env x.far x.near x.len flags stream s
    r.1 :: submissions env flags stream rest r.2

/-- The copies submitted for `items` move the bytes of the elements, each one once; they may be
performed in any order. -/
structure Coalesced (env : HwEnv) (items : List CopyParams) (flags : ℕ) (stream : Option ℕ)
    (s : HwState) (spans : List Span) : Prop where
  whole : ∀ x ∈ spans, narrow x.len = x.len
  bytes : seen id spans = seen id (items.map spanOf)
  once : (seen Prod.snd spans).Nodup
  moved : ∀ order, order.Perm (seen id spans) → ∀ m : ℕ → UInt8,
    Span.moved order m = Span.moved (seen id (items.map spanOf)) m
  /-- It returns 0 only if all of them were accepted and the wait has succeeded. -/
  returned : (batchCopyG2G env items flags stream s).1 = 0 →
    (∀ r ∈ submissions env flags stream spans s, r = 0) ∧
    (asyncCopy flags = false → (wait env (submitAll env flags stream spans s).2).1 = 0) ∧
    seen id (batchCopyG2G env items flags stream s).2.requests =
      seen id s.requests ++ seen id (items.map spanOf)

theorem Apart.nodup {items : List CopyParams} (h : Apart items)
    (hsize : ∀ x ∈ items, x.dataSize ≤ 2 ^ 64) : (seen Prod.snd (items.map spanOf)).Nodup := by
  rw [seen, Span.bytesAll, flatMap_map, map_flatMap, nodup_flatMap]
  refine ⟨fun x hx => ?_, h.dests.imp fun hxy a ha ha' => ?_⟩
  · rw [Span.bytes, map_map]
    refine nodup_range.map_on fun i hi j hj hij => ?_
    have hi := (mem_range.mp hi).trans_le (hsize x hx)
    have hj := (mem_range.mp hj).trans_le (hsize x hx)
    have hij : (x.dest + i) % 2 ^ 64 = (x.dest + j) % 2 ^ 64 := hij
    omega
  obtain ⟨p, hp, rfl⟩ := mem_map.mp ha
  obtain ⟨q, hq, heq⟩ := mem_map.mp ha'
  exact hxy p hp q hq heq.symm

theorem submissions_eq_zero {spans : List Span} {s : HwState}
    (h : (submitAll env flags stream spans s).1 = 0) :
    ∀ r ∈ submissions env flags stream spans s, r = 0 := by
  induction spans generalizing s with
  | nil => exact fun r hr => by cases hr
  | cons x rest ih =>
    obtain ⟨hfirst, hrest⟩ := Program.eq_zero_of_finish h
    exact forall_mem_cons.mpr ⟨hfirst, ih hrest⟩

/-- A batch whose runs are shorter than 4 GiB and whose elements keep off one another is submitted
as the merged runs, which move the same bytes in any order. -/
theorem coalesced_of_shortRuns {items : List CopyParams} (hextend : copyExtend flags = false)
    (hshort : ShortRuns (2 ^ 32) items) (hapart : Apart items) (s : HwState) :
    Coalesced env items flags stream s (mergeRuns ⟨0, 0, 0⟩ items) := by
  have hshort' : ShortRuns (2 ^ 64) items := fun run hrun hchain =>
    (hshort run hrun hchain).trans (by decide)
  obtain ⟨-, hlen⟩ := mergeRuns_spec (v := id) (by decide) items (.empty 0 0) hshort
  have hnodup : (seen Prod.snd (items.map spanOf)).Nodup := by
    refine hapart.nodup fun x hx => ?_
    have hone := hshort' [x] ((singleton_infix_iff x items).mpr hx) (.singleton x)
    simpa using hone.le
  refine ⟨fun x hx => narrow_of_lt (hlen x hx), seen_mergeRuns hshort', ?_, ?_, fun hok => ?_⟩
  · rwa [seen_mergeRuns hshort']
  · intro order horder m
    rw [seen_mergeRuns hshort'] at horder
    refine (Span.moved_perm horder.symm ?_ fun p hp q hq => ?_).symm
    · rwa [seen, map_id]
    simp only [seen, Span.bytesAll, flatMap_map, map_id, mem_flatMap] at hp hq
    obtain ⟨x, hx, hp⟩ := hp
    obtain ⟨y, hy, hq⟩ := hq
    exact hapart.sources x hx y hy p hp q hq
  have hrequests : Requests id (batchCopyG2G env items flags stream) (seen id (items.map spanOf)) :=
    requests_merged hextend (by split <;> assumption)
  refine ⟨?_, ?_, (hrequests _ s rfl).1 hok⟩
  all_goals
    rw [batchCopyG2G, hextend] at hok
    obtain ⟨hsub, hwait⟩ := Program.eq_zero_of_finish hok
  · exact submissions_eq_zero hsub
  · intro hasync
    rwa [hasync] at hwait

/-- An element of no bytes is between two that are merged; every call succeeds. -/
theorem coalesced_four_elements :
    Coalesced ⟨fun _ _ => 0, fun _ => 0⟩ [⟨16, 64, 8⟩, ⟨24, 72, 0⟩, ⟨24, 72, 4⟩, ⟨40, 96, 4⟩] 0 none
      ⟨[], 0⟩ [⟨16, 64, 12⟩, ⟨40, 96, 4⟩] :=
  coalesced_of_shortRuns rfl (shortRuns_of_sum (by decide))
    ⟨by decide +kernel, by decide +kernel⟩ ⟨[], 0⟩

end Hybm.Sdma
