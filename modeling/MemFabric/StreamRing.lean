/-
The ring of tasks of a stream.

`HybmStream` sends tasks to the device in a ring: `SubmitTasks` writes a task into the slot of
`sqTail_`, and `Synchronize` moves `sqHead_` on behind the tasks that are done, which it learns
from the head that the device reports and from its completion queue; this also carries errors.

The device does the tasks in order (`finished`), reports heads that never go back, and an entry
only for a task that is done and not yet passed by the host (`retired`).  A step is a call of the
driver or a step of the device.
-/
import MemFabric.RingBuffer
import MemFabric.VaManager

namespace Hybm.StreamRing

open Option List

open RingBuffer

/-! ### The stream -/

/-- `HYBM_SQCQ_DEPTH`. -/
def sqcqDepth : ℕ := 2048

def maxRetry : ℕ := 1000000

/-- `RT_MILAN_MAX_QUERY_CQE_NUM`. -/
def maxQueryCqeNum : ℕ := 32

/-- A running call of `Synchronize`: whether `SubmitTasks` made it, the task it waits for (`none`
for all), how often it has asked, and the number of tasks sent before. -/
structure Call where
  submit : Bool
  task : Option ℕ
  retry : ℕ
  submitted : ℕ
  deriving DecidableEq

/-- Where the host stands. -/
inductive Phase
  | idle
  | loop (c : Call)
  | gotHead (c : Call) (head : ℕ)
  | receiving (c : Call) (lastTask : Option ℕ) (retFlag : Result)

/-- An entry of the completion queue. -/
structure Report where
  task : ℕ
  errorCode : ℕ
  deriving DecidableEq

/-- The host: `sqHead`, `sqTail`, the number of the task in each slot, and where it stands; the
device: how many tasks were sent and are done, the head it reported last, the first task it can
still report, its completion queue, and the tasks with errors.  `retired` counts the tasks that the
host has passed, `received` are the errors it got, `outcome` is what the last call returned. -/
structure Stream where
  sqHead : ℕ
  sqTail : ℕ
  taskList : ℕ → Option ℕ
  phase : Phase
  sent : ℕ
  finished : ℕ
  lastHead : ℕ
  posted : ℕ
  cq : List Report
  errors : List ℕ
  retired : ℕ
  received : List ℕ
  outcome : Option (Call × Result)

/-- What `HalCqReportRecv` does: it fails, it gives an invalid number of entries, or it hands out
entries, a number of them at most. -/
inductive RecvAnswer
  | failed
  | invalidNum
  | reports (num : ℕ)

namespace Stream

def start : Stream where
  sqHead := 0
  sqTail := 0
  taskList := fun _ => none
  phase := .idle
  sent := 0
  finished := 0
  lastHead := 0
  posted := 0
  cq := []
  errors := []
  retired := 0
  received := []
  outcome := none

variable (s : Stream)

def taskInRange : Option ℕ → Bool
  | none => true
  | some task =>
    if s.sqHead ≤ s.sqTail then s.sqHead ≤ task && task < s.sqTail
    else s.sqHead ≤ task || task < s.sqTail

/-- The condition of the loop of `Synchronize`. -/
def waits (c : Call) : Bool :=
  s.sqHead ≠ s.sqTail && s.taskInRange c.task && c.retry < maxRetry

/-- `SubmitTasks` from the check for room on. -/
def enqueue (c : Call) : Stream :=
  if (s.sqTail + 1) % sqcqDepth = s.sqHead then
    { s with phase := .idle, outcome := some (c, .notInitialized) }
  else
    { s with
      taskList := Function.update s.taskList s.sqTail (some s.sent)
      sqTail := (s.sqTail + 1) % sqcqDepth
      sent := s.sent + 1
      phase := .idle
      outcome := some (c, .ok) }

def submitTasks : Stream :=
  let c : Call := ⟨true, some s.sqHead, 0, s.sent⟩
  if (s.sqTail + 40) % sqcqDepth = s.sqHead then { s with phase := .loop c } else s.enqueue c

/-- `Synchronize` returns. -/
def leave (c : Call) (ret : Result) : Stream :=
  if c.submit then
    if ret = .ok then s.enqueue c else { s with phase := .idle, outcome := some (c, .error) }
  else
    { s with phase := .idle, outcome := some (c, ret) }

def again (c : Call) : Stream := { s with phase := .loop { c with retry := c.retry + 1 } }

/-- Without an entry the head is moved on to the one of the device. -/
def retireTo (head : ℕ) : Stream :=
  let next := walk sqcqDepth (head % sqcqDepth) sqcqDepth (s.sqHead, s.retired)
  { s with sqHead := next.1, retired := next.2 }

/-- After `ReceiveCqe` the head is behind the last task that was reported, if there is one. -/
def retireBehind : Option ℕ → Stream
  | none => s
  | some task => { s with sqHead := (task % sqcqDepth + 1) % sqcqDepth, retired := task + 1 }

def takeReports (num : ℕ) : Stream :=
  { s with
    cq := s.cq.drop num
    received := ((s.cq.take num).filter (·.errorCode ≠ 0)).map Report.task ++ s.received }

/-- One round of `ReceiveCqe`, and what follows the last one. -/
def receiveCqe (c : Call) (lastTask : Option ℕ) (retFlag : Result) : RecvAnswer → Stream
  | .failed => (s.retireBehind lastTask).leave c .dlFunctionFailed
  | .invalidNum => (s.retireBehind lastTask).leave c .invalidParam
  | .reports num =>
    let reports := s.cq.take (min num maxQueryCqeNum)
    match reports.getLast? with
    | none =>
      if retFlag ≠ .ok then (s.retireBehind lastTask).leave c retFlag
      else (s.retireBehind lastTask).again c
    | some last =>
      { s.takeReports (min num maxQueryCqeNum) with
        phase := .receiving c (some last.task)
          (if reports.any (·.errorCode ≠ 0) then .error else retFlag) }

end Stream

inductive StreamStep
  | finish
  | post (task errorCode : ℕ)
  | submitTasks
  | synchronize (task : Option ℕ)
  | getSqHead (answer : Option ℕ)
  | getCqeStatus (queried : Bool)
  | receiveCqe (answer : RecvAnswer)
  | leave

/-- A step of the device, the start of a call, a call of the driver, or the end of a loop. -/
def Stream.next (s : Stream) : StreamStep → Option Stream
  | .finish => if s.finished < s.sent then some { s with finished := s.finished + 1 } else none
  | .post task errorCode =>
    if s.posted ≤ task ∧ s.retired ≤ task ∧ task < s.finished then
      some { s with
        posted := task + 1
        cq := s.cq ++ [⟨task, errorCode⟩]
        errors := if errorCode ≠ 0 then task :: s.errors else s.errors }
    else none
  | .submitTasks =>
    match s.phase with
    | .idle => some s.submitTasks
    | _ => none
  | .synchronize task =>
    match s.phase with
    | .idle => some { s with phase := .loop ⟨false, task, 0, s.sent⟩ }
    | _ => none
  | .getSqHead answer =>
    match s.phase with
    | .loop c =>
      if s.waits c then
        match answer with
        | none => some (s.leave c .error)
        | some head =>
          if s.lastHead ≤ head ∧ head ≤ s.finished then
            some { s with lastHead := head, phase := .gotHead c head }
          else none
      else none
    | _ => none
  | .getCqeStatus queried =>
    match s.phase with
    | .gotHead c head =>
      if queried && !s.cq.isEmpty then some { s with phase := .receiving c none .ok }
      else some ((s.retireTo head).again c)
    | _ => none
  | .receiveCqe answer =>
    match s.phase with
    | .receiving c lastTask retFlag => some (s.receiveCqe c lastTask retFlag answer)
    | _ => none
  | .leave =>
    match s.phase with
    | .loop c =>
      if s.waits c then none
      else some (s.leave c (if maxRetry ≤ c.retry then .timeout else .ok))
    | _ => none

def streamSystem : TransitionSystem Stream StreamStep where
  start := .start
  next := Stream.next

/-! ### The property -/

/-- The slot that `SubmitTasks` writes next is not that of a task that is not done, and such a
task is still in its slot. -/
structure RingSafe (s : Stream) : Prop where
  free : (s.sqTail + 1) % sqcqDepth ≠ s.sqHead →
    ∀ k, s.finished ≤ k → k < s.sent → k % sqcqDepth ≠ s.sqTail
  kept : ∀ k, s.finished ≤ k → k < s.sent → s.taskList (k % sqcqDepth) = some k

/-- When `Synchronize` for all tasks has returned success, the tasks that were sent before are
done, and no error was reported for them. -/
def SyncSound (s : Stream) : Prop :=
  ∀ c, s.outcome = some (c, .ok) → c.submit = false → c.task = none →
    c.submitted ≤ s.finished ∧ ∀ k ∈ s.errors, c.submitted ≤ k

/-- A reported head is not behind the host, and the state of the completion queue is known. -/
def Coherent (s : Stream) : StreamStep → Prop
  | .getSqHead (some head) => s.retired ≤ head
  | .getCqeStatus queried => queried = true
  | _ => True

instance (s : Stream) (a : StreamStep) : Decidable (Coherent s a) := by
  unfold Coherent
  split <;> infer_instance

/-- No error was received before a call of `Synchronize`. -/
def Orderly (s : Stream) (a : StreamStep) : Prop :=
  Coherent s a ∧
    match a with
    | .synchronize _ => s.received = []
    | _ => True

instance (s : Stream) (a : StreamStep) : Decidable (Orderly s a) := by
  unfold Orderly
  split <;> infer_instance

variable {s t : Stream} {c : Call} {ret : Result} {k : ℕ}

/-! ### What a step can do -/

variable {task errorCode : ℕ}

namespace Stream

theorem next_finish (h : s.next .finish = some t) :
    s.finished < s.sent ∧ t = { s with finished := s.finished + 1 } := by
  obtain ⟨hlt, h⟩ := ite_none_right_eq_some.mp h
  exact ⟨hlt, (some.inj h).symm⟩

theorem next_post (h : s.next (.post task errorCode) = some t) :
    s.posted ≤ task ∧ s.retired ≤ task ∧ task < s.finished ∧
      t = { s with
        posted := task + 1
        cq := s.cq ++ [⟨task, errorCode⟩]
        errors := if errorCode ≠ 0 then task :: s.errors else s.errors } := by
  obtain ⟨⟨hposted, hretired, hlt⟩, h⟩ := ite_none_right_eq_some.mp h
  exact ⟨hposted, hretired, hlt, (some.inj h).symm⟩

theorem next_submitTasks (h : s.next .submitTasks = some t) :
    s.phase = .idle ∧ t = s.submitTasks := by
  cases hp : s.phase <;> simp only [next, hp, reduceCtorEq, some.injEq] at h
  exact ⟨rfl, h.symm⟩

theorem next_synchronize {task : Option ℕ} (h : s.next (.synchronize task) = some t) :
    s.phase = .idle ∧ t = { s with phase := .loop ⟨false, task, 0, s.sent⟩ } := by
  cases hp : s.phase <;> simp only [next, hp, reduceCtorEq, some.injEq] at h
  exact ⟨rfl, h.symm⟩

theorem next_getSqHead {answer : Option ℕ} (h : s.next (.getSqHead answer) = some t) :
    ∃ c, s.phase = .loop c ∧ ((answer = none ∧ t = s.leave c .error) ∨
      ∃ head, answer = some head ∧ head ≤ s.finished ∧
        t = { s with lastHead := head, phase := .gotHead c head }) := by
  cases hp : s.phase <;> simp only [next, hp, reduceCtorEq] at h
  next c =>
    obtain ⟨-, h⟩ := ite_none_right_eq_some.mp h
    refine ⟨c, rfl, ?_⟩
    cases answer with
    | none => exact .inl ⟨rfl, (some.inj h).symm⟩
    | some head =>
      obtain ⟨⟨-, hle⟩, h⟩ := ite_none_right_eq_some.mp h
      exact .inr ⟨head, rfl, hle, (some.inj h).symm⟩

theorem next_getCqeStatus {queried : Bool} (h : s.next (.getCqeStatus queried) = some t) :
    ∃ c head, s.phase = .gotHead c head ∧ (t = { s with phase := .receiving c none .ok } ∨
      ((queried = true → s.cq = []) ∧ t = (s.retireTo head).again c)) := by
  cases hp : s.phase <;> simp only [next, hp, reduceCtorEq] at h
  next c head =>
    refine ⟨c, head, rfl, ?_⟩
    split at h
    · exact .inl (some.inj h).symm
    · next hempty => exact .inr ⟨fun hq => by simpa [hq] using hempty, (some.inj h).symm⟩

theorem next_receiveCqe {answer : RecvAnswer} (h : s.next (.receiveCqe answer) = some t) :
    ∃ c lastTask retFlag, s.phase = .receiving c lastTask retFlag ∧
      t = s.receiveCqe c lastTask retFlag answer := by
  cases hp : s.phase <;> simp only [next, hp, reduceCtorEq, some.injEq] at h
  exact ⟨_, _, _, rfl, h.symm⟩

theorem next_leave (h : s.next .leave = some t) :
    ∃ c, s.phase = .loop c ∧ s.waits c = false ∧
      t = s.leave c (if maxRetry ≤ c.retry then .timeout else .ok) := by
  cases hp : s.phase <;> simp only [next, hp, reduceCtorEq] at h
  next c =>
    obtain ⟨hwaits, h⟩ := ite_none_left_eq_some.mp h
    exact ⟨c, rfl, by simpa using hwaits, (some.inj h).symm⟩

end Stream

/-! ### The ring -/

/-- What a phase knows: a head that was asked for is one of a task that is done, and the entries
that are left in the queue come after the last one that was received. -/
def Phase.Fits (s : Stream) : Phase → Prop
  | .gotHead _ head => s.retired ≤ head ∧ head ≤ s.finished
  | .receiving _ lastTask _ => ∀ k ∈ lastTask, s.retired ≤ k ∧ k < s.posted ∧ ∀ r ∈ s.cq, k < r.task
  | _ => True

/-- What lies behind: the two indices belong to the counters, and the completion queue has only
tasks that are done and not passed. -/
structure Inv (s : Stream) : Prop where
  window : Window sqcqDepth s.retired s.sent
  retired : s.retired ≤ s.finished
  finished : s.finished ≤ s.sent
  head : s.sqHead = s.retired % sqcqDepth
  tail : s.sqTail = s.sent % sqcqDepth
  posted : s.posted ≤ s.finished
  cq : ∀ r ∈ s.cq, s.retired ≤ r.task ∧ r.task < s.posted
  sorted : s.cq.Pairwise (·.task < ·.task)
  slots : ∀ k, s.retired ≤ k → k < s.sent → s.taskList (k % sqcqDepth) = some k
  phase : s.phase.Fits s

theorem inv_start : Inv .start where
  window := ⟨le_rfl, by decide⟩
  retired := le_rfl
  finished := le_rfl
  head := rfl
  tail := rfl
  posted := le_rfl
  cq := nofun
  sorted := .nil
  slots _ _ hlt := absurd hlt (Nat.not_lt_zero _)
  phase := trivial

variable {lastTask : Option ℕ}

namespace Inv

section

variable (h : Inv s)
include h

theorem ringSafe : RingSafe s where
  free _ k hk hlt := by
    rw [h.tail]
    exact h.window.slot_ne (h.retired.trans hk) hlt
  kept k hk hlt := h.slots k (h.retired.trans hk) hlt

theorem withPhase (phase : Phase) (hphase : phase.Fits s)
    (outcome : Option (Call × Result)) (received : List ℕ) :
    Inv { s with phase := phase, outcome := outcome, received := received } :=
  { h with phase := hphase }

theorem enqueue (c : Call) : Inv (s.enqueue c) := by
  unfold Stream.enqueue
  split
  · exact h.withPhase .idle trivial _ _
  next hfull =>
  have hwindow : Window sqcqDepth s.retired (s.sent + 1) := by
    rw [h.tail, h.head] at hfull
    exact h.window.push hfull
  refine ⟨hwindow, h.retired, h.finished.trans (Nat.le_succ _), h.head, ?_, h.posted, h.cq,
    h.sorted, fun k hk hlt => ?_, trivial⟩
  · show (s.sqTail + 1) % sqcqDepth = (s.sent + 1) % sqcqDepth
    rw [h.tail, Window.next_index]
  show Function.update s.taskList s.sqTail (some s.sent) (k % sqcqDepth) = some k
  rcases Nat.lt_succ_iff_lt_or_eq.mp hlt with hlt | rfl
  · rw [h.tail, Function.update_of_ne (h.window.slot_ne hk hlt)]
    exact h.slots k hk hlt
  · rw [h.tail, Function.update_self]

theorem submitTasks : Inv s.submitTasks := by
  unfold Stream.submitTasks
  split
  · exact h.withPhase (.loop _) trivial _ _
  · exact h.enqueue _

theorem leave (c : Call) (ret : Result) : Inv (s.leave c ret) := by
  unfold Stream.leave
  split
  · split
    · exact h.enqueue c
    · exact h.withPhase .idle trivial _ _
  · exact h.withPhase .idle trivial _ _

theorem again (c : Call) : Inv (s.again c) :=
  h.withPhase (.loop _) trivial _ _

theorem retire {retired sqHead : ℕ} (hle : s.retired ≤ retired)
    (hfin : retired ≤ s.finished) (hhead : sqHead = retired % sqcqDepth)
    (hcq : ∀ r ∈ s.cq, retired ≤ r.task) :
    Inv { s with sqHead := sqHead, retired := retired, phase := .idle } where
  window := h.window.drop hle (hfin.trans h.finished)
  retired := hfin
  finished := h.finished
  head := hhead
  tail := h.tail
  posted := h.posted
  cq r hr := ⟨hcq r hr, (h.cq r hr).2⟩
  sorted := h.sorted
  slots k hk hlt := h.slots k (hle.trans hk) hlt
  phase := trivial

theorem retireTo_eq {head : ℕ} (hle : s.retired ≤ head) (hfin : head ≤ s.finished) :
    s.retireTo head = { s with sqHead := head % sqcqDepth, retired := head } := by
  have hwindow : Window sqcqDepth s.retired head := by
    have hlt := h.window.lt
    have hsent := h.finished
    exact ⟨hle, by omega⟩
  have hwalk : walk sqcqDepth (head % sqcqDepth) sqcqDepth (s.sqHead, s.retired) =
      (head % sqcqDepth, head) := by
    rw [h.head]
    exact walk_eq hwindow hwindow.lt.le
  rw [Stream.retireTo, hwalk]

theorem retireTo {head : ℕ} (hle : s.retired ≤ head) (hfin : head ≤ s.finished)
    (hcq : s.cq = []) : Inv { s.retireTo head with phase := .idle } := by
  rw [h.retireTo_eq hle hfin]
  refine h.retire hle hfin rfl fun r hr => ?_
  rw [hcq] at hr
  cases hr

theorem retireBehind
    (hlast : ∀ k ∈ lastTask, s.retired ≤ k ∧ k < s.posted ∧ ∀ r ∈ s.cq, k < r.task) :
    Inv { s.retireBehind lastTask with phase := .idle } := by
  cases lastTask with
  | none => exact h.withPhase .idle trivial _ _
  | some k =>
    obtain ⟨hle, hposted, hcq⟩ := hlast k rfl
    have hfin := h.posted
    have hle' : s.retired ≤ k + 1 := hle.trans (Nat.le_succ _)
    have hlt : k + 1 ≤ s.finished := hposted.trans_le hfin
    exact h.retire hle' hlt (Window.next_index k) fun r hr => hcq r hr

theorem receiveCqe {retFlag : Result}
    (hlast : ∀ k ∈ lastTask, s.retired ≤ k ∧ k < s.posted ∧ ∀ r ∈ s.cq, k < r.task) (c : Call)
    (answer : RecvAnswer) : Inv (s.receiveCqe c lastTask retFlag answer) := by
  have hretired := h.retireBehind hlast
  cases answer with
  | failed => exact hretired.leave c .dlFunctionFailed
  | invalidNum => exact hretired.leave c .invalidParam
  | reports num =>
    unfold Stream.receiveCqe
    dsimp only
    generalize min num maxQueryCqeNum = n
    split
    · split
      · exact hretired.leave c retFlag
      · exact hretired.again c
    next last hget =>
    obtain ⟨front, hfront⟩ := List.getLast?_eq_some_iff.mp hget
    have hmem : last ∈ s.cq := by
      refine mem_of_mem_take (i := n) ?_
      rw [hfront]
      exact mem_append_right _ mem_cons_self
    have hsort := h.sorted
    rw [← take_append_drop n s.cq, pairwise_append] at hsort
    obtain ⟨-, hdrop, hbefore⟩ := hsort
    obtain ⟨hle, hposted⟩ := h.cq last hmem
    refine { h with cq := fun r hr => h.cq r (mem_of_mem_drop hr), sorted := hdrop, phase := ?_ }
    rintro k ⟨rfl⟩
    refine ⟨hle, hposted, fun r hr => hbefore last ?_ r hr⟩
    rw [hfront]
    exact mem_append_right _ mem_cons_self

/-! ### Steps -/

theorem finish (hlt : s.finished < s.sent) : Inv { s with finished := s.finished + 1 } := by
  refine ⟨h.window, h.retired.trans (Nat.le_succ _), hlt, h.head, h.tail,
    h.posted.trans (Nat.le_succ _), h.cq, h.sorted, h.slots, ?_⟩
  have hphase := h.phase
  show s.phase.Fits _
  cases hp : s.phase with
  | gotHead c head =>
    rw [hp] at hphase
    exact ⟨hphase.1, hphase.2.trans (Nat.le_succ _)⟩
  | receiving c lastTask retFlag =>
    rw [hp] at hphase
    exact hphase
  | _ => exact trivial

theorem post (hposted : s.posted ≤ task) (hretired : s.retired ≤ task)
    (hfin : task < s.finished) (errors : List ℕ) :
    Inv { s with
      posted := task + 1
      cq := s.cq ++ [⟨task, errorCode⟩]
      errors := errors } := by
  refine { h with posted := hfin, cq := fun r hr => ?_, sorted := ?_, phase := ?_ }
  · rcases mem_append.mp hr with hr | hr
    · obtain ⟨hle, hlt⟩ := h.cq r hr
      exact ⟨hle, hlt.trans_le (hposted.trans (Nat.le_succ _))⟩
    · rw [mem_singleton.mp hr]
      exact ⟨hretired, Nat.lt_succ_self _⟩
  · refine pairwise_append.mpr ⟨h.sorted, pairwise_singleton _ _, fun r hr r' hr' => ?_⟩
    rw [mem_singleton.mp hr']
    exact (h.cq r hr).2.trans_le hposted
  have hphase := h.phase
  show s.phase.Fits _
  cases hp : s.phase with
  | gotHead c head =>
    rw [hp] at hphase
    exact hphase
  | receiving c lastTask retFlag =>
    rw [hp] at hphase
    intro k hk
    obtain ⟨hle, hlt, hall⟩ := hphase k hk
    refine ⟨hle, hlt.trans_le (hposted.trans (Nat.le_succ _)), fun r hr => ?_⟩
    rcases mem_append.mp hr with hr | hr
    · exact hall r hr
    · rw [mem_singleton.mp hr]
      exact hlt.trans_le hposted
  | _ => exact trivial

end

end Inv

theorem inv_next {a : StreamStep} (h : Inv s) (hok : Coherent s a) (hnext : s.next a = some t) :
    Inv t := by
  have hphase := h.phase
  cases a with
  | finish =>
    obtain ⟨hlt, rfl⟩ := Stream.next_finish hnext
    exact h.finish hlt
  | post task errorCode =>
    obtain ⟨hposted, hretired, hfin, rfl⟩ := Stream.next_post hnext
    exact h.post hposted hretired hfin _
  | submitTasks =>
    obtain ⟨-, rfl⟩ := Stream.next_submitTasks hnext
    exact h.submitTasks
  | synchronize task =>
    obtain ⟨-, rfl⟩ := Stream.next_synchronize hnext
    exact h.withPhase (.loop _) trivial _ _
  | getSqHead answer =>
    obtain ⟨c, -, ⟨-, rfl⟩ | ⟨head, rfl, hle, rfl⟩⟩ := Stream.next_getSqHead hnext
    · exact h.leave c .error
    · exact ⟨h.window, h.retired, h.finished, h.head, h.tail, h.posted, h.cq, h.sorted, h.slots,
        hok, hle⟩
  | getCqeStatus queried =>
    obtain ⟨c, head, hp, rfl | ⟨hcq, rfl⟩⟩ := Stream.next_getCqeStatus hnext
    · exact h.withPhase (.receiving c none .ok) nofun _ _
    · rw [hp] at hphase
      exact (h.retireTo hphase.1 hphase.2 (hcq hok)).again c
  | receiveCqe answer =>
    obtain ⟨c, lastTask, retFlag, hp, rfl⟩ := Stream.next_receiveCqe hnext
    rw [hp] at hphase
    exact h.receiveCqe hphase c answer
  | leave =>
    obtain ⟨c, -, -, rfl⟩ := Stream.next_leave hnext
    exact h.leave c _

/-! ### Errors -/

def Phase.call : Phase → Option Call
  | .idle => none
  | .loop c => some c
  | .gotHead c _ => some c
  | .receiving c _ _ => some c

/-- A call of `Synchronize` that has not failed has received no error. -/
def Phase.Clean (received : List ℕ) : Phase → Prop
  | .idle => True
  | .loop c => c.submit = false → received = []
  | .gotHead c _ => c.submit = false → received = []
  | .receiving c _ retFlag => c.submit = false → retFlag = .ok → received = []

/-- A call for all tasks that succeeded: its tasks are passed, and have no errors. -/
def Passed (s : Stream) (c : Call) : Prop :=
  c.submitted ≤ s.retired ∧ ∀ k ∈ s.errors, c.submitted ≤ k

/-- What lies behind: an error was received or is in the completion queue. -/
structure ErrorInv (s : Stream) : Prop where
  errors : ∀ k ∈ s.errors, k ∈ s.received ∨ ∃ r ∈ s.cq, r.task = k ∧ r.errorCode ≠ 0
  submitted : ∀ c, s.phase.call = some c → c.submitted = s.sent
  clean : s.phase.Clean s.received
  outcome : ∀ c, s.outcome = some (c, .ok) → c.submit = false → c.task = none → Passed s c

theorem errorInv_start : ErrorInv .start where
  errors := nofun
  submitted := nofun
  clean := trivial
  outcome := nofun

theorem ErrorInv.syncSound (h : ErrorInv s) (hring : Inv s) : SyncSound s := by
  intro c hc hsubmit htask
  obtain ⟨hle, hall⟩ := h.outcome c hc hsubmit htask
  exact ⟨hle.trans hring.retired, hall⟩

theorem enqueue_spec (s : Stream) (c : Call) :
    (s.enqueue c).phase = .idle ∧ (s.enqueue c).errors = s.errors ∧
      (s.enqueue c).received = s.received ∧ (s.enqueue c).cq = s.cq ∧
      (s.enqueue c).retired = s.retired ∧ ∃ r, (s.enqueue c).outcome = some (c, r) := by
  unfold Stream.enqueue
  split
  · exact ⟨rfl, rfl, rfl, rfl, rfl, _, rfl⟩
  · exact ⟨rfl, rfl, rfl, rfl, rfl, _, rfl⟩

theorem leave_spec (s : Stream) (c : Call) (ret : Result) :
    (s.leave c ret).phase = .idle ∧ (s.leave c ret).errors = s.errors ∧
      (s.leave c ret).received = s.received ∧ (s.leave c ret).cq = s.cq ∧
      (s.leave c ret).retired = s.retired ∧
      ∃ r, (s.leave c ret).outcome = some (c, r) ∧ (c.submit = false → r = ret) := by
  unfold Stream.leave
  split
  · next hsubmit =>
    have hnot : ∀ {r : Result}, c.submit = false → r = ret := fun hno =>
      absurd (hsubmit.symm.trans hno) Bool.noConfusion
    split
    · obtain ⟨hphase, herrors, hrecv, hcq, hretired, r, hr⟩ := enqueue_spec s c
      exact ⟨hphase, herrors, hrecv, hcq, hretired, r, hr, hnot⟩
    · exact ⟨rfl, rfl, rfl, rfl, rfl, _, rfl, hnot⟩
  · exact ⟨rfl, rfl, rfl, rfl, rfl, _, rfl, fun _ => rfl⟩

namespace ErrorInv

section

variable (h : ErrorInv s)
include h

theorem leave (hpassed : c.submit = false → ret = .ok → c.task = none → Passed s c) :
    ErrorInv (s.leave c ret) := by
  obtain ⟨hphase, herrors, hrecv, hcq, hretired, r, hr, hret⟩ := leave_spec s c ret
  refine ⟨?_, ?_, ?_, ?_⟩
  · rw [herrors, hrecv, hcq]
    exact h.errors
  · rw [hphase]
    nofun
  · rw [hphase]
    exact trivial
  intro c' hc' hsubmit htask
  rw [hr, some_inj, Prod.mk.injEq] at hc'
  obtain ⟨rfl, rfl⟩ := hc'
  rw [Passed, herrors, hretired]
  exact hpassed hsubmit (hret hsubmit).symm htask

theorem enqueue (hsubmit : c.submit = true) : ErrorInv (s.enqueue c) := by
  obtain ⟨hphase, herrors, hrecv, hcq, -, r, hr⟩ := enqueue_spec s c
  refine ⟨?_, ?_, ?_, ?_⟩
  · rw [herrors, hrecv, hcq]
    exact h.errors
  · rw [hphase]
    nofun
  · rw [hphase]
    exact trivial
  intro c' hc' hno
  rw [hr, some_inj, Prod.mk.injEq] at hc'
  rw [← hc'.1, hsubmit] at hno
  cases hno

theorem retire {retired sqHead : ℕ} (hle : s.retired ≤ retired) :
    ErrorInv { s with sqHead := sqHead, retired := retired } where
  errors := h.errors
  submitted := h.submitted
  clean := h.clean
  outcome c hc hsubmit htask := by
    obtain ⟨hpassed, hall⟩ := h.outcome c hc hsubmit htask
    exact ⟨hpassed.trans hle, hall⟩

theorem withPhase (phase : Phase)
    (hcall : ∀ c, phase.call = some c → c.submitted = s.sent) (hclean : phase.Clean s.received) :
    ErrorInv { s with phase := phase } :=
  ⟨h.errors, hcall, hclean, h.outcome⟩

theorem retireBehind (hlast : ∀ k ∈ lastTask, s.retired ≤ k) :
    ErrorInv (s.retireBehind lastTask) := by
  cases lastTask with
  | none => exact h
  | some k => exact h.retire ((hlast k rfl).trans (Nat.le_succ _))

theorem takeReports (n : ℕ) : ∀ k ∈ (s.takeReports n).errors, k ∈ (s.takeReports n).received ∨
      ∃ r ∈ (s.takeReports n).cq, r.task = k ∧ r.errorCode ≠ 0 := by
  intro k hk
  rcases h.errors k hk with hrecv | ⟨r, hr, rfl, hcode⟩
  · exact .inl (mem_append_right _ hrecv)
  rw [← take_append_drop n s.cq] at hr
  rcases mem_append.mp hr with hr | hr
  · refine .inl (mem_append_left _ (mem_map.mpr ⟨r, ?_, rfl⟩))
    exact mem_filter.mpr ⟨hr, decide_eq_true hcode⟩
  · exact .inr ⟨r, hr, rfl, hcode⟩

theorem receiveCqe {retFlag : Result} (hp : s.phase = .receiving c lastTask retFlag)
    (hlast : ∀ k ∈ lastTask, s.retired ≤ k) (answer : RecvAnswer) :
    ErrorInv (s.receiveCqe c lastTask retFlag answer) := by
  have hretired := h.retireBehind hlast
  have hclean := h.clean
  have hsub : c.submitted = s.sent := h.submitted c (by rw [hp]; rfl)
  rw [hp] at hclean
  cases answer with
  | failed | invalidNum => exact hretired.leave nofun
  | reports num =>
    unfold Stream.receiveCqe
    dsimp only
    generalize min num maxQueryCqeNum = n
    split
    · split
      · next hret => exact hretired.leave fun _ hok => absurd hok hret
      next hret =>
      -- Nothing was received in this call, so it goes on without an error.
      have hrecv : (s.retireBehind lastTask).received = s.received := by
        cases lastTask <;> rfl
      have hsent : (s.retireBehind lastTask).sent = s.sent := by
        cases lastTask <;> rfl
      refine hretired.withPhase (.loop _) ?_ ?_
      · rintro c' ⟨rfl⟩
        exact hsub.trans hsent.symm
      intro hsubmit
      rw [hrecv]
      exact hclean hsubmit (not_not.mp hret)
    refine ⟨h.takeReports n, ?_, ?_, h.outcome⟩
    · rintro c' ⟨rfl⟩
      exact hsub
    intro hsubmit hflag
    obtain ⟨hany, hflag⟩ : ¬ ((s.cq.take n).any (·.errorCode ≠ 0)) = true ∧ retFlag = .ok := by
      split at hflag
      · cases hflag
      · next hany => exact ⟨hany, hflag⟩
    have hnone : (s.cq.take n).filter (·.errorCode ≠ 0) = [] := by
      refine filter_eq_nil_iff.mpr fun r hr hcode => hany ?_
      exact any_eq_true.mpr ⟨r, hr, hcode⟩
    show ((s.cq.take n).filter (·.errorCode ≠ 0)).map Report.task ++ s.received = []
    rw [hnone, hclean hsubmit hflag]
    rfl

theorem passed_of_leave (hring : Inv s) (hp : s.phase = .loop c)
    (hwaits : s.waits c = false) (hsubmit : c.submit = false)
    (hret : (if maxRetry ≤ c.retry then Result.timeout else .ok) = .ok) (htask : c.task = none) :
    Passed s c := by
  have hretry : c.retry < maxRetry := by
    by_contra hnot
    rw [if_pos (not_lt.mp hnot)] at hret
    cases hret
  have heq : s.sqHead = s.sqTail := by
    simpa [Stream.waits, htask, Stream.taskInRange, hretry] using hwaits
  have hsent : s.retired = s.sent := by
    rw [hring.head, hring.tail] at heq
    exact hring.window.empty_iff.mp heq
  have hsub : c.submitted = s.sent := h.submitted c (by rw [hp]; rfl)
  have hrecv : s.received = [] := by
    have hclean := h.clean
    rw [hp] at hclean
    exact hclean hsubmit
  refine ⟨by omega, fun k hk => ?_⟩
  rcases h.errors k hk with hmem | ⟨r, hr, rfl, -⟩
  · rw [hrecv] at hmem
    cases hmem
  · have hle := (hring.cq r hr).1
    omega

theorem post (hretired : s.retired ≤ task) :
    ErrorInv { s with
      posted := task + 1
      cq := s.cq ++ [⟨task, errorCode⟩]
      errors := if errorCode ≠ 0 then task :: s.errors else s.errors } := by
  have hcases : ∀ k, k ∈ (if errorCode ≠ 0 then task :: s.errors else s.errors) →
      (k = task ∧ errorCode ≠ 0) ∨ k ∈ s.errors := by
    intro k hk
    split at hk
    · next hcode => exact (mem_cons.mp hk).imp_left fun heq => ⟨heq, hcode⟩
    · exact .inr hk
  refine ⟨fun k hk => ?_, h.submitted, h.clean, fun c hc hsubmit htask => ?_⟩
  · rcases hcases k hk with ⟨rfl, hcode⟩ | hk
    · exact .inr ⟨_, mem_append_right _ mem_cons_self, rfl, hcode⟩
    refine (h.errors k hk).imp_right ?_
    rintro ⟨r, hr, hcode⟩
    exact ⟨r, mem_append_left _ hr, hcode⟩
  obtain ⟨hle, hall⟩ := h.outcome c hc hsubmit htask
  refine ⟨hle, fun k hk => ?_⟩
  rcases hcases k hk with ⟨rfl, -⟩ | hk
  · exact hle.trans hretired
  · exact hall k hk

end

end ErrorInv

theorem errorInv_next {a : StreamStep} (h : ErrorInv s) (hring : Inv s) (hok : Orderly s a)
    (hnext : s.next a = some t) : ErrorInv t := by
  have hphase := hring.phase
  have hclean := h.clean
  cases a with
  | finish =>
    obtain ⟨-, rfl⟩ := Stream.next_finish hnext
    exact { h with }
  | post task errorCode =>
    obtain ⟨-, hretired, -, rfl⟩ := Stream.next_post hnext
    exact h.post hretired
  | submitTasks =>
    obtain ⟨-, rfl⟩ := Stream.next_submitTasks hnext
    unfold Stream.submitTasks
    split
    · refine h.withPhase (.loop _) ?_ nofun
      rintro c ⟨rfl⟩
      rfl
    · exact h.enqueue rfl
  | synchronize task =>
    obtain ⟨-, rfl⟩ := Stream.next_synchronize hnext
    refine h.withPhase (.loop _) ?_ fun _ => hok.2
    rintro c ⟨rfl⟩
    rfl
  | getSqHead answer =>
    obtain ⟨c, hp, ⟨-, rfl⟩ | ⟨head, rfl, -, rfl⟩⟩ := Stream.next_getSqHead hnext
    · exact h.leave nofun
    rw [hp] at hclean
    refine ⟨h.errors, ?_, hclean, h.outcome⟩
    rintro c' ⟨rfl⟩
    exact h.submitted c (by rw [hp]; rfl)
  | getCqeStatus queried =>
    obtain ⟨c, head, hp, hcases⟩ := Stream.next_getCqeStatus hnext
    have hsub : c.submitted = s.sent := h.submitted c (by rw [hp]; rfl)
    rw [hp] at hphase hclean
    rcases hcases with rfl | ⟨-, rfl⟩
    · refine h.withPhase (.receiving c none .ok) ?_ fun hsubmit _ => hclean hsubmit
      rintro c' ⟨rfl⟩
      exact hsub
    rw [hring.retireTo_eq hphase.1 hphase.2]
    refine (h.retire hphase.1).withPhase (.loop _) ?_ hclean
    rintro c' ⟨rfl⟩
    exact hsub
  | receiveCqe answer =>
    obtain ⟨c, lastTask, retFlag, hp, rfl⟩ := Stream.next_receiveCqe hnext
    rw [hp] at hphase
    exact h.receiveCqe hp (fun k hk => (hphase k hk).1) answer
  | leave =>
    obtain ⟨c, hp, hwaits, rfl⟩ := Stream.next_leave hnext
    exact h.leave fun hsubmit hret htask =>
      h.passed_of_leave hring hp hwaits hsubmit hret htask

/-! ### Runs -/

/-- If a reported head is never behind the host and the completion queue can always be asked, the
slot of a task that is not done is never written; and if no error was received before a call of
`Synchronize`, all tasks are done without an error when it returns success. -/
theorem ring_of_orderly (s : Stream) :
    (streamSystem.ReachableBy Coherent s → RingSafe s) ∧
      (streamSystem.ReachableBy Orderly s → SyncSound s) := by
  refine ⟨fun h => ?_, fun h => ?_⟩
  · have hinv : Inv s :=
      TransitionSystem.ReachableBy.invariant (I := Inv) inv_start
        (fun h hok hnext => inv_next h hok hnext) h
    exact hinv.ringSafe
  have hinv : Inv s ∧ ErrorInv s :=
    TransitionSystem.ReachableBy.invariant (I := fun s => Inv s ∧ ErrorInv s)
      ⟨inv_start, errorInv_start⟩
      (fun h hok hnext => ⟨inv_next h.1 hok.1 hnext, errorInv_next h.2 h.1 hok hnext⟩) h
  exact hinv.2.syncSound hinv.1

def seen (s : Stream) : List ℕ × Option (Call × Result) := (s.errors, s.outcome)

/-- Two tasks are sent; the head of the device is seen after the first, an entry of the completion
queue after the second. -/
def twoTasks : List StreamStep :=
  [.submitTasks, .submitTasks, .finish, .synchronize none, .getSqHead (some 1), .getCqeStatus true,
    .finish, .post 1 0, .getSqHead (some 2), .getCqeStatus true, .receiveCqe (.reports 32),
    .receiveCqe (.reports 32), .leave]

theorem sound_after_two_tasks : ∃ s, streamSystem.ReachableBy Orderly s ∧
    s.outcome = some (⟨false, none, 2, 2⟩, .ok) ∧ RingSafe s ∧ SyncSound s := by
  refine TransitionSystem.exists_reachableBy twoTasks seen ([], some (⟨false, none, 2, 2⟩, .ok)) ?_
    fun s hreach hseen => ?_
  · decide +kernel
  simp only [seen, Prod.mk.injEq] at hseen
  exact ⟨hseen.2, (ring_of_orderly s).1 (.mono (fun _ _ h => h.1) hreach),
    (ring_of_orderly s).2 hreach⟩

/-- A task fails; its error is received by a first call of `Synchronize`. -/
def failedTask : List StreamStep :=
  [.submitTasks, .finish, .post 0 7, .synchronize none, .getSqHead (some 1), .getCqeStatus true,
    .receiveCqe (.reports 32), .receiveCqe (.reports 32)]

/-- An error is reported once, and `Synchronize` returns success the next time. -/
theorem error_forgotten : (∃ s, streamSystem.Reachable s ∧
      s.outcome = some (⟨false, none, 0, 1⟩, .error)) ∧
    ∃ s, streamSystem.Reachable s ∧ s.outcome = some (⟨false, none, 0, 1⟩, .ok) ∧
      s.errors = [0] ∧ ¬ SyncSound s := by
  have hfirst : (streamSystem.run streamSystem.start failedTask).map seen =
      some ([0], some (⟨false, none, 0, 1⟩, .error)) := by
    decide +kernel
  have hsecond : (streamSystem.run streamSystem.start
      (failedTask ++ [.synchronize none, .leave])).map seen =
      some ([0], some (⟨false, none, 0, 1⟩, .ok)) := by
    decide +kernel
  refine ⟨?_, ?_⟩
  · obtain ⟨s, hs, hseen⟩ := map_eq_some_iff.mp hfirst
    simp only [seen, Prod.mk.injEq] at hseen
    exact ⟨s, TransitionSystem.reachable_of_run hs, hseen.2⟩
  obtain ⟨s, hs, hseen⟩ := map_eq_some_iff.mp hsecond
  simp only [seen, Prod.mk.injEq] at hseen
  obtain ⟨herrors, houtcome⟩ := hseen
  refine ⟨s, TransitionSystem.reachable_of_run hs, houtcome, herrors, fun h => ?_⟩
  obtain ⟨-, hall⟩ := h _ houtcome rfl rfl
  have hle := hall 0 (herrors ▸ mem_cons_self)
  cases hle

end Hybm.StreamRing
