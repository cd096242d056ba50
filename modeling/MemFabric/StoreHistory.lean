/-
Runs of the configuration store server with their history.

What was sent, what created each key and which GETs were registered is not in the state of the
server, so a `History` carries it along: all replies, the values each key was created with, and
the GETs that were registered as waiters, less those whose link went down or that were there
when the whole store was cleared.

`TableInv` is what holds of the tables of waiters in every state of every run
(`tableInv_of_reachable`), whatever the registered handlers do.
-/
import MemFabric.StoreSystem

namespace ConfigStore

open Waiters

variable {H : Type}

def repliesTo (sent : List Reply) (ctx : ReqCtx) : List Reply :=
  sent.filter fun r => r.ctx = ctx

theorem repliesTo_append (xs ys : List Reply) (ctx : ReqCtx) :
    repliesTo (xs ++ ys) ctx = repliesTo xs ctx ++ repliesTo ys ctx :=
  List.filter_append ..

theorem repliesTo_eq_nil {sent : List Reply} {ctx : ReqCtx} (h : ∀ r ∈ sent, r.ctx ≠ ctx) :
    repliesTo sent ctx = [] := by
  rw [repliesTo, List.filter_eq_nil_iff]
  intro r hr
  simpa using h r hr

/-! ### Runs with their history -/

/-- A GET that was registered as a waiter; `born` is how many times its key had
been created by then. -/
structure BlockedGet where
  ctx : ReqCtx
  key : Key
  born : ℕ

structure History (H : Type) where
  server : Server H
  steps : ℕ
  sent : List Reply
  creations : Key → List Bytes
  blocked : List BlockedGet

/-- The value a key was created with, if a step created it. -/
def created (before after : Backend) (key : Key) : List Bytes :=
  match before key, after key with
  | none, some value => [value]
  | _, _ => []

/-- The blocked GETs still to be accounted for after a step. -/
def survivors (reg : Registered H) (after : Server H) (gs : List BlockedGet) :
    Event → List BlockedGet
  | .broken linkId =>
    if reg.broken = none ∧ after.aliveRankSet = ∅ then []
    else gs.filter fun g => g.ctx.linkId ≠ linkId
  | _ => gs

/-- The GET that a step registered, if its link is up: the one whose id is the
first that was free before. -/
def registration (before after : Server H) (creations : Key → List Bytes) : List BlockedGet :=
  match after.waiters.waitCtx before.waiters.idGen with
  | none => []
  | some w =>
    if w.reqCtx.linkId ∈ after.established then [⟨w.reqCtx, w.key, (creations w.key).length⟩]
    else []

def History.record (reg : Registered H) (w : History H) (e : Event) (a : Answer H) : History H :=
  let creations := fun key => w.creations key ++ created w.server.backend a.server.backend key
  { server := a.server
    steps := w.steps + 1
    sent := w.sent ++ a.replies
    creations := creations
    blocked := survivors reg a.server w.blocked e ++ registration w.server a.server creations }

/-- A request has a context of its own, here numbered by the step. -/
def Event.Fresh (n : ℕ) : Event → Prop
  | .request ctx _ _ => ctx.uid = n
  | _ => True

instance (n : ℕ) : (e : Event) → Decidable (e.Fresh n)
  | .request ctx _ _ => inferInstanceAs (Decidable (ctx.uid = n))
  | .connect _ _ | .broken _ | .timer _ _ | .rankState | .checker _ => isTrue trivial

def historySystem (reg : Registered H) (worldSize : ℕ) (h : H) :
    TransitionSystem (History H) Event where
  start := ⟨Server.init worldSize h, 0, [], fun _ => [], []⟩
  next w e := if e.Fresh w.steps then (w.server.handle reg e).map (w.record reg e) else none

/-! ### The tables of waiters -/

/-- What holds of the tables after `n` steps: ids are below the counter, context numbers below
`n`, listed waiters wait for their key, and no two entries share a context. -/
structure TableInv (s : Server H) (n : ℕ) : Prop where
  id_lt : ∀ {id w}, s.waiters.waitCtx id = some w → id < s.waiters.idGen
  uid_lt : ∀ {id w}, s.waiters.waitCtx id = some w → w.reqCtx.uid < n
  listed : ∀ {key ids id}, s.waiters.keyWaiters key = some ids → id ∈ ids → id < s.waiters.idGen
  keyed : ∀ {key ids id w}, s.waiters.keyWaiters key = some ids → id ∈ ids →
    s.waiters.waitCtx id = some w → w.key = key
  inj : s.waiters.CtxInjective
  watch_lt : ∀ {p}, p ∈ s.rankStateWaiters → p.2.reqCtx.uid < n
  watch_ne : ∀ {p id w}, p ∈ s.rankStateWaiters → s.waiters.waitCtx id = some w →
    p.2.reqCtx ≠ w.reqCtx

variable {reg : Registered H}

theorem linkBroken_tables {s s' : Server H} {linkId : ℕ}
    (h : linkBrokenHandler reg s linkId = some s') :
    s'.established = s.established ∧ (∀ p ∈ s'.rankStateWaiters, p ∈ s.rankStateWaiters) ∧
      s'.waiters = if reg.broken = none ∧ s'.aliveRankSet = ∅
        then Waiters.clear s.waiters.idGen else s.waiters := by
  rw [linkBrokenHandler] at h
  split at h
  · rw [← Option.some_inj.mp h, linkBrokenCleanup_frame.1, linkBrokenCleanup_frame.2.1]
    exact ⟨rfl, fun p hp => linkBrokenCleanup_rankStateWaiters hp,
      linkBrokenCleanup_waiters⟩
  split at h
  · cases h
  rw [← Option.some_inj.mp h, linkBrokenCleanup_frame.1, linkBrokenCleanup_frame.2.1]
  refine ⟨rfl, fun p hp => ?_, linkBrokenCleanup_waiters⟩
  have hp' := linkBrokenCleanup_rankStateWaiters hp
  exact hp'

namespace TableInv

variable {s : Server H} {n : ℕ}

variable {s' : Server H} {ctx : ReqCtx}

section

variable (hi : TableInv s n)
include hi

theorem shrink (hwait : ∀ {i w}, s'.waiters.waitCtx i = some w → s.waiters.waitCtx i = some w)
    (hkey : ∀ key l, s'.waiters.keyWaiters key = some l → s.waiters.keyWaiters key = some l)
    (hgen : s.waiters.idGen ≤ s'.waiters.idGen)
    (hwatch : ∀ p ∈ s'.rankStateWaiters, p ∈ s.rankStateWaiters ∨ p.2.reqCtx.uid = n) :
    TableInv s' (n + 1) where
  id_lt h := lt_of_lt_of_le (hi.id_lt (hwait h)) hgen
  uid_lt h := Nat.lt_succ_of_lt (hi.uid_lt (hwait h))
  listed h hid := lt_of_lt_of_le (hi.listed (hkey _ _ h) hid) hgen
  keyed h hid hw := hi.keyed (hkey _ _ h) hid (hwait hw)
  inj h h' hc := hi.inj (hwait h) (hwait h') hc
  watch_lt hp := by
    rcases hwatch _ hp with hp | hp
    · exact Nat.lt_succ_of_lt (hi.watch_lt hp)
    · omega
  watch_ne hp hw := by
    rcases hwatch _ hp with hp | hp
    · exact hi.watch_ne hp (hwait hw)
    -- A new watcher has the number of this step, every waiter a smaller one.
    intro heq
    exact (hi.uid_lt (hwait hw)).ne (heq ▸ hp)

theorem reqCtx_ne (huid : ctx.uid = n) {i : ℕ} {w : StoreWaitContext}
    (h : s.waiters.waitCtx i = some w) : w.reqCtx ≠ ctx := by
  rintro rfl
  exact (hi.uid_lt h).ne huid

theorem watch_reqCtx_ne (huid : ctx.uid = n) {p : ℕ × StoreWaitContext}
    (hp : p ∈ s.rankStateWaiters) : p.2.reqCtx ≠ ctx := by
  rintro rfl
  exact (hi.watch_lt hp).ne huid

theorem addWaiter {key : Key} {userDef now : ℤ} (huid : ctx.uid = n)
    (hw : s'.waiters = s.waiters.addWaiter ctx key userDef now)
    (hwatch : s'.rankStateWaiters = s.rankStateWaiters) : TableInv s' (n + 1) := by
  have hgen : s'.waiters.idGen = s.waiters.idGen + 1 := by
    rw [hw]
    rfl
  refine ⟨fun h => ?_, fun h => ?_, fun h hid => ?_, fun h hid h' => ?_, fun h h' hc => ?_,
    fun hp => ?_, fun hp h => ?_⟩
  · rcases waitCtx_of_addWaiter (hw ▸ h) with ⟨hid, -⟩ | ⟨-, h⟩
    · omega
    · have := hi.id_lt h
      omega
  · rcases waitCtx_of_addWaiter (hw ▸ h) with ⟨-, -, hctx⟩ | ⟨-, h⟩
    · rw [hctx]
      omega
    · exact Nat.lt_succ_of_lt (hi.uid_lt h)
  · rcases mem_keyWaiters_of_addWaiter (hw ▸ h) hid with ⟨-, hid⟩ | ⟨old, hl, hid⟩
    · omega
    · have := hi.listed hl hid
      omega
  · -- the new id is listed under the new key only, and the old ids are those of old waiters
    rcases mem_keyWaiters_of_addWaiter (hw ▸ h) hid with ⟨hk, hid⟩ | ⟨old, hl, hid⟩
    · rcases waitCtx_of_addWaiter (hw ▸ h') with ⟨-, hkey, -⟩ | ⟨hne, -⟩
      · rw [hkey, hk]
      · exact absurd hid hne
    · rcases waitCtx_of_addWaiter (hw ▸ h') with ⟨heq, -⟩ | ⟨-, h'⟩
      · exact absurd heq (hi.listed hl hid).ne
      · exact hi.keyed hl hid h'
  · rcases waitCtx_of_addWaiter (hw ▸ h) with ⟨hid, -, hctx⟩ | ⟨-, h⟩
    · rcases waitCtx_of_addWaiter (hw ▸ h') with ⟨hid', -⟩ | ⟨-, h'⟩
      · rw [hid, hid']
      · exact absurd (hc.symm.trans hctx) (hi.reqCtx_ne huid h')
    · rcases waitCtx_of_addWaiter (hw ▸ h') with ⟨-, -, hctx⟩ | ⟨-, h'⟩
      · exact absurd (hc.trans hctx) (hi.reqCtx_ne huid h)
      · exact hi.inj h h' hc
  · exact Nat.lt_succ_of_lt (hi.watch_lt (hwatch ▸ hp))
  rw [hwatch] at hp
  rcases waitCtx_of_addWaiter (hw ▸ h) with ⟨-, -, hctx⟩ | ⟨-, h⟩
  · rw [hctx]
    exact hi.watch_reqCtx_ne huid hp
  · exact hi.watch_ne hp h

theorem take (b : Backend) (h : H) (key : Key) :
    TableInv { s with backend := b, handler := h, waiters := (s.waiters.takeKeyWaiters key).1 }
      (n + 1) :=
  hi.shrink waitCtx_of_takeKeyWaiters (fun _ _ => keyWaiters_of_takeKeyWaiters)
    (takeKeyWaiters_idGen _ _).ge fun _ hp => .inl hp

theorem idle (hw : s'.waiters = s.waiters)
    (hp : s'.rankStateWaiters = s.rankStateWaiters) : TableInv s' (n + 1) :=
  hi.shrink (fun h => hw ▸ h) (fun _ _ h => hw ▸ h) (hw ▸ le_rfl) fun _ h => .inl (hp ▸ h)

end

variable {reg : Registered H}

theorem request {m : SmemMessage} {a : Answer H} (hi : TableInv s n) (huid : ctx.uid = n)
    (he : RequestEffect reg s ctx m a) : TableInv a.server (n + 1) := by
  cases he with
  | kept | ranked | written => exact hi.idle rfl rfl
  | woken _ key _ h | dropped _ key _ h => exact hi.take _ h key
  | registered => exact hi.addWaiter huid rfl rfl
  | watched _ watchers hw =>
    refine hi.shrink (fun h => h) (fun _ _ h => h) (Nat.le_succ _) fun p hp => ?_
    rcases hw p hp with hp | hp
    · exact .inl hp
    · exact .inr (by rw [hp, huid])

theorem timer (hi : TableInv s n) (now : ℤ) (order : List (ℤ × List ℕ)) :
    TableInv (timerPass s now order).server (n + 1) := by
  refine hi.shrink (fun {i w} hw => ?_) (fun key l h => ?_) ?_ fun p hp => .inl hp
  · rw [timerPass, getOutWaitersInLock_waitCtx] at hw
    split at hw
    · cases hw
    · exact hw
  · rwa [timerPass, (getOutWaitersInLock_frame ..).1] at h
  · rw [timerPass, (getOutWaitersInLock_frame ..).2]

theorem broken {linkId : ℕ} (hi : TableInv s n)
    (h : linkBrokenHandler reg { s with established := s.established.erase linkId } linkId =
      some s') : TableInv s' (n + 1) := by
  obtain ⟨-, hwatch, hwaiters⟩ := linkBroken_tables h
  split at hwaiters
  · refine hi.shrink (fun hw => ?_) (fun key l hl => ?_) (hwaiters ▸ le_rfl)
      fun p hp => .inl (hwatch p hp)
    · rw [hwaiters] at hw
      exact absurd hw (by simp [clear])
    · rw [hwaiters] at hl
      exact absurd hl (by simp [clear])
  · exact hi.shrink (fun hw => hwaiters ▸ hw) (fun _ _ hl => hwaiters ▸ hl) (hwaiters ▸ le_rfl)
      fun p hp => .inl (hwatch p hp)

theorem handle {e : Event} {a : Answer H} (hi : TableInv s n) (hfresh : e.Fresh n)
    (h : s.handle reg e = some a) : TableInv a.server (n + 1) := by
  cases handle_cases h with
  | connect linkId rankReq _ =>
    simp only [linkConnectedHandler]
    split
    · exact hi.idle rfl rfl
    · exact hi.idle rfl rfl
  | broken linkId s' hs' => exact hi.broken hs'
  | undecoded => exact hi.idle rfl rfl
  | request ctx body now m _ _ hreq => exact hi.request hfresh (requestHandler_exit hreq).effect
  | timer now order => exact hi.timer now order
  | rankState =>
    rw [rankStateTask_server]
    exact hi.idle rfl rfl
  | checker now =>
    obtain ⟨b, h', beats, heq, -⟩ := checkerTask_frame reg s now
    rw [heq]
    exact hi.idle rfl rfl

theorem init (worldSize : ℕ) (h : H) : TableInv (Server.init worldSize h) 0 := by
  refine ⟨?_, ?_, ?_, ?_, ?_, ?_, ?_⟩ <;> simp [Server.init, clear, Waiters.CtxInjective]

end TableInv

theorem historySystem_next {worldSize : ℕ} {h : H} {w w' : History H} {e : Event}
    (hn : (historySystem reg worldSize h).next w e = some w') :
    e.Fresh w.steps ∧ ∃ a, w.server.handle reg e = some a ∧ w' = w.record reg e a := by
  simp only [historySystem] at hn
  split at hn
  · obtain ⟨a, ha, rfl⟩ := Option.map_eq_some_iff.mp hn
    exact ⟨‹_›, a, ha, rfl⟩
  · cases hn

theorem tableInv_of_reachable (reg : Registered H) (worldSize : ℕ) (h : H) {w : History H}
    (hw : (historySystem reg worldSize h).Reachable w) : TableInv w.server w.steps := by
  refine TransitionSystem.ReachableBy.invariant (I := fun w => TableInv w.server w.steps)
    (TableInv.init worldSize h) ?_ hw
  intro w w' e hi _ hn
  obtain ⟨hfresh, a, ha, rfl⟩ := historySystem_next hn
  exact hi.handle hfresh ha

end ConfigStore
