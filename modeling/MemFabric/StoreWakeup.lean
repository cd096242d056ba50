/-
Wake-ups of blocked GETs.

A GET of an absent key waits until the key is created.  `NoLostWakeup`: a key that is present
has no registered waiter.  SET, ADD, APPEND and CAS keep it, because each takes the waiters of a
key out when it creates the key; WRITE creates keys without looking at the waiters.
-/
import MemFabric.StoreSystem

namespace ConfigStore

open Option Waiters Function

variable {H : Type}

/-- No key that is present has an id of `keyWaiters_[key]` in `waitCtx_`. -/
def NoLostWakeup (s : Server H) : Prop :=
  ∀ key, s.backend key ≠ none → s.waiters.registered key = []

/-- Steps that lose no wake-up: an accepted WRITE of an absent key finds nobody waiting for it.
Broken links are covered without a handler for them, which could put any key into the backend. -/
def WakeSafe (reg : Registered H) (s : Server H) : Event → Prop
  | .request _ body _ => ∀ m key payload, decoded body = some m → m.mt = .write →
      m.keys = [key] → m.values = [payload] → 4 ≤ payload.length → writeInRange payload →
      s.backend key = none → s.waiters.registered key = []
  | .broken _ | .checker _ => reg.broken = none
  | .connect _ _ | .timer _ _ | .rankState => True

variable {key : Key}

namespace Waiters

theorem registered_eq_nil_iff (t : Waiters) (key : Key) :
    t.registered key = [] ↔
      ∀ ids, t.keyWaiters key = some ids → ∀ id ∈ ids, t.waitCtx id = none := by
  rw [registered, List.filter_eq_nil_iff]
  cases t.keyWaiters key with
  | none | some ids => simp

theorem registered_eq_nil_of_le {t t' : Waiters}
    (hk : ∀ ids, t'.keyWaiters key = some ids → t.keyWaiters key = some ids)
    (hw : ∀ id, t.waitCtx id = none → t'.waitCtx id = none) (h : t.registered key = []) :
    t'.registered key = [] := by
  rw [registered_eq_nil_iff] at h ⊢
  intro ids hids id hid
  exact hw id (h ids (hk ids hids) id hid)

end Waiters

/-- The invariant behind `NoLostWakeup`: listed ids are older than the counter,
so a new waiter is in no old list, and nobody waits for a ranking key. -/
structure WakeInv (s : Server H) : Prop where
  listed : ∀ {key ids id}, s.waiters.keyWaiters key = some ids → id ∈ ids → id < s.waiters.idGen
  ranking : ∀ {key}, autoRankingStr.isPrefixOf key = true → s.waiters.keyWaiters key = none
  awake : NoLostWakeup s

namespace WakeInv

variable {reg : Registered H} {s : Server H}

section

variable (hi : WakeInv s)
include hi

variable {s' : Server H}

theorem shrink
    (hk : ∀ key ids, s'.waiters.keyWaiters key = some ids → s.waiters.keyWaiters key = some ids)
    (hw : ∀ id, s.waiters.waitCtx id = none → s'.waiters.waitCtx id = none)
    (hg : s.waiters.idGen ≤ s'.waiters.idGen)
    (hb : ∀ key, s'.backend key ≠ none → s.backend key ≠ none ∨ s'.waiters.registered key = []) :
    WakeInv s' where
  listed hids hid := lt_of_lt_of_le (hi.listed (hk _ _ hids) hid) hg
  ranking hpre := by
    rw [eq_none_iff_forall_ne_some]
    intro ids hids
    have := hk _ _ hids
    rw [hi.ranking hpre] at this
    cases this
  awake key hkey := by
    rcases hb key hkey with hold | hnil
    · exact registered_eq_nil_of_le (hk key) hw (hi.awake key hold)
    · exact hnil

theorem created (key : Key) (value : Bytes) (h : H) :
    WakeInv { s with backend := update s.backend key (some value), handler := h
                     waiters := (s.waiters.takeKeyWaiters key).1 } := by
  have hnone : (update s.waiters.keyWaiters key none) key = none :=
    update_self ..
  refine hi.shrink (fun k ids hids => ?_) (fun id hid => ?_) ?_ (fun k hk => ?_)
  · rw [takeKeyWaiters_keyWaiters] at hids
    by_cases hne : k = key
    · rw [hne, hnone] at hids
      cases hids
    · rwa [update_of_ne hne] at hids
  · rw [takeKeyWaiters_waitCtx, hid, ite_self]
  · rw [takeKeyWaiters_idGen]
  by_cases hne : k = key
  · refine .inr ((registered_eq_nil_iff _ _).mpr fun ids hids => ?_)
    rw [takeKeyWaiters_keyWaiters, hne, hnone] at hids
    cases hids
  · simp only [update_of_ne hne] at hk
    exact .inl hk

theorem putRanking {value : Bytes} (hpre : autoRankingStr.isPrefixOf key = true)
    (hw : s'.waiters = s.waiters) (hb : s'.backend = update s.backend key (some value)) :
    WakeInv s' := by
  refine hi.shrink (fun k ids hids => hw ▸ hids) (fun id hid => hw ▸ hid) (hw ▸ le_rfl)
    (fun k hk => ?_)
  by_cases hne : k = key
  · refine .inr ((registered_eq_nil_iff _ _).mpr fun ids hids => ?_)
    rw [hw, hne, hi.ranking hpre] at hids
    cases hids
  · rw [hb, update_of_ne hne] at hk
    exact .inl hk

theorem addWaiter (ctx : ReqCtx) (userDef now : ℤ) (h : H)
    (hpre : autoRankingStr.isPrefixOf key = false) (hnone : s.backend key = none) :
    WakeInv { s with handler := h, waiters := s.waiters.addWaiter ctx key userDef now } := by
  constructor
  · intro k ids id hids hid
    rcases mem_keyWaiters_of_addWaiter hids hid with ⟨-, rfl⟩ | ⟨old, hl, hid⟩
    · exact Nat.lt_succ_self _
    · exact Nat.lt_succ_of_lt (hi.listed hl hid)
  · intro k hk
    have hne : k ≠ key := by
      rintro rfl
      rw [hpre] at hk
      cases hk
    rw [addWaiter_keyWaiters, if_neg hne]
    exact hi.ranking hk
  intro k hk
  have hne : k ≠ key := by
    rintro rfl
    exact hk hnone
  rw [registered_eq_nil_iff]
  intro ids hids id hid
  rw [addWaiter_keyWaiters, if_neg hne] at hids
  rw [addWaiter_waitCtx, if_neg (hi.listed hids hid).ne]
  exact (registered_eq_nil_iff _ _).mp (hi.awake k hk) ids hids id hid

theorem request {ctx : ReqCtx} {body : Option Bytes} {now : ℤ}
    {m : SmemMessage} {a : Answer H} (hm : decoded body = some m)
    (hsafe : WakeSafe reg s (.request ctx body now)) (he : RequestEffect reg s ctx m a) :
    WakeInv a.server := by
  cases he with
  | kept _ b _ _ _ hb _ =>
    exact hi.shrink (fun _ _ h => h) (fun _ h => h) le_rfl
      fun k hk => .inl fun hnone => hk (hb k hnone)
  | ranked _ _ _ _ _ hk _ => exact hi.putRanking hk rfl rfl
  | written _ key _ payload _ _ hmt hkeys hvalues _ hsize hrange hnone _ =>
    have hnil := hsafe m key payload hm hmt hkeys hvalues hsize hrange hnone
    refine hi.shrink (fun _ _ h => h) (fun _ h => h) le_rfl fun k hk => ?_
    by_cases hne : k = key
    · exact .inr (hne ▸ hnil)
    · simp only [update_of_ne hne] at hk
      exact .inl hk
  | woken _ key value h _ _ _ | dropped _ key value h => exact hi.created key value h
  | registered _ userDef now h hk hnone => exact hi.addWaiter ctx userDef now h hk hnone
  | watched => exact hi.shrink (fun _ _ h => h) (fun _ h => h) (Nat.le_succ _) fun _ hk => .inl hk

theorem timer (now : ℤ) (order : List (ℤ × List ℕ)) : WakeInv (timerPass s now order).server := by
  refine hi.shrink (fun k ids hids => ?_) (fun id hid => ?_) ?_ (fun k hk => .inl hk)
  · rwa [timerPass, (getOutWaitersInLock_frame ..).1] at hids
  · simp only [timerPass, getOutWaitersInLock_waitCtx, hid, ite_self]
  · rw [timerPass, (getOutWaitersInLock_frame ..).2]

theorem setEstablished (links : Finset ℕ) : WakeInv { s with established := links } :=
  { hi with }

theorem connect (linkId rankReq : ℕ) : WakeInv (linkConnectedHandler s linkId rankReq) := by
  have hpre : autoRankingStr.isPrefixOf (rankingKey autoRankingStr linkId) = true :=
    List.isPrefixOf_iff_prefix.mpr (List.prefix_append _ _)
  simp only [linkConnectedHandler]
  split
  · exact { hi with }
  · exact hi.putRanking hpre rfl rfl

theorem brokenCleanup (hreg : reg.broken = none) (linkId rankId : ℕ) :
    WakeInv (linkBrokenCleanup reg s linkId rankId) := by
  have hw := @linkBrokenCleanup_waiters _ reg s linkId rankId
  have hb := @linkBrokenCleanup_backend _ reg s linkId rankId hreg
  by_cases hempty : s.aliveRankSet = ∅
  · rw [if_pos ⟨hreg, hempty⟩] at hw
    rw [if_pos hempty] at hb
    refine hi.shrink (fun k ids hids => ?_) (fun id hid => ?_) ?_ (fun k hk => ?_)
    · rw [hw] at hids
      exact absurd hids (by simp [clear])
    · rw [hw]
      rfl
    · rw [hw]
      exact le_rfl
    · rw [hb] at hk
      exact absurd rfl hk
  rw [if_neg fun h => hempty h.2] at hw
  rw [if_neg hempty] at hb
  exact hi.shrink (fun k ids hids => hw ▸ hids) (fun id hid => hw ▸ hid) (hw ▸ le_rfl)
    fun k hk => .inl (hb ▸ hk)

theorem broken (hreg : reg.broken = none) {linkId : ℕ}
    (h : linkBrokenHandler reg s linkId = some s') : WakeInv s' := by
  rw [linkBrokenHandler] at h
  split at h
  · rw [← some_inj.mp h]
    exact hi.brokenCleanup hreg _ _
  split at h
  · cases h
  rw [← some_inj.mp h]
  refine WakeInv.brokenCleanup ?_ hreg _ _
  refine hi.shrink (fun _ _ h => h) (fun _ h => h) le_rfl fun k hk => .inl fun hnone => hk ?_
  simp [update_apply, hnone]

theorem checker (hreg : reg.broken = none) (now : ℤ) : WakeInv (checkerTask reg s now) := by
  obtain ⟨b, h, beats, heq, hb⟩ := checkerTask_frame reg s now
  rw [heq, hb hreg]
  exact { hi with }

theorem handle {e : Event} {a : Answer H} (hsafe : WakeSafe reg s e)
    (h : s.handle reg e = some a) : WakeInv a.server := by
  cases handle_cases h with
  | connect linkId rankReq _ => exact (hi.setEstablished _).connect linkId rankReq
  | broken linkId s' hs' => exact (hi.setEstablished _).broken hsafe hs'
  | undecoded => exact hi
  | request ctx body now m _ hm hreq => exact hi.request hm hsafe (requestHandler_exit hreq).effect
  | timer now order => exact hi.timer now order
  | rankState =>
    rw [rankStateTask_server]
    exact { hi with }
  | checker now => exact hi.checker hsafe now

end

end WakeInv

/-- No wake-up is lost in a run in which no accepted WRITE creates a key that is being waited for.
-/
theorem noLostWakeup_of_wakeSafe (reg : Registered H) (worldSize : ℕ) (h : H) {s : Server H}
    (hs : (storeSystem reg worldSize h).ReachableBy (WakeSafe reg) s) : NoLostWakeup s := by
  refine (TransitionSystem.ReachableBy.invariant (I := WakeInv) ?_ ?_ hs).awake
  · exact ⟨fun h => absurd h (by simp [storeSystem, Server.init, clear]), fun _ => rfl,
      fun _ hk => absurd rfl hk⟩
  intro s s' e hi hsafe hn
  obtain ⟨a, ha, rfl⟩ := map_eq_some_iff.mp hn
  exact hi.handle hsafe ha

/-- Two links connect, and while a GET waits for five seconds over the first one, `op` comes over
the second one. -/
def whileWaiting (op : StoreOp) : List Event :=
  [.connect 1 uint32Max, .connect 2 uint32Max, requestOf 0 1 (.get [107] 5000) 0,
    requestOf 1 2 op 1]

theorem noLostWakeup_after_set :
    ∃ s, (storeSystem (noHandlers Unit) 2 ()).run (Server.init 2 ())
        (whileWaiting (.set [107] [7])) = some s ∧ NoLostWakeup s := by
  have hrun : ((storeSystem (noHandlers Unit) 2 ()).run (Server.init 2 ())
      (whileWaiting (.set [107] [7]))).isSome = true := by
    decide +kernel
  have hsafe : ∀ {op : StoreOp} {uid linkId : ℕ} {now : ℤ} (s : Server Unit),
      (decoded (some (pack op.message))).map SmemMessage.mt ≠ some .write →
      WakeSafe (noHandlers Unit) s (requestOf uid linkId op now) := by
    intro op uid linkId now s hop m key payload hm hmt
    exact absurd (by rw [hm, map_some, hmt]) hop
  obtain ⟨s, hs⟩ := isSome_iff_exists.mp hrun
  refine ⟨s, hs, noLostWakeup_of_wakeSafe _ 2 () (.run .start ?_ hs)⟩
  intro e he s
  simp only [whileWaiting, List.mem_cons, List.not_mem_nil, or_false] at he
  rcases he with rfl | rfl | rfl | rfl
  · trivial
  · trivial
  · exact hsafe s (by decide +kernel)
  · exact hsafe s (by decide +kernel)

/-- A WRITE creates the key that a GET waits for. -/
theorem write_leaves_waiter :
    ∃ s, (storeSystem (noHandlers Unit) 2 ()).run (Server.init 2 ())
        (whileWaiting (.write [107] 0 [7])) = some s ∧ ¬ NoLostWakeup s := by
  refine TransitionSystem.exists_run (fun s => (s.backend [107], s.waiters.registered [107]))
    (some [7], [1]) ?_ fun s _ hval => ?_
  · decide +kernel
  rw [Prod.mk.injEq] at hval
  refine fun hawake => ?_
  have hnil := hawake [107] (by rw [hval.1]; simp)
  rw [hval.2] at hnil
  cases hnil

end ConfigStore
