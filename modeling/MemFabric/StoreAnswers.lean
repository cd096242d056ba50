/-
Answers to blocked GETs.

A GET that is registered as a waiter is answered later, by the handler that creates its key or
by the timer, exactly once (`AnsweredOnce`) as long as no handler drops waiters it has taken
out.
-/
import MemFabric.StoreHistory

namespace ConfigStore

open List Waiters Option

variable {H : Type}

/-! ### The property -/

/-- A timeout, or a value its key was created with since it was registered. -/
def ValidReply (creations : Key → List Bytes) (g : BlockedGet) (r : Reply) : Prop :=
  r = ⟨g.ctx, .timeout, Bytes.ofString "<timeout>"⟩ ∨
    ∃ value ∈ (creations g.key).drop g.born, r = ⟨g.ctx, .success, wakeupMessage value⟩

/-- Every blocked GET is waiting and unanswered, or answered once and not waiting. -/
def AnsweredOnce (w : History H) : Prop :=
  ∀ g ∈ w.blocked, (w.server.waiters.Waits g.ctx ∧ repliesTo w.sent g.ctx = []) ∨
      (¬ w.server.waiters.Waits g.ctx ∧
        ∃ r, repliesTo w.sent g.ctx = [r] ∧ ValidReply w.creations g r)

/-- Steps that drop no waiter: an APPEND that creates its key and whose
registered handler fails finds nobody waiting for the key. -/
def AppendSafe (reg : Registered H) (w : History H) : Event → Prop
  | .request ctx body _ => ∀ m key value, decoded body = some m → m.mt = .append →
      m.keys = [key] → m.values = [value] → w.server.backend key = none →
      (∃ e, executeHandle reg
        { w.server with backend := Function.update w.server.backend key (some value) }
        .append ctx.linkId key value = some e ∧ e.1 ≠ smOk) →
      w.server.waiters.registered key = []
  | _ => True

/-! ### What a step does to the waiters -/

/-- The step takes out the waiters with these ids and answers each of them alike, after
direct replies to its own request and to rank state watchers. -/
structure TakesOut (s : Server H) (n : ℕ) (a : Answer H) (ids : List ℕ) (ctxs : List ReqCtx)
    (direct : List Reply) (code : StoreErrorCode) (message : Bytes) : Prop where
  mem_ctxs : ∀ ctx, ctx ∈ ctxs ↔ ∃ id ∈ ids, ∃ w, s.waiters.waitCtx id = some w ∧ w.reqCtx = ctx
  nodup : ctxs.Nodup
  waitCtx : ∀ i, a.server.waiters.waitCtx i = if i ∈ ids then none else s.waiters.waitCtx i
  established : s.established ⊆ a.server.established
  watchers : ∀ p ∈ a.server.rankStateWaiters, p ∈ s.rankStateWaiters ∨ p.2.reqCtx.uid = n
  replies : a.replies = direct ++ ctxs.flatMap fun ctx => replyWithMessage s ctx code message
  direct : ∀ r ∈ direct, r.ctx.uid = n ∨ ∃ p ∈ s.rankStateWaiters, p.2.reqCtx = r.ctx
  valid : ∀ id ∈ ids, ∀ w, s.waiters.waitCtx id = some w →
    (code = .timeout ∧ message = Bytes.ofString "<timeout>") ∨
      ∃ value ∈ created s.backend a.server.backend w.key,
        code = .success ∧ message = wakeupMessage value

/-- What a step other than a broken link does to the waiters: it takes some out, or it
registers one. -/
inductive WaiterStep (s : Server H) (n : ℕ) (a : Answer H) : Prop
  | takeOut (ids : List ℕ) (ctxs : List ReqCtx) (direct : List Reply) (code : StoreErrorCode)
      (message : Bytes) (htake : TakesOut s n a ids ctxs direct code message)
  | register (ctx : ReqCtx) (key : Key) (userDef now : ℤ) (huid : ctx.uid = n)
      (hwaiters : a.server.waiters = s.waiters.addWaiter ctx key userDef now)
      (hest : a.server.established = s.established)
      (hwatch : a.server.rankStateWaiters = s.rankStateWaiters) (hreply : a.replies = [])

variable {key : Key} {ctx : ReqCtx}

namespace WaiterStep

variable {reg : Registered H} {s : Server H} {n : ℕ}

/-- A step that takes nobody out and answers at most its own request and the rank state
watchers. -/
theorem idle {a : Answer H} (hw : ∀ i, a.server.waiters.waitCtx i = s.waiters.waitCtx i)
    (hest : s.established ⊆ a.server.established)
    (hwatch : ∀ p ∈ a.server.rankStateWaiters, p ∈ s.rankStateWaiters ∨ p.2.reqCtx.uid = n)
    (hdir : ∀ r ∈ a.replies, r.ctx.uid = n ∨ ∃ p ∈ s.rankStateWaiters, p.2.reqCtx = r.ctx) :
    WaiterStep s n a := by
  refine .takeOut [] [] a.replies .success [] ⟨by simp, nodup_nil, fun i => ?_, hest, hwatch,
    by simp, hdir, by simp⟩
  rw [hw, if_neg not_mem_nil]

theorem takeKeyWaiters_waitCtx_of_nil {t : Waiters} (h : t.registered key = []) (i : ℕ) :
    (t.takeKeyWaiters key).1.waitCtx i = t.waitCtx i := by
  rw [takeKeyWaiters_waitCtx]
  split
  · rename_i hi
    rw [registered, filter_eq_nil_iff] at h
    have hnone := h i hi
    rw [not_isSome_iff_eq_none] at hnone
    exact hnone.symm
  · rfl

theorem created_update {b : Backend} (h : b key = none) (value : Bytes) :
    created b (Function.update b key (some value)) key = [value] := by
  rw [created, h, Function.update_self]

theorem ofRequest {m : SmemMessage} {a : Answer H} (hi : TableInv s n) (huid : ctx.uid = n)
    (hsafe : ∀ key value, m.mt = .append → m.keys = [key] → m.values = [value] →
      s.backend key = none →
      (∃ e, executeHandle reg { s with backend := Function.update s.backend key (some value) }
        .append ctx.linkId key value = some e ∧ e.1 ≠ smOk) → s.waiters.registered key = [])
    (he : RequestEffect reg s ctx m a) : WaiterStep s n a := by
  have hdir : ∀ {direct : List Reply}, (∀ r ∈ direct, r.ctx = ctx) →
      ∀ r ∈ direct, r.ctx.uid = n ∨ ∃ p ∈ s.rankStateWaiters, p.2.reqCtx = r.ctx :=
    fun hd r hr => .inl (hd r hr ▸ huid)
  cases he with
  | kept _ _ _ _ direct _ hd | ranked _ _ _ _ direct _ hd
  | written _ _ _ _ _ direct _ _ _ _ _ _ _ hd =>
    exact idle (fun _ => rfl) subset_rfl (fun p hp => .inl hp) (hdir hd)
  | woken _ key value h direct hnone hd =>
    refine .takeOut ((s.waiters.keyWaiters key).getD []) _ direct .success (wakeupMessage value)
      ⟨mem_takeKeyWaiters s.waiters key, nodup_takeKeyWaiters hi.inj key,
        takeKeyWaiters_waitCtx s.waiters key, subset_rfl, fun p hp => .inl hp, rfl,
        hdir hd, ?_⟩
    -- A waiter taken out here is listed under `key`, so `key` is what it waits for.
    intro id hid w hw
    obtain ⟨ids, hl, hid⟩ := mem_getD_keyWaiters.mp hid
    refine .inr ⟨value, ?_, rfl, rfl⟩
    rw [hi.keyed hl hid hw, created_update hnone]
    exact mem_singleton_self value
  | dropped _ key value h direct hmt hkeys hvalues _ hnone hfail hd =>
    have hnil := hsafe key value hmt hkeys hvalues hnone hfail
    exact idle (takeKeyWaiters_waitCtx_of_nil hnil) subset_rfl (fun p hp => .inl hp) (hdir hd)
  | registered key userDef now h _ _ =>
    exact .register ctx key userDef now huid rfl rfl rfl rfl
  | watched _ watchers hw =>
    refine idle (fun _ => rfl) subset_rfl (fun p hp => ?_) (by simp)
    rcases hw p hp with hp | hp
    · exact .inl hp
    · exact .inr (by rw [hp, huid])

theorem ofTimer (hi : TableInv s n) (now : ℤ) (order : List (ℤ × List ℕ)) :
    WaiterStep s n (timerPass s now order) := by
  -- The table of timed waiters plays no part in which contexts come out.
  let t : Waiters := { s.waiters with
    timedWaiters := order.dropWhile fun b : ℤ × List ℕ => b.1 ≤ now }
  have hinj : t.CtxInjective := fun hi' hj hc => hi.inj hi' hj hc
  exact .takeOut ((order.takeWhile fun b : ℤ × List ℕ => b.1 ≤ now).flatMap Prod.snd) _ []
    .timeout (Bytes.ofString "<timeout>")
    ⟨mem_getOutWaitersInLock t _, nodup_getOutWaitersInLock hinj _,
      getOutWaitersInLock_waitCtx t _, subset_rfl, fun p hp => .inl hp, rfl,
      by simp, fun id _ w _ => .inl ⟨rfl, rfl⟩⟩

theorem ofConnect (linkId rankReq : ℕ) :
    WaiterStep s n ⟨smOk, linkConnectedHandler
      { s with established := insert linkId s.established } linkId rankReq, []⟩ := by
  simp only [linkConnectedHandler]
  split
  · exact idle (fun _ => rfl) (Finset.subset_insert _ _) (fun p hp => .inl hp) (by simp)
  · exact idle (fun _ => rfl) (Finset.subset_insert _ _) (fun p hp => .inl hp) (by simp)

theorem ofRankState : WaiterStep s n (rankStateTask s) := by
  rw [rankStateTask]
  split
  · exact idle (fun _ => rfl) subset_rfl (fun p hp => .inl hp) (by simp [silent])
  refine idle (fun _ => rfl) subset_rfl (fun p hp => .inl hp) fun r hr => ?_
  obtain ⟨p, hp, hr⟩ := mem_flatMap.mp hr
  exact .inr ⟨p, hp, by rw [mem_replyWithMessage hr]⟩

theorem ofChecker (now : ℤ) : WaiterStep s n ⟨smOk, checkerTask reg s now, []⟩ := by
  obtain ⟨b, h, beats, heq, -⟩ := checkerTask_frame reg s now
  rw [heq]
  exact idle (fun _ => rfl) subset_rfl (fun p hp => .inl hp) (by simp)

end WaiterStep

/-! ### Replies by context -/

theorem repliesTo_flatMap (s : Server H) (code : StoreErrorCode) (message : Bytes)
    {ctxs : List ReqCtx} (h : ctxs.Nodup) (ctx : ReqCtx) :
    repliesTo (ctxs.flatMap fun c => replyWithMessage s c code message) ctx =
      if ctx ∈ ctxs ∧ ctx.linkId ∈ s.established then [⟨ctx, code, message⟩] else [] := by
  induction ctxs with
  | nil => simp [repliesTo]
  | cons c ctxs ih =>
    obtain ⟨hc, hrest⟩ := nodup_cons.mp h
    rw [flatMap_cons, repliesTo_append, ih hrest]
    by_cases heq : c = ctx
    · subst heq
      rw [if_neg fun h => hc h.1, append_nil, replyWithMessage]
      by_cases hl : c.linkId ∈ s.established
      · simp [hl, repliesTo]
      · simp [hl, repliesTo]
    have hnil : repliesTo (replyWithMessage s c code message) ctx = [] :=
      repliesTo_eq_nil fun r hr => by rwa [mem_replyWithMessage hr]
    rw [hnil, nil_append]
    simp only [mem_cons, Ne.symm heq, false_or]

/-! ### One blocked GET over a run -/

/-- A blocked GET that is accounted for, with what a step needs to know of it. -/
structure Accounted (w : History H) (g : BlockedGet) : Prop where
  live : g.ctx.linkId ∈ w.server.established
  uid_lt : g.ctx.uid < w.steps
  born_le : g.born ≤ (w.creations g.key).length
  key_eq : ∀ {id c}, w.server.waiters.waitCtx id = some c → c.reqCtx = g.ctx → c.key = g.key
  watch_ne : ∀ p ∈ w.server.rankStateWaiters, p.2.reqCtx ≠ g.ctx
  once : (w.server.waiters.Waits g.ctx ∧ repliesTo w.sent g.ctx = []) ∨
    (¬ w.server.waiters.Waits g.ctx ∧
      ∃ r, repliesTo w.sent g.ctx = [r] ∧ ValidReply w.creations g r)

theorem ValidReply.mono {creations creations' : Key → List Bytes} {g : BlockedGet} {r : Reply}
    (h : ValidReply creations g r) (hle : ∀ key, creations key <+: creations' key) :
    ValidReply creations' g r := by
  rcases h with h | ⟨value, hv, h⟩
  · exact .inl h
  · exact .inr ⟨value, ((hle g.key).drop g.born).subset hv, h⟩

namespace Accounted

variable {reg : Registered H} {w : History H} {g : BlockedGet} {e : Event} {a : Answer H}

theorem ctx_ne (hg : Accounted w g) (huid : ctx.uid = w.steps) : ctx ≠ g.ctx := by
  rintro rfl
  exact hg.uid_lt.ne huid

theorem creations_grow (reg : Registered H) (w : History H) (e : Event) (a : Answer H)
    (key : Key) : w.creations key <+: (w.record reg e a).creations key :=
  prefix_append _ _

variable {ctxs : List ReqCtx} {direct : List Reply} {code : StoreErrorCode} {message : Bytes}

theorem repliesTo_takesOut (hg : Accounted w g) {ids : List ℕ}
    (h : TakesOut w.server w.steps a ids ctxs direct code message) :
    repliesTo a.replies g.ctx = if g.ctx ∈ ctxs then [⟨g.ctx, code, message⟩] else [] := by
  have hdir : repliesTo direct g.ctx = [] := by
    refine repliesTo_eq_nil fun r hr => ?_
    rcases h.direct r hr with huid | ⟨p, hp, hpr⟩
    · exact hg.ctx_ne huid
    · rw [← hpr]
      exact hg.watch_ne p hp
  rw [h.replies, repliesTo_append, hdir, nil_append, repliesTo_flatMap _ _ _ h.nodup]
  simp only [hg.live, and_true]

theorem takeOut (ht : TableInv w.server w.steps) (hg : Accounted w g) {ids : List ℕ}
    (h : TakesOut w.server w.steps a ids ctxs direct code message) :
    Accounted (w.record reg e a) g := by
  have hgrow := creations_grow reg w e a
  have hold : ∀ {i c}, a.server.waiters.waitCtx i = some c →
      i ∉ ids ∧ w.server.waiters.waitCtx i = some c := by
    intro i c hc
    rw [h.waitCtx] at hc
    split at hc
    case isTrue => cases hc
    case isFalse hi => exact ⟨hi, hc⟩
  refine ⟨h.established hg.live, Nat.lt_succ_of_lt hg.uid_lt,
    le_trans hg.born_le (hgrow _).length_le, fun hc => hg.key_eq (hold hc).2, fun p hp => ?_, ?_⟩
  · rcases h.watchers p hp with hp | huid
    · exact hg.watch_ne p hp
    · exact hg.ctx_ne huid
  show (a.server.waiters.Waits g.ctx ∧ repliesTo (w.sent ++ a.replies) g.ctx = []) ∨
    (¬ a.server.waiters.Waits g.ctx ∧ ∃ r, repliesTo (w.sent ++ a.replies) g.ctx = [r] ∧ _)
  rw [repliesTo_append, hg.repliesTo_takesOut h]
  rcases hg.once with ⟨⟨id, c, hc, hcg⟩, hnone⟩ | ⟨hnot, r, hr, hv⟩
  · -- no other waiter has the context of the GET
    have hunique : ∀ {i c'}, w.server.waiters.waitCtx i = some c' → c'.reqCtx = g.ctx → i = id :=
      fun hc' hcg' => ht.inj hc' hc (hcg'.trans hcg.symm)
    rw [hnone, nil_append]
    by_cases hid : id ∈ ids
    · -- The GET is taken out now, and this step's reply is its only one.
      right
      rw [if_pos ((h.mem_ctxs g.ctx).mpr ⟨id, hid, c, hc, hcg⟩)]
      refine ⟨?_, _, rfl, ?_⟩
      · rintro ⟨i, c', hc', hcg'⟩
        exact (hold hc').1 (hunique (hold hc').2 hcg' ▸ hid)
      rcases h.valid id hid c hc with ⟨rfl, rfl⟩ | ⟨value, hvalue, rfl, rfl⟩
      · exact .inl rfl
      refine .inr ⟨value, ?_, rfl⟩
      rw [hg.key_eq hc hcg] at hvalue
      show value ∈ (w.creations g.key ++ created _ _ g.key).drop g.born
      rw [drop_append_of_le_length hg.born_le]
      exact mem_append_right _ hvalue
    left
    have hnot : g.ctx ∉ ctxs := by
      rw [h.mem_ctxs]
      rintro ⟨i, hi, c', hc', hcg'⟩
      exact hid (hunique hc' hcg' ▸ hi)
    rw [if_neg hnot]
    refine ⟨⟨id, c, ?_, hcg⟩, rfl⟩
    rw [h.waitCtx, if_neg hid]
    exact hc
  right
  have hnot' : g.ctx ∉ ctxs := by
    rw [h.mem_ctxs]
    rintro ⟨i, -, c, hc, hcg⟩
    exact hnot ⟨i, c, hc, hcg⟩
  rw [if_neg hnot', append_nil]
  refine ⟨?_, r, hr, hv.mono hgrow⟩
  rintro ⟨i, c, hc, hcg⟩
  exact hnot ⟨i, c, (hold hc).2, hcg⟩

theorem quiet (hg : Accounted w g) (hest : g.ctx.linkId ∈ a.server.established)
    (hwatch : ∀ p ∈ a.server.rankStateWaiters, p ∈ w.server.rankStateWaiters)
    (hwait : ∀ i c, c.reqCtx = g.ctx →
      (a.server.waiters.waitCtx i = some c ↔ w.server.waiters.waitCtx i = some c))
    (hreply : a.replies = []) : Accounted (w.record reg e a) g := by
  have hgrow := creations_grow reg w e a
  have hwaits : a.server.waiters.Waits g.ctx ↔ w.server.waiters.Waits g.ctx := by
    constructor
    · rintro ⟨i, c, h, hc⟩
      exact ⟨i, c, (hwait i c hc).mp h, hc⟩
    · rintro ⟨i, c, h, hc⟩
      exact ⟨i, c, (hwait i c hc).mpr h, hc⟩
  refine ⟨hest, Nat.lt_succ_of_lt hg.uid_lt, le_trans hg.born_le (hgrow _).length_le,
    fun h hc => hg.key_eq ((hwait _ _ hc).mp h) hc, fun p hp => hg.watch_ne p (hwatch p hp), ?_⟩
  show (a.server.waiters.Waits g.ctx ∧ repliesTo (w.sent ++ a.replies) g.ctx = []) ∨
    (¬ a.server.waiters.Waits g.ctx ∧ ∃ r, repliesTo (w.sent ++ a.replies) g.ctx = [r] ∧ _)
  rw [hwaits, hreply, append_nil]
  exact hg.once.imp_right fun ⟨hnot, r, hr, hv⟩ => ⟨hnot, r, hr, hv.mono hgrow⟩

theorem register (hg : Accounted w g) {userDef now : ℤ} (ht : TableInv w.server w.steps)
    (huid : ctx.uid = w.steps)
    (hw : a.server.waiters = w.server.waiters.addWaiter ctx key userDef now)
    (hest : a.server.established = w.server.established)
    (hwatch : a.server.rankStateWaiters = w.server.rankStateWaiters) (hreply : a.replies = []) :
    Accounted (w.record reg e a) g := by
  refine hg.quiet (hest ▸ hg.live) (fun p hp => hwatch ▸ hp) (fun i c hc => ?_) hreply
  rw [hw]
  constructor
  · intro h
    rcases waitCtx_of_addWaiter h with ⟨-, -, hctx⟩ | ⟨-, h⟩
    · exact absurd (hctx.symm.trans hc) (hg.ctx_ne huid)
    · exact h
  · intro h
    rw [addWaiter_waitCtx, if_neg (ht.id_lt h).ne]
    exact h

theorem step (ht : TableInv w.server w.steps) (hg : Accounted w g)
    (hs : WaiterStep w.server w.steps a) : Accounted (w.record reg e a) g := by
  cases hs with
  | takeOut ids ctxs direct code message h => exact hg.takeOut ht h
  | register ctx key userDef now huid hw hest hwatch hreply =>
    exact hg.register ht huid hw hest hwatch hreply

end Accounted

/-! ### Whole runs -/

structure HistoryInv (w : History H) : Prop where
  tables : TableInv w.server w.steps
  sent_lt : ∀ r ∈ w.sent, r.ctx.uid < w.steps
  accounted : ∀ g ∈ w.blocked, Accounted w g

namespace HistoryInv

variable {reg : Registered H} {w : History H}

variable {a : Answer H} {e : Event}

section

variable (hi : HistoryInv w)
include hi

theorem sent_lt_step (hs : WaiterStep w.server w.steps a) :
    ∀ r ∈ w.sent ++ a.replies, r.ctx.uid < w.steps + 1 := by
  intro r hr
  rcases mem_append.mp hr with hr | hr
  · exact Nat.lt_succ_of_lt (hi.sent_lt r hr)
  cases hs with
  | takeOut ids ctxs direct code message h =>
    rw [h.replies] at hr
    rcases mem_append.mp hr with hr | hr
    · rcases h.direct r hr with huid | ⟨p, hp, hpr⟩
      · omega
      · rw [← hpr]
        exact Nat.lt_succ_of_lt (hi.tables.watch_lt hp)
    obtain ⟨ctx, hctx, hr⟩ := mem_flatMap.mp hr
    obtain ⟨id, -, c, hc, hcc⟩ := (h.mem_ctxs ctx).mp hctx
    rw [mem_replyWithMessage hr, ← hcc]
    exact Nat.lt_succ_of_lt (hi.tables.uid_lt hc)
  | register _ _ _ _ _ _ _ _ hreply =>
    rw [hreply] at hr
    cases hr

theorem registered {g : BlockedGet} (hs : WaiterStep w.server w.steps a)
    (hg : g ∈ registration w.server a.server (w.record reg e a).creations) :
    Accounted (w.record reg e a) g := by
  have hfree : w.server.waiters.waitCtx w.server.waiters.idGen = none := by
    rw [eq_none_iff_forall_ne_some]
    intro c hc
    exact lt_irrefl _ (hi.tables.id_lt hc)
  cases hs with
  | takeOut ids _ _ _ _ h =>
    rw [registration, h.waitCtx, hfree, ite_self] at hg
    cases hg
  | register ctx key userDef now huid hw hest hwatch hreply =>
    rw [registration, hw, addWaiter_waitCtx, if_pos rfl] at hg
    simp only at hg
    split at hg
    on_goal 2 => cases hg
    rename_i hlink
    rw [mem_singleton.mp hg]
    have hwaits : a.server.waiters.waitCtx w.server.waiters.idGen =
        some ⟨w.server.waiters.idGen, now + userDef, key, ctx⟩ := by
      rw [hw, addWaiter_waitCtx, if_pos rfl]
    refine ⟨hlink, ?_, le_rfl, fun {id c} h hc => ?_, fun p hp heq => ?_,
      .inl ⟨⟨_, _, hwaits, rfl⟩, ?_⟩⟩
    · show ctx.uid < w.steps + 1
      omega
    · -- Every older waiter has an older context.
      have ht := hi.tables.addWaiter huid hw hwatch
      have hid := ht.inj h hwaits hc
      have h' : a.server.waiters.waitCtx id = some c := h
      rw [hid, hwaits] at h'
      rw [← some_inj.mp h']
    · exact hi.tables.watch_reqCtx_ne huid (hwatch ▸ hp) heq
    show repliesTo (w.sent ++ a.replies) ctx = []
    rw [hreply, append_nil]
    refine repliesTo_eq_nil fun r hr heq => ?_
    have hlt := hi.sent_lt r hr
    rw [heq, huid] at hlt
    exact lt_irrefl _ hlt

theorem step (ht : TableInv a.server (w.steps + 1))
    (hs : WaiterStep w.server w.steps a) (he : survivors reg a.server w.blocked e = w.blocked) :
    HistoryInv (w.record reg e a) where
  tables := ht
  sent_lt := hi.sent_lt_step hs
  accounted g hg := by
    rcases mem_append.mp hg with hg | hg
    · rw [he] at hg
      exact (hi.accounted g hg).step hi.tables hs
    · exact hi.registered hs hg

theorem broken {linkId : ℕ} {s' : Server H} (h : linkBrokenHandler reg
      { w.server with established := w.server.established.erase linkId } linkId = some s') :
    HistoryInv (w.record reg (.broken linkId) ⟨smOk, s', []⟩) := by
  obtain ⟨hest, hwatch, hwaiters⟩ := linkBroken_tables h
  have ht : TableInv s' (w.steps + 1) := hi.tables.broken h
  refine ⟨ht, fun r hr => ?_, fun g hg => ?_⟩
  · have hr' : r ∈ w.sent := by simpa [History.record] using hr
    exact Nat.lt_succ_of_lt (hi.sent_lt r hr')
  rcases mem_append.mp hg with hg | hg
  · rw [survivors] at hg
    split at hg
    · cases hg
    rename_i hnot
    rw [if_neg hnot] at hwaiters
    have hw : s'.waiters = w.server.waiters := hwaiters
    have hne : g.ctx.linkId ≠ linkId := by simpa using (mem_filter.mp hg).2
    have hacc := hi.accounted g (mem_filter.mp hg).1
    have hlive : g.ctx.linkId ∈ s'.established := by
      rw [hest]
      exact Finset.mem_erase.mpr ⟨hne, hacc.live⟩
    exact hacc.quiet hlive hwatch (fun i c _ => by rw [hw]) rfl
  -- The tables hold no new waiter.
  have hfree : s'.waiters.waitCtx w.server.waiters.idGen = none := by
    rw [eq_none_iff_forall_ne_some]
    intro c hc
    split at hwaiters
    · rw [hwaiters] at hc
      exact absurd hc (by simp [clear])
    · rw [hwaiters] at hc
      exact lt_irrefl _ (hi.tables.id_lt hc)
  have hg' : g ∈ registration w.server s' _ := hg
  rw [registration, hfree] at hg'
  cases hg'

theorem handle (hfresh : e.Fresh w.steps) (hsafe : AppendSafe reg w e)
    (h : w.server.handle reg e = some a) : HistoryInv (w.record reg e a) := by
  have ht : TableInv a.server (w.steps + 1) := hi.tables.handle hfresh h
  cases handle_cases h with
  | connect linkId rankReq _ => exact hi.step ht (.ofConnect linkId rankReq) rfl
  | broken linkId s' hs' => exact hi.broken hs'
  | undecoded =>
    refine hi.step ht (.idle (fun _ => rfl) subset_rfl (fun p hp => .inl hp) fun r hr => ?_) rfl
    rw [mem_replyWithMessage hr]
    exact .inl hfresh
  | request ctx body now m _ hm hreq =>
    exact hi.step ht (.ofRequest hi.tables hfresh (fun key value => hsafe m key value hm)
      (requestHandler_exit hreq).effect) rfl
  | timer now order => exact hi.step ht (.ofTimer hi.tables now order) rfl
  | rankState => exact hi.step ht .ofRankState rfl
  | checker now => exact hi.step ht (.ofChecker now) rfl

end

end HistoryInv

/-- Every registered GET waits and was sent nothing, or does not wait and was sent one reply, a
value that created its key or a timeout; for runs in which no APPEND whose registered handler fails
creates a key that is being waited for. -/
theorem answeredOnce_of_appendSafe (reg : Registered H) (worldSize : ℕ) (h : H) {w : History H}
    (hw : (historySystem reg worldSize h).ReachableBy (AppendSafe reg) w) : AnsweredOnce w := by
  have hinv : HistoryInv w := by
    refine TransitionSystem.ReachableBy.invariant ?_ ?_ hw
    · exact ⟨TableInv.init worldSize h, fun r hr => absurd hr not_mem_nil, nofun⟩
    intro w w' e hi hsafe hn
    obtain ⟨hfresh, a, ha, rfl⟩ := historySystem_next hn
    exact hi.handle hfresh hsafe ha
  exact fun g hg => (hinv.accounted g hg).once

/-- A GET that is answered by a SET: the run has one blocked GET, and the theorem
applies to it. -/
theorem answeredOnce_after_set :
    ∃ w, (historySystem (refusing .append) 2 ()).run (historySystem (refusing .append) 2 ()).start
        [.connect 1 uint32Max, .connect 2 uint32Max, requestOf 2 1 (.get [107] 5000) 0,
          requestOf 3 2 (.set [107] [7]) 1] = some w ∧
      w.blocked.length = 1 ∧ AnsweredOnce w := by
  refine TransitionSystem.exists_run (fun w => w.blocked.length) 1 ?_ fun w hw hlen => ?_
  · decide +kernel
  refine ⟨hlen, answeredOnce_of_appendSafe _ 2 () (.run .start ?_ hw)⟩
  intro e he w
  simp only [mem_cons, not_mem_nil, or_false] at he
  rcases he with rfl | rfl | rfl | rfl
  · trivial
  · trivial
  · intro m key value hm hmt
    have hget : (decoded (some (pack (StoreOp.get [107] 5000).message))).map SmemMessage.mt =
      some .get := by decide +kernel
    rw [hm, map_some, hmt] at hget
    cases hget
  intro m key value hm hmt
  have hset : (decoded (some (pack (StoreOp.set [107] [7]).message))).map SmemMessage.mt =
    some .set := by decide +kernel
  rw [hm, map_some, hmt] at hset
  cases hset

/-- The handler of an APPEND fails: the GET is neither waiting nor answered. -/
theorem failed_append_drops_waiter :
    ∃ w, (historySystem (refusing .append) 2 ()).run (historySystem (refusing .append) 2 ()).start
        [.connect 1 uint32Max, .connect 2 uint32Max, requestOf 2 1 (.get [107] 5000) 0,
          requestOf 3 2 (.append [107] [7]) 1] = some w ∧
      ¬ AnsweredOnce w := by
  refine TransitionSystem.exists_run (fun w => (w.blocked.map (·.ctx), repliesTo w.sent ⟨2, 1, 0⟩,
    w.server.waiters.idGen, w.server.waiters.waitCtx 0, w.server.waiters.waitCtx 1)) ([⟨2, 1, 0⟩],
    [], 2, none, none) ?_ fun w hw hval => ?_
  · decide +kernel
  simp only [Prod.mk.injEq] at hval
  obtain ⟨hblocked, hnone, hgen, hw0, hw1⟩ := hval
  refine fun honce => ?_
  obtain ⟨g, hg, hgctx⟩ := mem_map.mp (hblocked ▸ mem_singleton_self _)
  have hg' := honce g hg
  rw [hgctx, hnone] at hg'
  rcases hg' with ⟨⟨id, c, hc, -⟩, -⟩ | ⟨-, r, hr, -⟩
  · -- Ids are below the counter, and neither of the two is in the table.
    have ht := tableInv_of_reachable _ 2 () (TransitionSystem.reachable_of_run hw)
    have hid := ht.id_lt hc
    rw [hgen] at hid
    obtain rfl | rfl : id = 0 ∨ id = 1 := by omega
    · rw [hw0] at hc
      cases hc
    · rw [hw1] at hc
      cases hc
  · cases hr

end ConfigStore
