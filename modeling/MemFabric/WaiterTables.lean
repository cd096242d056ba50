/-
The three tables of waiters.

A GET that waits is entered in `waitCtx_` under its id, in `keyWaiters_` under its key and, if it
has a deadline, in `timedWaiters_`.  `TablesConsistent` says that the three agree and that
whoever waits has a link.
-/
import MemFabric.StoreTimer

namespace ConfigStore

open Waiters Option

variable {H : Type}

def Waiters.KeyAt (t : Waiters) (key : Key) (id : ℕ) : Prop := id ∈ (t.keyWaiters key).getD []

def Waiters.blockedGets (t : Waiters) : Finset ℕ :=
  (Finset.range t.idGen).filter fun id => (t.waitCtx id).isSome

/-- What is listed is registered with the same key and deadline; what is registered is
listed under its key and has one of the links. -/
structure TablesConsistent (t : Waiters) (links : Finset ℕ) : Prop where
  keyListed : ∀ {key id}, t.KeyAt key id → ∃ w, t.waitCtx id = some w ∧ w.key = key
  timedListed : ∀ {d id}, t.TimedAt d id → ∃ w, t.waitCtx id = some w ∧ w.timeoutMs = d
  registered : ∀ {id w}, t.waitCtx id = some w → t.KeyAt w.key id
  connected : ∀ {id w}, t.waitCtx id = some w → w.reqCtx.linkId ∈ links

/-- However many entries are picked from one of the two tables, there are as many
blocked GETs. -/
def TablesBounded (t : Waiters) : Prop :=
  (∀ entries : Finset (Key × ℕ), (∀ p ∈ entries, t.KeyAt p.1 p.2) →
      entries.card ≤ t.blockedGets.card) ∧
    ∀ entries : Finset (ℤ × ℕ), (∀ p ∈ entries, t.TimedAt p.1 p.2) →
      entries.card ≤ t.blockedGets.card

/-- Steps that leave no entry behind: requests come over links that are there, a pass of
the timer finds nobody who is due, and a link that breaks has nobody who waits over it. -/
def Settled (s : Server H) : Event → Prop
  | .request ctx _ _ => ctx.linkId ∈ s.established
  | .timer now order => passIds now order = []
  | .broken linkId => ∀ id ∈ s.waiters.blockedGets, ∀ w ∈ s.waiters.waitCtx id,
      w.reqCtx.linkId ≠ linkId
  | .connect _ _ | .rankState | .checker _ => True

instance (s : Server H) : (e : Event) → Decidable (Settled s e)
  | .request ctx _ _ => inferInstanceAs (Decidable (ctx.linkId ∈ s.established))
  | .timer now order => inferInstanceAs (Decidable (passIds now order = []))
  | .broken _ => inferInstanceAs (Decidable (∀ _ ∈ s.waiters.blockedGets, _))
  | .connect _ _ | .rankState | .checker _ => inferInstanceAs (Decidable True)

theorem Waiters.TimedTable.mem_blockedGets {t : Waiters} (ht : t.TimedTable) {id : ℕ}
    {w : StoreWaitContext} (h : t.waitCtx id = some w) : id ∈ t.blockedGets :=
  Finset.mem_filter.mpr ⟨Finset.mem_range.mpr (ht.fresh h), by rw [h]; rfl⟩

/-! ### What a step does to the links -/

def Event.linksAfter (links : Finset ℕ) : Event → Finset ℕ
  | .connect linkId _ => insert linkId links
  | .broken linkId => links.erase linkId
  | _ => links

theorem handle_established {reg : Registered H} {s : Server H} {e : Event} {a : Answer H}
    (h : s.handle reg e = some a) : a.server.established = e.linksAfter s.established := by
  cases handle_cases h with
  | connect linkId rankReq _ =>
    simp only [linkConnectedHandler]
    split
    · rfl
    · rfl
  | broken linkId s' hs' => exact (linkBroken_tables hs').1
  | undecoded => rfl
  | request ctx body now m _ _ hreq => cases (requestHandler_exit hreq).effect <;> rfl
  | timer now order => rfl
  | rankState =>
    rw [rankStateTask_server]
    rfl
  | checker now =>
    obtain ⟨b, h', beats, heq, -⟩ := checkerTask_frame reg s now
    rw [heq]
    rfl

/-! ### The tables -/

namespace TablesConsistent

variable {t : Waiters} {links : Finset ℕ}

theorem clear (idGen : ℕ) (links : Finset ℕ) : TablesConsistent (Waiters.clear idGen) links where
  keyListed := nofun
  timedListed h := (Waiters.TimedTable.clear idGen).registered h
  registered h := nomatch h
  connected h := nomatch h

theorem keyAt_takeKey {key k : Key} {id : ℕ} :
    (t.takeKeyWaiters key).1.KeyAt k id ↔ t.KeyAt k id ∧ k ≠ key := by
  rw [Waiters.KeyAt, takeKeyWaiters_keyWaiters]
  by_cases hne : k = key
  · simp [hne]
  · rw [Function.update_of_ne hne, and_iff_left hne, Waiters.KeyAt]

section

variable (h : TablesConsistent t links) (ht : t.TimedTable)
include h ht

theorem takeKey (key : Key) : TablesConsistent (t.takeKeyWaiters key).1 links where
  keyListed {k id} hat := by
    obtain ⟨hat, hne⟩ := keyAt_takeKey.mp hat
    obtain ⟨w, hw, rfl⟩ := h.keyListed hat
    -- An id of another key is none of those that are taken out.
    have hnot : id ∉ (t.keyWaiters key).getD [] := by
      intro hid
      obtain ⟨w', hw', hk⟩ := h.keyListed hid
      rw [hw, some_inj] at hw'
      exact hne (hw' ▸ hk)
    exact ⟨w, by rw [takeKeyWaiters_waitCtx, if_neg hnot, hw], rfl⟩
  timedListed hat := (ht.takeKey key).1.registered hat
  registered {id w} hw := by
    rw [takeKeyWaiters_waitCtx] at hw
    obtain ⟨hnot, hold⟩ := ite_none_left_eq_some.mp hw
    refine keyAt_takeKey.mpr ⟨h.registered hold, ?_⟩
    rintro rfl
    exact hnot (h.registered hold)
  connected hw := h.connected (waitCtx_of_takeKeyWaiters hw)

omit h ht in
theorem keyAt_addWaiter {ctx : ReqCtx} {key k : Key} {userDef now : ℤ} {id : ℕ} :
    (t.addWaiter ctx key userDef now).KeyAt k id ↔ t.KeyAt k id ∨ (k = key ∧ id = t.idGen) := by
  rw [Waiters.KeyAt, addWaiter_keyWaiters]
  by_cases hk : k = key
  · subst hk
    simp [Waiters.KeyAt]
  · rw [if_neg hk, or_iff_left fun h => hk h.1, Waiters.KeyAt]

theorem add {ctx : ReqCtx} (hctx : ctx.linkId ∈ links) (key : Key) (userDef now : ℤ) :
    TablesConsistent (t.addWaiter ctx key userDef now) links where
  keyListed {k id} hat := by
    rw [addWaiter_waitCtx]
    rcases keyAt_addWaiter.mp hat with hat | ⟨rfl, rfl⟩
    · obtain ⟨w, hw, hk⟩ := h.keyListed hat
      rw [if_neg (ht.fresh hw).ne]
      exact ⟨w, hw, hk⟩
    · rw [if_pos rfl]
      exact ⟨_, rfl, rfl⟩
  timedListed hat := (ht.add ctx key userDef now).registered hat
  registered {id w} hw := by
    rw [keyAt_addWaiter]
    rcases waitCtx_of_addWaiter hw with ⟨hid, hk, -⟩ | ⟨-, hw⟩
    · exact .inr ⟨hk, hid⟩
    · exact .inl (h.registered hw)
  connected {id w} hw := by
    rcases waitCtx_of_addWaiter hw with ⟨-, -, hreq⟩ | ⟨-, hw⟩
    · rw [hreq]
      exact hctx
    · exact h.connected hw

omit h in
theorem card_le {α : Type} {entries : Finset (α × ℕ)} (f : StoreWaitContext → α)
    (hf : ∀ p ∈ entries, ∃ w, t.waitCtx p.2 = some w ∧ f w = p.1) :
    entries.card ≤ t.blockedGets.card := by
  refine Finset.card_le_card_of_injOn Prod.snd (fun p hp => ?_) fun p hp q hq heq => ?_
  · obtain ⟨w, hw, -⟩ := hf p hp
    exact ht.mem_blockedGets hw
  obtain ⟨w, hw, hfst⟩ := hf p hp
  obtain ⟨w', hw', hfst'⟩ := hf q hq
  rw [← heq, hw, some_inj] at hw'
  exact Prod.ext (by rw [← hfst, ← hfst', hw']) heq

theorem bounded : TablesBounded t :=
  ⟨fun _ hents => card_le ht StoreWaitContext.key fun p hp => h.keyListed (hents p hp),
    fun _ hents => card_le ht StoreWaitContext.timeoutMs fun p hp =>
      h.timedListed (hents p hp)⟩

end

section

variable {s : Server H} {e : Event} {reg : Registered H} {a : Answer H}
  (h : TablesConsistent s.waiters s.established) (ht : s.waiters.TimedTable)
include h ht

theorem idlePass {now : ℤ} {order : List (ℤ × List ℕ)}
    (hperm : order.Perm s.waiters.timedWaiters) (hidle : passIds now order = []) :
    TablesConsistent (timerPass s now order).server.waiters s.established := by
  have hwait : (timerPass s now order).server.waiters.waitCtx = s.waiters.waitCtx := by
    funext id
    rw [timerPass_waitCtx, hidle, if_neg List.not_mem_nil]
  have hat : (timerPass s now order).server.waiters.KeyAt = s.waiters.KeyAt := by
    funext key id
    exact congrArg (fun ids : Key → Option (List ℕ) => id ∈ (ids key).getD [])
      (getOutWaitersInLock_frame ..).1
  refine ⟨?_, fun h' => (ht.change (.timed now order hperm)).registered h', ?_, ?_⟩
  · rw [hwait, hat]
    exact h.keyListed
  · rw [hwait, hat]
    exact h.registered
  · rw [hwait]
    exact h.connected

theorem change (he : Settled s e) (hchange : WaiterChange s e t) :
    TablesConsistent t s.established := by
  cases hchange with
  | same => exact h
  | taken _ _ _ key => exact h.takeKey ht key
  | added ctx _ _ key userDef clock => exact h.add ht he key userDef clock
  | drawn => exact { h with }
  | timed now order hperm => exact h.idlePass ht hperm he
  | cleared => exact .clear _ _

theorem handle (he : Settled s e) (hhandle : s.handle reg e = some a) :
    TablesConsistent a.server.waiters a.server.established := by
  have hchange := handle_waiterChange hhandle
  have hnew := h.change ht he hchange
  refine { hnew with connected := fun {id w} hw => ?_ }
  have hold := hnew.connected hw
  rw [handle_established hhandle]
  cases e with
  | connect linkId rankReq => exact Finset.mem_insert_of_mem hold
  | broken linkId =>
    -- Whoever still waits waited before, over another link.
    refine Finset.mem_erase.mpr ⟨?_, hold⟩
    generalize a.server.waiters = t at hchange hw
    cases hchange with
    | same => exact he id (ht.mem_blockedGets hw) w hw
    | cleared => nomatch hw
  | request ctx body now | timer now order | rankState | checker now => exact hold

end

end TablesConsistent

/-- The tables agree in every run in which no GET times out and no link breaks while a GET waits
over it. -/
theorem tablesConsistent_of_settled (reg : Registered H) (worldSize : ℕ) (h : H) (s : Server H)
    (hs : (storeSystem reg worldSize h).ReachableBy Settled s) :
    TablesConsistent s.waiters s.established ∧ TablesBounded s.waiters := by
  have hboth : TablesConsistent s.waiters s.established ∧ s.waiters.TimedTable := by
    refine TransitionSystem.ReachableBy.invariant
      (I := fun s => TablesConsistent s.waiters s.established ∧ s.waiters.TimedTable) ?_ ?_ hs
    · exact ⟨.clear _ _, .clear _⟩
    rintro s s' e ⟨hi, ht⟩ he hn
    obtain ⟨a, ha, rfl⟩ := map_eq_some_iff.mp hn
    exact ⟨hi.handle ht he ha, ht.change (handle_waiterChange ha)⟩
  exact ⟨hboth.1, hboth.1.bounded hboth.2⟩

/-- Two GETs wait and the SET of one of the keys wakes its waiter: the other one is left. -/
theorem tablesConsistent_one_woken :
    ∃ s, (storeSystem (noHandlers Unit) 2 ()).ReachableBy Settled s ∧
      s.waiters.blockedGets = {2} ∧ TablesConsistent s.waiters s.established ∧
      TablesBounded s.waiters := by
  refine TransitionSystem.exists_reachableBy [.connect 1 (2 * 2 ^ 32), requestOf 0 1 (.get [107] 5)
    0, requestOf 1 1 (.get [108] 10) 0, requestOf 2 1 (.set [107] [7]) 1] (fun s =>
    s.waiters.blockedGets) {2} ?_ fun s hreach hval => ?_
  · decide +kernel
  exact ⟨hval, tablesConsistent_of_settled _ _ _ s hreach⟩

/-- A GET that times out stays in `keyWaiters_`, and a GET whose link breaks stays in all tables. -/
theorem timeout_and_break_leave_entries :
    (∃ s, (storeSystem (noHandlers Unit) 2 ()).run (Server.init 2 ()) [.connect 1 (2 * 2 ^ 32),
        requestOf 0 1 (.get [107] 5) 0, .timer 7 [(5, [1])]] = some s ∧
      s.waiters.KeyAt [107] 1 ∧ s.waiters.waitCtx 1 = none ∧
      ¬ TablesConsistent s.waiters s.established) ∧
    ∃ s, (storeSystem (noHandlers Unit) 2 ()).run (Server.init 2 ()) [.connect 1 (2 * 2 ^ 32),
        .connect 2 (2 * 2 ^ 32 + 1), requestOf 0 1 (.get [107] (-1)) 0, .broken 1] = some s ∧
      (∃ w, s.waiters.waitCtx 1 = some w ∧ w.reqCtx.linkId ∉ s.established) ∧
      ¬ TablesConsistent s.waiters s.established := by
  constructor
  · refine TransitionSystem.exists_run
      (fun s => (s.waiters.keyWaiters [107], (s.waiters.waitCtx 1).isNone)) (some [1], true) ?_
      fun s _ hval => ?_
    · decide +kernel
    obtain ⟨hkey, hnone⟩ := Prod.mk.inj hval
    have hat : s.waiters.KeyAt [107] 1 := by
      rw [Waiters.KeyAt, hkey]
      exact List.mem_cons_self
    have hgone : s.waiters.waitCtx 1 = none := isNone_iff_eq_none.mp hnone
    refine ⟨hat, hgone, fun h => ?_⟩
    obtain ⟨w, hw, -⟩ := h.keyListed hat
    rw [hgone] at hw
    cases hw
  refine TransitionSystem.exists_run
    (fun s => (s.waiters.waitCtx 1).map fun w => decide (w.reqCtx.linkId ∈ s.established))
    (some false) ?_ fun s _ hval => ?_
  · decide +kernel
  obtain ⟨w, hw, hlink⟩ := map_eq_some_iff.mp hval
  have hnot : w.reqCtx.linkId ∉ s.established := of_decide_eq_false hlink
  exact ⟨⟨w, hw, hnot⟩, fun h => hnot (h.connected hw)⟩

end ConfigStore
