/-
The timer of the configuration store server.

`TimerThreadTask` erases buckets of `timedWaiters_` from the front of the container's iteration
order, which is any, stops at the first one that is not due, and answers TIMEOUT to the waiters
of the erased ones.
-/
import MemFabric.StoreHistory

namespace ConfigStore

open List Option

variable {H : Type}

/-! ### Lists cut at the first entry that fails -/

section Cut

variable {α : Type} {p : α → Bool} {l : List α}

theorem mem_takeWhile_of_pairwise (hmono : l.Pairwise fun a b => p b = true → p a = true) {a : α}
    (ha : a ∈ l) (hp : p a = true) : a ∈ l.takeWhile p := by
  induction l with
  | nil => nomatch ha
  | cons b l ih =>
    obtain ⟨hhead, htail⟩ := pairwise_cons.mp hmono
    rcases mem_cons.mp ha with rfl | ha
    · rw [takeWhile_cons_of_pos hp]
      exact mem_cons_self
    · rw [takeWhile_cons_of_pos (hhead a ha hp)]
      exact mem_cons_of_mem b (ih htail ha)

theorem pairwise_of_mem_takeWhile (hnodup : l.Nodup) (h : ∀ a ∈ l, p a = true → a ∈ l.takeWhile p) :
    l.Pairwise fun a b => p b = true → p a = true := by
  induction l with
  | nil => exact List.Pairwise.nil
  | cons b l ih =>
    obtain ⟨hnot, hnodup⟩ := nodup_cons.mp hnodup
    by_cases hb : p b = true
    · refine pairwise_cons.mpr ⟨fun _ _ _ => hb, ih hnodup fun a ha hp => ?_⟩
      have htaken := h a (mem_cons_of_mem b ha) hp
      rw [takeWhile_cons_of_pos hb] at htaken
      refine (mem_cons.mp htaken).resolve_left ?_
      rintro rfl
      exact hnot ha
    have hnone : ∀ a ∈ b :: l, p a ≠ true := by
      intro a ha hp
      have htaken := h a ha hp
      rw [takeWhile_cons_of_neg hb] at htaken
      exact not_mem_nil htaken
    exact pairwise_of_forall_mem_list fun a _ c hc hp => absurd hp (hnone c hc)

end Cut

/-! ### The table of timed waiters -/

variable {d : ℤ} {id : ℕ} {t : Waiters}

namespace Waiters

def TimedAt (t : Waiters) (deadline : ℤ) (id : ℕ) : Prop :=
  ∃ ids, (deadline, ids) ∈ t.timedWaiters ∧ id ∈ ids

/-- `timedWaiters_` is a table of sets, none of them empty, of waiters that are in
`waitCtx_` with the deadline they are listed under. -/
structure TimedTable (t : Waiters) : Prop where
  own : ∀ {id w}, t.waitCtx id = some w → w.id = id
  fresh : ∀ {id w}, t.waitCtx id = some w → id < t.idGen
  keys : (t.timedWaiters.map Prod.fst).Nodup
  buckets : ∀ {d ids}, (d, ids) ∈ t.timedWaiters → ids ≠ [] ∧ ids.Nodup
  registered : ∀ {d id}, t.TimedAt d id → ∃ w, t.waitCtx id = some w ∧ w.timeoutMs = d

variable {timed : List (ℤ × List ℕ)}

theorem mem_eraseTimed {b : ℤ × List ℕ} :
    b ∈ eraseTimed timed d id ↔ (b ∈ timed ∧ b.1 ≠ d) ∨
      ∃ ids, (d, ids) ∈ timed ∧ ids.erase id ≠ [] ∧ b = (d, ids.erase id) := by
  rw [eraseTimed, mem_filterMap]
  constructor
  · rintro ⟨⟨d', ids⟩, hmem, h⟩
    split at h
    · rename_i heq
      obtain ⟨hne, h⟩ := ite_none_left_eq_some.mp h
      refine .inr ⟨ids, heq ▸ hmem, hne, ?_⟩
      rw [← some_inj.mp h, heq]
    · rename_i hne
      rw [← some_inj.mp h]
      exact .inl ⟨hmem, hne⟩
  · rintro (⟨hmem, hne⟩ | ⟨ids, hmem, hne, rfl⟩)
    · exact ⟨b, hmem, by rw [if_neg hne]⟩
    · exact ⟨(d, ids), hmem, by rw [if_pos rfl, if_neg hne]⟩

theorem map_fst_eraseTimed (timed : List (ℤ × List ℕ)) (d : ℤ) (id : ℕ) :
    ((eraseTimed timed d id).map Prod.fst).Sublist (timed.map Prod.fst) := by
  induction timed with
  | nil => exact List.Sublist.refl _
  | cons b timed ih =>
    rw [eraseTimed, filterMap_cons]
    split
    · exact ih.cons _
    rename_i b' hb'
    have hfst : b'.1 = b.1 := by
      split at hb'
      · obtain ⟨-, hb'⟩ := ite_none_left_eq_some.mp hb'
        rw [← some_inj.mp hb']
      · rw [some_inj.mp hb']
    rw [map_cons, map_cons, hfst]
    exact ih.cons_cons _

theorem exists_mem_eraseTimed (hnodup : ∀ {d ids}, (d, ids) ∈ timed → ids.Nodup) {d' : ℤ}
    {id' : ℕ} :
    (∃ ids, (d', ids) ∈ eraseTimed timed d id ∧ id' ∈ ids) ↔
      (∃ ids, (d', ids) ∈ timed ∧ id' ∈ ids) ∧ ¬ (d' = d ∧ id' = id) := by
  constructor
  · rintro ⟨ids, hmem, hid⟩
    rcases mem_eraseTimed.mp hmem with ⟨hmem, hne⟩ | ⟨ids', hmem', -, heq⟩
    · exact ⟨⟨ids, hmem, hid⟩, fun h => hne h.1⟩
    obtain ⟨rfl, rfl⟩ := Prod.mk.inj heq
    refine ⟨⟨ids', hmem', mem_of_mem_erase hid⟩, ?_⟩
    rintro ⟨-, rfl⟩
    exact (hnodup hmem').not_mem_erase hid
  rintro ⟨⟨ids, hmem, hid⟩, hne⟩
  by_cases hd : d' = d
  · have hid' : id' ∈ ids.erase id :=
      (mem_erase_of_ne fun heq => hne ⟨hd, heq⟩).mpr hid
    exact ⟨ids.erase id,
      mem_eraseTimed.mpr (.inr ⟨ids, hd ▸ hmem, ne_nil_of_mem hid', by rw [hd]⟩), hid'⟩
  · exact ⟨ids, mem_eraseTimed.mpr (.inl ⟨hmem, hd⟩), hid⟩

namespace TimedTable

variable {t : Waiters}

theorem clear (idGen : ℕ) : (Waiters.clear idGen).TimedTable where
  own h := nomatch h
  fresh h := nomatch h
  keys := nodup_nil
  buckets h := nomatch h
  registered h := by
    nomatch h

theorem sublist (ht : t.TimedTable) {order timed : List (ℤ × List ℕ)}
    (hperm : order.Perm t.timedWaiters) (hsub : timed.Sublist order) :
    { t with timedWaiters := timed }.TimedTable where
  own := ht.own
  fresh := ht.fresh
  keys := ((hperm.map Prod.fst).nodup_iff.mpr ht.keys).sublist (hsub.map Prod.fst)
  buckets h := ht.buckets (hperm.mem_iff.mp (hsub.mem h))
  registered h := by
    obtain ⟨ids, hmem, hid⟩ := h
    exact ht.registered ⟨ids, hperm.mem_iff.mp (hsub.mem hmem), hid⟩

theorem waitCtx_of_update {id i : ℕ} {v : StoreWaitContext}
    (h : Function.update t.waitCtx id none i = some v) : i ≠ id ∧ t.waitCtx i = some v := by
  by_cases hne : i = id
  · rw [hne, Function.update_self] at h
    cases h
  · rw [Function.update_of_ne hne] at h
    exact ⟨hne, h⟩

theorem timedAt_remove (ht : t.TimedTable) {w : StoreWaitContext} (hw : t.waitCtx id = some w)
    {i : ℕ} :
    { t with
      waitCtx := Function.update t.waitCtx id none
      timedWaiters := eraseTimed t.timedWaiters w.timeoutMs w.id }.TimedAt d i ↔
      t.TimedAt d i ∧ i ≠ id := by
  rw [TimedAt, exists_mem_eraseTimed fun h => (ht.buckets h).2, ht.own hw]
  refine and_congr_right fun hat => not_congr ⟨fun h => h.2, fun h => ⟨?_, h⟩⟩
  -- The waiter is listed under its own deadline only.
  obtain ⟨v, hv, rfl⟩ := ht.registered hat
  rw [h, hw, some_inj] at hv
  rw [hv]

theorem remove (ht : t.TimedTable) {w : StoreWaitContext} (hw : t.waitCtx id = some w) :
    { t with
      waitCtx := Function.update t.waitCtx id none
      timedWaiters := eraseTimed t.timedWaiters w.timeoutMs w.id }.TimedTable where
  own h := ht.own (waitCtx_of_update h).2
  fresh h := ht.fresh (waitCtx_of_update h).2
  keys := ht.keys.sublist (map_fst_eraseTimed _ _ _)
  buckets h := by
    rcases mem_eraseTimed.mp h with ⟨hmem, -⟩ | ⟨ids', hmem, hne, heq⟩
    · exact ht.buckets hmem
    · obtain ⟨-, rfl⟩ := Prod.mk.inj heq
      exact ⟨hne, (ht.buckets hmem).2.erase _⟩
  registered h := by
    obtain ⟨hat, hne⟩ := (ht.timedAt_remove hw).mp h
    obtain ⟨v, hv, hd⟩ := ht.registered hat
    exact ⟨v, (Function.update_of_ne hne _ _).trans hv, hd⟩

theorem getOut (ht : t.TimedTable) (ids : List ℕ) :
    (t.getOutWaitersInLock ids).1.TimedTable ∧
      ∀ {d i}, (t.getOutWaitersInLock ids).1.TimedAt d i ↔ t.TimedAt d i ∧ i ∉ ids := by
  induction ids generalizing t with
  | nil => exact ⟨ht, fun {d i} => ⟨fun h => ⟨h, not_mem_nil⟩, fun h => h.1⟩⟩
  | cons id ids ih =>
    rw [getOutWaitersInLock]
    split
    · rename_i hnone
      obtain ⟨htable, hat⟩ := ih ht
      refine ⟨htable, fun {d i} => ?_⟩
      rw [hat, mem_cons, not_or]
      refine and_congr_right fun hi => ⟨fun h => ⟨?_, h⟩, fun h => h.2⟩
      rintro rfl
      obtain ⟨w, hw, -⟩ := ht.registered hi
      rw [hnone] at hw
      cases hw
    rename_i w hw
    obtain ⟨htable, hat⟩ := ih (ht.remove hw)
    refine ⟨htable, fun {d i} => ?_⟩
    rw [hat, ht.timedAt_remove hw, mem_cons, not_or, and_assoc]

theorem takeKey (ht : t.TimedTable) (key : Key) :
    (t.takeKeyWaiters key).1.TimedTable ∧ ∀ {d i}, (t.takeKeyWaiters key).1.TimedAt d i ↔
        t.TimedAt d i ∧ i ∉ (t.keyWaiters key).getD [] := by
  rw [takeKeyWaiters]
  cases t.keyWaiters key with
  | none => exact ⟨ht, fun {d i} => ⟨fun h => ⟨h, not_mem_nil⟩, fun h => h.1⟩⟩
  | some ids =>
    obtain ⟨htable, hat⟩ := ht.getOut ids
    exact ⟨{ htable with }, hat⟩

end TimedTable

/-! ### New waiters -/

theorem mem_insertTimed {b : ℤ × List ℕ} :
    b ∈ insertTimed timed d id ↔
      (b ∈ timed ∧ b.1 ≠ d) ∨ (∃ ids, (d, ids) ∈ timed ∧ b = (d, ids ++ [id])) ∨
        ((∀ ids, (d, ids) ∉ timed) ∧ b = (d, [id])) := by
  rw [insertTimed]
  by_cases hany : ∃ ids, (d, ids) ∈ timed
  · have htrue : (timed.any fun b => b.1 = d) = true := by
      obtain ⟨ids, hmem⟩ := hany
      exact any_eq_true.mpr ⟨(d, ids), hmem, decide_eq_true rfl⟩
    have hsome : ¬ ∀ ids, (d, ids) ∉ timed := not_forall_not.mpr hany
    rw [if_pos htrue, List.mem_map]
    simp only [hsome, false_and, or_false]
    constructor
    · rintro ⟨⟨d', ids⟩, hmem, rfl⟩
      by_cases hd : d' = d
      · exact .inr ⟨ids, hd ▸ hmem, by rw [if_pos hd, hd]⟩
      refine .inl ?_
      rw [if_neg hd]
      exact ⟨hmem, hd⟩
    · rintro (⟨hmem, hne⟩ | ⟨ids, hmem, rfl⟩)
      · exact ⟨b, hmem, by rw [if_neg hne]⟩
      · exact ⟨(d, ids), hmem, by rw [if_pos rfl]⟩
  have hnone : ∀ ids, (d, ids) ∉ timed := not_exists.mp hany
  have hfalse : ¬ (timed.any fun b => b.1 = d) = true := by
    intro htrue
    obtain ⟨⟨d', ids⟩, hmem, hd⟩ := any_eq_true.mp htrue
    exact hnone ids (of_decide_eq_true hd ▸ hmem)
  rw [if_neg hfalse, mem_append, mem_singleton]
  constructor
  · rintro (hmem | rfl)
    · exact .inl ⟨hmem, fun hd => hnone b.2 (hd ▸ hmem)⟩
    · exact .inr (.inr ⟨hnone, rfl⟩)
  rintro (⟨hmem, -⟩ | ⟨ids, hmem, -⟩ | ⟨-, rfl⟩)
  · exact .inl hmem
  · exact absurd hmem (hnone ids)
  · exact .inr rfl

theorem nodup_map_fst_insertTimed (h : (timed.map Prod.fst).Nodup) (d : ℤ) (id : ℕ) :
    ((insertTimed timed d id).map Prod.fst).Nodup := by
  rw [insertTimed]
  split
  · have hfst : (timed.map fun b => if b.1 = d then (b.1, b.2 ++ [id]) else b).map Prod.fst =
        timed.map Prod.fst := by
      rw [List.map_map]
      refine map_congr_left fun b _ => ?_
      show (if b.1 = d then (b.1, b.2 ++ [id]) else b).1 = b.1
      split
      · rfl
      · rfl
    rw [hfst]
    exact h
  rename_i hfalse
  rw [map_append, map_singleton]
  refine nodup_append.mpr ⟨h, nodup_singleton _, ?_⟩
  rintro a ha b hb rfl
  obtain ⟨b', hb', rfl⟩ := mem_map.mp ha
  rw [mem_singleton] at hb
  exact hfalse (any_eq_true.mpr ⟨b', hb', decide_eq_true hb⟩)

theorem exists_mem_insertTimed {d d' : ℤ} {id id' : ℕ} :
    (∃ ids, (d', ids) ∈ insertTimed timed d id ∧ id' ∈ ids) ↔
      (∃ ids, (d', ids) ∈ timed ∧ id' ∈ ids) ∨ (d' = d ∧ id' = id) := by
  constructor
  · rintro ⟨ids, hmem, hid⟩
    rcases mem_insertTimed.mp hmem with ⟨hmem, -⟩ | ⟨ids', hmem', heq⟩ | ⟨-, heq⟩
    · exact .inl ⟨ids, hmem, hid⟩
    · obtain ⟨rfl, rfl⟩ := Prod.mk.inj heq
      rcases mem_append.mp hid with hid | hid
      · exact .inl ⟨ids', hmem', hid⟩
      · exact .inr ⟨rfl, mem_singleton.mp hid⟩
    · obtain ⟨rfl, rfl⟩ := Prod.mk.inj heq
      exact .inr ⟨rfl, mem_singleton.mp hid⟩
  rintro (⟨ids, hmem, hid⟩ | ⟨rfl, rfl⟩)
  · by_cases hd : d' = d
    · exact ⟨ids ++ [id], mem_insertTimed.mpr (.inr (.inl ⟨ids, hd ▸ hmem, by rw [hd]⟩)),
        mem_append_left _ hid⟩
    · exact ⟨ids, mem_insertTimed.mpr (.inl ⟨hmem, hd⟩), hid⟩
  by_cases hany : ∃ ids, (d', ids) ∈ timed
  · obtain ⟨ids, hmem⟩ := hany
    exact ⟨ids ++ [id'], mem_insertTimed.mpr (.inr (.inl ⟨ids, hmem, rfl⟩)),
      mem_append_right _ (mem_singleton_self _)⟩
  · exact ⟨[id'], mem_insertTimed.mpr (.inr (.inr ⟨not_exists.mp hany, rfl⟩)), mem_singleton_self _⟩

theorem timedAt_addWaiter {ctx : ReqCtx} {key : Key} {userDef now d : ℤ} {i : ℕ} :
    (t.addWaiter ctx key userDef now).TimedAt d i ↔
      t.TimedAt d i ∨ (0 < userDef ∧ d = now + userDef ∧ i = t.idGen) := by
  rw [TimedAt, addWaiter]
  by_cases htimed : userDef > 0
  · rw [if_pos htimed, exists_mem_insertTimed, and_iff_right htimed]
    rfl
  · rw [if_neg htimed]
    exact ⟨.inl, fun h => h.resolve_right fun h' => htimed h'.1⟩

theorem TimedTable.add (ht : t.TimedTable) (ctx : ReqCtx) (key : Key) (userDef now : ℤ) :
    (t.addWaiter ctx key userDef now).TimedTable where
  own {id w} h := by
    rw [addWaiter_waitCtx] at h
    split at h
    · rename_i hid
      rw [← some_inj.mp h, hid]
    · exact ht.own h
  fresh {id w} h := by
    rw [addWaiter_waitCtx] at h
    show id < t.idGen + 1
    split at h
    · omega
    · exact Nat.lt_succ_of_lt (ht.fresh h)
  keys := by
    rw [addWaiter]
    dsimp only
    split
    · exact nodup_map_fst_insertTimed ht.keys _ _
    · exact ht.keys
  buckets {d ids} h := by
    rw [addWaiter] at h
    split at h
    · rcases mem_insertTimed.mp h with ⟨hmem, -⟩ | ⟨ids', hmem, heq⟩ | ⟨-, heq⟩
      · exact ht.buckets hmem
      · obtain ⟨rfl, rfl⟩ := Prod.mk.inj heq
        -- The next id is in no bucket yet.
        have hnot : t.idGen ∉ ids' := by
          intro hid
          obtain ⟨w, hw, -⟩ := ht.registered ⟨ids', hmem, hid⟩
          exact Nat.lt_irrefl _ (ht.fresh hw)
        refine ⟨append_ne_nil_of_right_ne_nil _ (cons_ne_nil _ _), ?_⟩
        refine nodup_append.mpr ⟨(ht.buckets hmem).2, nodup_singleton _, ?_⟩
        rintro a ha b hb rfl
        exact hnot (mem_singleton.mp hb ▸ ha)
      · obtain ⟨-, rfl⟩ := Prod.mk.inj heq
        exact ⟨cons_ne_nil _ _, nodup_singleton _⟩
    · exact ht.buckets h
  registered {d id} h := by
    rw [addWaiter_waitCtx]
    rcases timedAt_addWaiter.mp h with hat | ⟨-, rfl, rfl⟩
    · obtain ⟨w, hw, hd⟩ := ht.registered hat
      rw [if_neg (ht.fresh hw).ne]
      exact ⟨w, hw, hd⟩
    · rw [if_pos rfl]
      exact ⟨_, rfl, rfl⟩

end Waiters

/-! ### What a step does to the tables of waiters -/

/-- The ways a step changes the tables of waiters. -/
inductive WaiterChange (s : Server H) : Event → Waiters → Prop
  | same (e : Event) : WaiterChange s e s.waiters
  /-- A key is created and its waiters are taken out. -/
  | taken (ctx : ReqCtx) (body : Option Bytes) (now : ℤ) (key : Key) :
      WaiterChange s (.request ctx body now) (s.waiters.takeKeyWaiters key).1
  | added (ctx : ReqCtx) (body : Option Bytes) (now : ℤ) (key : Key) (userDef clock : ℤ) :
      WaiterChange s (.request ctx body now) (s.waiters.addWaiter ctx key userDef clock)
  /-- A rank state watch draws an id. -/
  | drawn (ctx : ReqCtx) (body : Option Bytes) (now : ℤ) :
      WaiterChange s (.request ctx body now) { s.waiters with idGen := s.waiters.idGen + 1 }
  | timed (now : ℤ) (order : List (ℤ × List ℕ)) (hperm : order.Perm s.waiters.timedWaiters) :
      WaiterChange s (.timer now order) (timerPass s now order).server.waiters
  /-- The store is cleared with the last rank. -/
  | cleared (linkId : ℕ) : WaiterChange s (.broken linkId) (Waiters.clear s.waiters.idGen)

section Changes

variable {reg : Registered H} {s : Server H} {e : Event} {a : Answer H}

theorem handle_waiterChange (h : s.handle reg e = some a) :
    WaiterChange s e a.server.waiters := by
  cases handle_cases h with
  | connect linkId rankReq _ =>
    simp only [linkConnectedHandler]
    split
    · exact .same _
    · exact .same _
  | broken linkId s' hs' =>
    obtain ⟨-, -, hwait⟩ := linkBroken_tables hs'
    rw [hwait]
    split
    · exact .cleared linkId
    · exact .same _
  | undecoded => exact .same _
  | request ctx body now m _ _ hreq =>
    cases (requestHandler_exit hreq).effect with
    | kept | ranked | written => exact .same _
    | woken _ key | dropped _ key => exact .taken ctx body now key
    | registered key userDef clock => exact .added ctx body now key userDef clock
    | watched => exact .drawn ctx body now
  | timer now order =>
    exact .timed now order (ite_none_right_eq_some.mp h).1
  | rankState =>
    rw [rankStateTask_server]
    exact .same _
  | checker now =>
    obtain ⟨b, h', beats, heq, -⟩ := checkerTask_frame reg s now
    rw [heq]
    exact .same _

end Changes

namespace Waiters.TimedTable

variable {reg : Registered H} {s : Server H}

theorem change (ht : s.waiters.TimedTable) {e : Event} (h : WaiterChange s e t) : t.TimedTable := by
  cases h with
  | same => exact ht
  | taken _ _ _ key => exact (ht.takeKey key).1
  | added ctx _ _ key userDef clock => exact ht.add ctx key userDef clock
  | drawn => exact { ht with fresh := fun h => Nat.lt_succ_of_lt (ht.fresh h) }
  | timed now order hperm =>
    exact ((ht.sublist hperm (dropWhile_sublist _)).getOut _).1
  | cleared => exact .clear _

/-- In every run, by whatever steps and with whatever handlers, the timed waiters are
waiters with their deadlines. -/
theorem of_reachable {worldSize : ℕ} {h : H} {ok : Server H → Event → Prop}
    (hs : (storeSystem reg worldSize h).ReachableBy ok s) : s.waiters.TimedTable := by
  refine TransitionSystem.ReachableBy.invariant (I := fun s => s.waiters.TimedTable) ?_ ?_ hs
  · exact .clear _
  intro s s' e ht _ hn
  obtain ⟨a, ha, rfl⟩ := map_eq_some_iff.mp hn
  exact ht.change (handle_waiterChange ha)

end Waiters.TimedTable

/-! ### One pass of the timer -/

def Waiters.Due (t : Waiters) (now : ℤ) (id : ℕ) : Prop := ∃ d ≤ now, t.TimedAt d id

/-- The waiters that are due are taken out of `waitCtx_` and, over the links that are
still there, answered TIMEOUT; all others stay where they are. -/
structure TimerExact (s : Server H) (now : ℤ) (a : Answer H) : Prop where
  removed : ∀ {id}, s.waiters.Due now id → a.server.waiters.waitCtx id = none
  kept : ∀ {id}, ¬ s.waiters.Due now id → a.server.waiters.waitCtx id = s.waiters.waitCtx id ∧
      ∀ {d}, a.server.waiters.TimedAt d id ↔ s.waiters.TimedAt d id
  answered : ∀ {r}, r ∈ a.replies ↔ ∃ id w, s.waiters.Due now id ∧
    s.waiters.waitCtx id = some w ∧ w.reqCtx.linkId ∈ s.established ∧
    r = ⟨w.reqCtx, .timeout, Bytes.ofString "<timeout>"⟩

/-- The ids that a pass collects from the buckets it erases. -/
def passIds (now : ℤ) (order : List (ℤ × List ℕ)) : List ℕ :=
  (order.takeWhile fun b => b.1 ≤ now).flatMap Prod.snd

section Pass

variable {s : Server H} {now : ℤ} {order : List (ℤ × List ℕ)}

theorem timerPass_waitCtx (id : ℕ) :
    (timerPass s now order).server.waiters.waitCtx id =
      if id ∈ passIds now order then none else s.waiters.waitCtx id :=
  Waiters.getOutWaitersInLock_waitCtx _ _ _

theorem mem_timerPass_replies {r : Reply} :
    r ∈ (timerPass s now order).replies ↔ ∃ id w, id ∈ passIds now order ∧
      s.waiters.waitCtx id = some w ∧ w.reqCtx.linkId ∈ s.established ∧
      r = ⟨w.reqCtx, .timeout, Bytes.ofString "<timeout>"⟩ := by
  show r ∈ flatMap _ _ ↔ _
  rw [mem_flatMap]
  constructor
  · rintro ⟨ctx, hctx, hr⟩
    obtain ⟨id, hid, w, hw, rfl⟩ := (Waiters.mem_getOutWaitersInLock _ _ _).mp hctx
    rw [replyWithMessage] at hr
    split at hr
    · exact ⟨id, w, hid, hw, ‹_›, mem_singleton.mp hr⟩
    · cases hr
  rintro ⟨id, w, hid, hw, hlink, rfl⟩
  refine ⟨w.reqCtx, (Waiters.mem_getOutWaitersInLock _ _ _).mpr ⟨id, hid, w, hw, rfl⟩, ?_⟩
  rw [replyWithMessage, if_pos hlink]
  exact mem_singleton_self _

variable (ht : s.waiters.TimedTable) (hperm : order.Perm s.waiters.timedWaiters)

include ht hperm

theorem nodup_order : order.Nodup :=
  ((hperm.map Prod.fst).nodup_iff.mpr ht.keys).of_map

theorem mem_passIds_iff {ids : List ℕ} (hb : (d, ids) ∈ order) (hid : id ∈ ids) :
    id ∈ passIds now order ↔ (d, ids) ∈ order.takeWhile fun b => b.1 ≤ now := by
  rw [passIds, mem_flatMap]
  refine ⟨?_, fun h => ⟨_, h, hid⟩⟩
  rintro ⟨⟨d', ids'⟩, htaken, hid'⟩
  have hb' : (d', ids') ∈ order := (takeWhile_sublist _).mem htaken
  obtain ⟨w, hw, hd⟩ := ht.registered ⟨ids, hperm.mem_iff.mp hb, hid⟩
  obtain ⟨w', hw', hd'⟩ := ht.registered ⟨ids', hperm.mem_iff.mp hb', hid'⟩
  rw [hw, some_inj] at hw'
  have hfst : d' = d := by rw [← hd, ← hd', hw']
  have hsame : ((d', ids') : ℤ × List ℕ) = (d, ids) :=
    inj_on_of_nodup_map ((hperm.map Prod.fst).nodup_iff.mpr ht.keys) hb' hb hfst
  rw [← hsame]
  exact htaken

theorem timerPass_timedAt :
    (timerPass s now order).server.waiters.TimedAt d id ↔
      (∃ ids, (d, ids) ∈ order.dropWhile (fun b => b.1 ≤ now) ∧ id ∈ ids) ∧
        id ∉ passIds now order :=
  ((ht.sublist hperm (dropWhile_sublist _)).getOut _).2

theorem mem_passIds_iff_due (hmono : order.Pairwise fun b b' => b'.1 ≤ now → b.1 ≤ now) :
    id ∈ passIds now order ↔ s.waiters.Due now id := by
  have hmono' : order.Pairwise fun b b' => decide (b'.1 ≤ now) = true → decide (b.1 ≤ now) = true :=
    hmono.imp fun h hb => decide_eq_true (h (of_decide_eq_true hb))
  constructor
  · intro hid
    obtain ⟨⟨d, ids⟩, htaken, hid⟩ := mem_flatMap.mp hid
    have hdue : d ≤ now := by simpa using mem_takeWhile_imp htaken
    exact ⟨d, hdue, ids, hperm.mem_iff.mp ((takeWhile_sublist _).mem htaken), hid⟩
  rintro ⟨d, hd, ids, hmem, hid⟩
  have hb := hperm.mem_iff.mpr hmem
  exact (mem_passIds_iff ht hperm hb hid).mpr
    (mem_takeWhile_of_pairwise hmono' hb (decide_eq_true hd))

end Pass

/-- For every set of timed waiters, iteration order and time: the pass is exact if and only if no
bucket that is due stands behind one that is not. -/
theorem timerExact_iff (s : Server H) (now : ℤ) (order : List (ℤ × List ℕ))
    (ht : s.waiters.TimedTable) (hperm : order.Perm s.waiters.timedWaiters) :
    TimerExact s now (timerPass s now order) ↔
      order.Pairwise fun b b' => b'.1 ≤ now → b.1 ≤ now := by
  constructor
  · intro hexact
    have hmono := pairwise_of_mem_takeWhile (p := fun b => decide (b.1 ≤ now))
      (nodup_order ht hperm) ?_
    · exact hmono.imp fun h hb => of_decide_eq_true (h (decide_eq_true hb))
    rintro ⟨d, ids⟩ hb hdue
    -- The bucket has a waiter, which is gone, so it has been collected.
    obtain ⟨id, hid⟩ := exists_mem_of_ne_nil _ (ht.buckets (hperm.mem_iff.mp hb)).1
    have hat : s.waiters.TimedAt d id := ⟨ids, hperm.mem_iff.mp hb, hid⟩
    obtain ⟨w, hw, -⟩ := ht.registered hat
    have hgone := hexact.removed ⟨d, of_decide_eq_true hdue, hat⟩
    rw [timerPass_waitCtx, hw] at hgone
    refine (mem_passIds_iff ht hperm hb hid).mp ?_
    by_contra hnot
    rw [if_neg hnot] at hgone
    cases hgone
  intro hmono
  have hiff : ∀ {id}, id ∈ passIds now order ↔ s.waiters.Due now id := fun {id} =>
    mem_passIds_iff_due ht hperm hmono
  refine ⟨fun hdue => ?_, fun {id} hdue => ⟨?_, fun {d} => ?_⟩, fun {r} => ?_⟩
  · rw [timerPass_waitCtx, if_pos (hiff.mpr hdue)]
  · rw [timerPass_waitCtx, if_neg fun hid => hdue (hiff.mp hid)]
  · rw [timerPass_timedAt ht hperm, and_iff_left fun hid => hdue (hiff.mp hid)]
    constructor
    · rintro ⟨ids, hmem, hid⟩
      exact ⟨ids, hperm.mem_iff.mp ((dropWhile_sublist _).mem hmem), hid⟩
    rintro ⟨ids, hmem, hid⟩
    have hb := hperm.mem_iff.mpr hmem
    rw [← order.takeWhile_append_dropWhile (p := fun b => b.1 ≤ now), mem_append] at hb
    refine ⟨ids, hb.resolve_left fun htaken => hdue ?_, hid⟩
    have hd : d ≤ now := by simpa using mem_takeWhile_imp htaken
    exact ⟨d, hd, ids, hmem, hid⟩
  · rw [mem_timerPass_replies]
    simp only [hiff]

/-- Two GETs that wait five and ten milliseconds, at time seven, in the order of their
deadlines: the first one times out. -/
theorem timerExact_ordered :
    ∃ s, (storeSystem (noHandlers Unit) 2 ()).run (Server.init 2 ()) [.connect 1 (2 * 2 ^ 32),
        requestOf 0 1 (.get [107] 5) 0, requestOf 1 1 (.get [108] 10) 0] = some s ∧
      s.waiters.timedWaiters = [(5, [1]), (10, [2])] ∧
      TimerExact s 7 (timerPass s 7 [(5, [1]), (10, [2])]) := by
  refine TransitionSystem.exists_run (fun s => s.waiters.timedWaiters) [(5, [1]), (10, [2])] ?_
    fun s hs hval => ?_
  · decide +kernel
  have ht : s.waiters.TimedTable := .of_reachable (TransitionSystem.reachable_of_run hs)
  refine ⟨hval, (timerExact_iff s 7 _ ht (hval ▸ .refl _)).mpr ?_⟩
  decide

/-- The same two GETs in the other order: the pass stops at the bucket of ten, and the
GET that has been due for two milliseconds stays and is not answered. -/
theorem pass_misses_due_waiter :
    ∃ s, (storeSystem (noHandlers Unit) 2 ()).run (Server.init 2 ()) [.connect 1 (2 * 2 ^ 32),
        requestOf 0 1 (.get [107] 5) 0, requestOf 1 1 (.get [108] 10) 0] = some s ∧
      [(10, [2]), (5, [1])].Perm s.waiters.timedWaiters ∧ s.waiters.Due 7 1 ∧
      (timerPass s 7 [(10, [2]), (5, [1])]).replies = [] ∧
      ¬ TimerExact s 7 (timerPass s 7 [(10, [2]), (5, [1])]) := by
  refine TransitionSystem.exists_run (fun s => (s.waiters.timedWaiters, (timerPass s 7 [(10, [2]),
    (5, [1])]).replies, ((timerPass s 7 [(10, [2]), (5, [1])]).server.waiters.waitCtx 1).isSome))
    ([(5, [1]), (10, [2])], [], true) ?_ fun s _ hval => ?_
  · decide +kernel
  obtain ⟨htimed, hreply, hstays⟩ : s.waiters.timedWaiters = [(5, [1]), (10, [2])] ∧
      (timerPass s 7 [(10, [2]), (5, [1])]).replies = [] ∧
      ((timerPass s 7 [(10, [2]), (5, [1])]).server.waiters.waitCtx 1).isSome = true := by
    simpa only [Prod.mk.injEq] using hval
  have hdue : s.waiters.Due 7 1 := ⟨5, by decide, [1], by rw [htimed]; decide, by decide⟩
  refine ⟨by rw [htimed]; decide, hdue, hreply, fun hexact => ?_⟩
  rw [hexact.removed hdue] at hstays
  cases hstays

end ConfigStore
