/-
The table of remote slices, and the addresses of a transfer.

A trans entry maps for every session the remote addresses of the slices to where they are
mapped.  The callback for new slices takes out those that are removed and enters those that are
added, but an entry that is there stays.  `BatchSyncTransfer` looks for a remote address at the
slice that begins nearest below it.
-/
import MemFabric.OrderedMap
import MemFabric.Transition

namespace Trans

open Function OrderedMap Option List

structure LocalMapAddress where
  address : ℕ
  size : ℕ
  deriving DecidableEq

/-- What is read of a `StoredSliceInfo`. -/
structure SliceInfo where
  session : ℕ
  address : ℕ
  size : ℕ

/-- `remoteSlices_`.  The order of the maps is the other way round in the source. -/
abbrev RemoteSlices := ℕ → Option (OrderedMap ℕ LocalMapAddress)

namespace RemoteSlices

variable (t : RemoteSlices)

/-- One round of `CleanupRemoteSlices`. -/
def cleanup (info : SliceInfo) : RemoteSlices :=
  match t info.session with
  | none => t
  | some m =>
    match m.lookup info.address with
    | none => t
    | some _ =>
      update t info.session
        (if (m.erase info.address).entries = [] then none else some (m.erase info.address))

/-- One round of the loop over the added slices, with the address that `hybm_import` gave. -/
def enter (added : SliceInfo × ℕ) : RemoteSlices :=
  update t added.1.session (some (((t added.1.session).getD .empty).emplace added.1.address
    ⟨added.2, added.1.size⟩))

/-- `importNewSlices`, when the import succeeds. -/
def importNewSlices (addSs : List (SliceInfo × ℕ)) (rmSs : List SliceInfo) : RemoteSlices :=
  addSs.foldl enter (rmSs.foldl cleanup t)

def entry (k : ℕ × ℕ) : Option LocalMapAddress := (t k.1).bind (·.lookup k.2)

end RemoteSlices

open RemoteSlices

def SliceInfo.key (info : SliceInfo) : ℕ × ℕ := (info.session, info.address)

def remember (f : ℕ × ℕ → Option LocalMapAddress) (added : SliceInfo × ℕ) :
    ℕ × ℕ → Option LocalMapAddress :=
  update f added.1.key (some ⟨added.2, added.1.size⟩)

def forget (f : ℕ × ℕ → Option LocalMapAddress) (info : SliceInfo) :
    ℕ × ℕ → Option LocalMapAddress :=
  update f info.key none

/-- The table, and for every session and address the latest import that was not removed. -/
structure ImportState where
  table : RemoteSlices
  latest : ℕ × ℕ → Option LocalMapAddress

def importSystem : TransitionSystem ImportState (List (SliceInfo × ℕ) × List SliceInfo) where
  start := ⟨fun _ => none, fun _ => none⟩
  next s e := some ⟨s.table.importNewSlices e.1 e.2, e.1.foldl remember (e.2.foldl forget s.latest)⟩

/-- The added slices have different keys, and there is no entry for them. -/
def Absent (s : ImportState) (e : List (SliceInfo × ℕ) × List SliceInfo) : Prop :=
  e.1.Pairwise (fun a b => b.1.key ≠ a.1.key) ∧
    ∀ a ∈ e.1, (e.2.foldl cleanup s.table).entry a.1.key = none
  deriving Decidable

variable {s : ImportState} {t : RemoteSlices}

theorem entry_update {session address : ℕ} {m : Option (OrderedMap ℕ LocalMapAddress)}
    {v : Option LocalMapAddress}
    (h : ∀ a, m.bind (·.lookup a) = if a = address then v else t.entry (session, a)) :
    RemoteSlices.entry (update t session m) = update t.entry (session, address) v := by
  funext ⟨session', a⟩
  by_cases hs : session' = session
  · rw [hs, entry, update_self, h a, update_apply]
    simp only [Prod.mk.injEq, true_and]
  · rw [entry, update_of_ne hs, update_of_ne fun heq => hs (Prod.mk.inj heq).1]
    rfl

theorem entry_cleanup (t : RemoteSlices) (info : SliceInfo) :
    (t.cleanup info).entry = forget t.entry info := by
  -- without an entry there is nothing to take out
  have hstay : t.entry info.key = none → t.entry = forget t.entry info :=
    fun h => (update_eq_self_iff.mpr h.symm).symm
  rw [cleanup]
  split
  · next hnone => exact hstay (by rw [entry, SliceInfo.key, hnone]; rfl)
  next m hm =>
  split
  · next hnone => exact hstay (by rw [entry, SliceInfo.key, hm]; exact hnone)
  refine entry_update fun a => ?_
  have herase : (if (m.erase info.address).entries = [] then none
      else some (m.erase info.address)).bind (·.lookup a) = (m.erase info.address).lookup a := by
    split
    · next hnil => rw [OrderedMap.lookup, hnil]; rfl
    · rfl
  rw [herase, lookup_erase, update_apply, entry, hm]
  rfl

theorem entry_enter {a : SliceInfo × ℕ} (h : t.entry a.1.key = none) :
    (t.enter a).entry = remember t.entry a := by
  have hlook : ∀ address,
      ((t a.1.session).getD .empty).lookup address = t.entry (a.1.session, address) := by
    intro address
    rw [entry]
    cases t a.1.session <;> rfl
  refine entry_update fun address => ?_
  rw [bind_some, lookup_emplace ((hlook _).trans h), update_apply, hlook]

theorem entry_foldl_cleanup (rmSs : List SliceInfo) (t : RemoteSlices) :
    (rmSs.foldl cleanup t).entry = rmSs.foldl forget t.entry := by
  induction rmSs generalizing t with
  | nil => rfl
  | cons info rmSs ih => rw [foldl_cons, foldl_cons, ih, entry_cleanup]

theorem entry_foldl_enter {addSs : List (SliceInfo × ℕ)}
    (hkeys : addSs.Pairwise fun a b => b.1.key ≠ a.1.key)
    (habsent : ∀ a ∈ addSs, t.entry a.1.key = none) :
    (addSs.foldl enter t).entry = addSs.foldl remember t.entry := by
  induction addSs generalizing t with
  | nil => rfl
  | cons a addSs ih =>
    obtain ⟨hfirst, hkeys⟩ := pairwise_cons.mp hkeys
    obtain ⟨hnone, habsent⟩ := forall_mem_cons.mp habsent
    rw [foldl_cons, foldl_cons, ih hkeys, entry_enter hnone]
    intro b hb
    rw [entry_enter hnone, remember, update_of_ne (hfirst b hb), habsent b hb]

/-- As long as slices are added where there is none, the table has exactly the latest imports. -/
theorem table_latest_of_absent (hs : importSystem.ReachableBy Absent s) :
    s.table.entry = s.latest := by
  refine hs.invariant (I := fun s => s.table.entry = s.latest) rfl ?_
  rintro s s' e h ⟨hkeys, habsent⟩ hnext
  obtain rfl := some.inj hnext
  show (e.1.foldl enter (e.2.foldl cleanup s.table)).entry = _
  rw [entry_foldl_enter hkeys habsent, entry_foldl_cleanup, h]

/-- A slice is added, removed, and added again elsewhere in one callback. -/
theorem table_latest_after_removal :
    ∃ s, importSystem.ReachableBy Absent s ∧ s.latest (1, 4096) = some ⟨2 ^ 41, 64⟩ ∧
      s.table.entry = s.latest := by
  refine TransitionSystem.exists_reachableBy [([(⟨1, 4096, 64⟩, 2 ^ 40)], []), ([(⟨1, 4096, 64⟩, 2 ^
    41)], [⟨1, 4096, 64⟩])] (fun s => s.latest (1, 4096)) (some ⟨2 ^ 41, 64⟩) ?_
    fun s hs hlatest => ?_
  · decide +kernel
  exact ⟨hlatest, table_latest_of_absent hs⟩

/-- A slice is added again without having been removed: the old entry stays. -/
theorem added_again_keeps_old :
    ∃ s, importSystem.Reachable s ∧ s.latest (1, 4096) = some ⟨2 ^ 41, 128⟩ ∧
      s.table.entry (1, 4096) = some ⟨2 ^ 40, 64⟩ := by
  refine TransitionSystem.exists_reachable [([(⟨1, 4096, 64⟩, 2 ^ 40)], []), ([(⟨1, 4096, 128⟩, 2 ^
    41)], [])] (fun s => (s.latest (1, 4096), s.table.entry (1, 4096))) (some ⟨2 ^ 41, 128⟩, some ⟨2
    ^ 40, 64⟩) ?_ fun s _ heq => ?_
  · decide +kernel
  exact Prod.mk.inj heq

/-! ### Transfers -/

variable {m : OrderedMap ℕ LocalMapAddress} {remoteAddr size a : ℕ}

/-- One round of the check in `BatchSyncTransfer`: the mapped address. -/
def mappedAddress (m : OrderedMap ℕ LocalMapAddress) (remoteAddr size : ℕ) : Option ℕ :=
  match m.upTo remoteAddr with
  | none => none
  | some (first, slice) =>
    if (first + slice.size) % 2 ^ 64 < (remoteAddr + size) % 2 ^ 64 then none
    else if (slice.address + (remoteAddr - first)) % 2 ^ 64 = 0 then none
    else some ((slice.address + (remoteAddr - first)) % 2 ^ 64)

/-- The check, with the remote addresses and sizes of a batch. -/
def mappedAddresses (m : OrderedMap ℕ LocalMapAddress) (batch : List (ℕ × ℕ)) : Option (List ℕ) :=
  batch.mapM fun b => mappedAddress m b.1 b.2

/-- The range is inside a slice, and `a` is where the slice has it. -/
def MapsTo (m : OrderedMap ℕ LocalMapAddress) (b : ℕ × ℕ) (a : ℕ) : Prop :=
  ∃ first slice, m.lookup first = some slice ∧ first ≤ b.1 ∧ b.1 + b.2 ≤ first + slice.size ∧
    a = slice.address + (b.1 - first)

def Inside (m : OrderedMap ℕ LocalMapAddress) (b : ℕ × ℕ) : Prop := ∃ a, MapsTo m b a

/-- The slices are ranges of addresses, and so are the places they are mapped to, without 0. -/
def Sound (m : OrderedMap ℕ LocalMapAddress) : Prop :=
  ∀ {k v}, m.lookup k = some v → k + v.size < 2 ^ 64 ∧ 0 < v.address ∧ v.address + v.size < 2 ^ 64

/-- The range is inside a slice, but not inside the one that begins nearest below it. -/
def Hidden (m : OrderedMap ℕ LocalMapAddress) (b : ℕ × ℕ) : Prop :=
  Inside m b ∧ ∃ first slice, m.upTo b.1 = some (first, slice) ∧ first + slice.size < b.1 + b.2

/-- The end of the range wraps around, to an address that is not behind the nearest slice. -/
def Strays (m : OrderedMap ℕ LocalMapAddress) (b : ℕ × ℕ) : Prop :=
  2 ^ 64 ≤ b.1 + b.2 ∧ ∃ first slice, m.upTo b.1 = some (first, slice) ∧
    (b.1 + b.2) % 2 ^ 64 ≤ first + slice.size ∧ (slice.address + (b.1 - first)) % 2 ^ 64 ≠ 0

/-- The check passes if and only if every range is inside a slice, and then the addresses are those
of the slices. -/
def Exact (m : OrderedMap ℕ LocalMapAddress) (batch : List (ℕ × ℕ)) : Prop :=
  ((mappedAddresses m batch).isSome ↔ ∀ b ∈ batch, Inside m b) ∧
    ∀ mapped, mappedAddresses m batch = some mapped → List.Forall₂ (MapsTo m) batch mapped

section Ranges

variable {b : ℕ × ℕ}

theorem Sound.not_inside_of_strays (h : Sound m) (hb : Strays m b) : ¬ Inside m b := by
  rintro ⟨a, first, slice, hlook, hle, hinside, rfl⟩
  have := (h hlook).1
  have := hb.1
  omega

/-- What passes is inside the nearest slice, unless it strays. -/
theorem Sound.mapsTo_of_mappedAddress (h : Sound m) (hb : mappedAddress m b.1 b.2 = some a) :
    Strays m b ∨ MapsTo m b a ∧ ¬ Hidden m b := by
  unfold mappedAddress at hb
  split at hb
  · cases hb
  next first slice hup =>
  obtain ⟨hlook, hle, -⟩ := upTo_eq_some hup
  obtain ⟨hend, hne, hend'⟩ := h hlook
  rw [Nat.mod_eq_of_lt hend] at hb
  obtain ⟨hinside, hb⟩ := ite_none_left_eq_some.mp hb
  obtain ⟨hnull, hb⟩ := ite_none_left_eq_some.mp hb
  by_cases hwrap : 2 ^ 64 ≤ b.1 + b.2
  · exact .inl ⟨hwrap, first, slice, hup, not_lt.mp hinside, hnull⟩
  rw [Nat.mod_eq_of_lt (not_le.mp hwrap)] at hinside
  rw [Nat.mod_eq_of_lt (by omega)] at hb
  refine .inr ⟨⟨first, slice, hlook, hle, not_lt.mp hinside, (some.inj hb).symm⟩, ?_⟩
  rintro ⟨-, first', slice', hup', hbehind⟩
  obtain ⟨rfl, rfl⟩ := Prod.mk.inj (some.inj (hup.symm.trans hup'))
  omega

/-- What is refused is hidden, or in no slice. -/
theorem Sound.hidden_of_refused (h : Sound m) (hb : mappedAddress m b.1 b.2 = none) :
    ¬ Strays m b ∧ (Inside m b → Hidden m b) := by
  unfold mappedAddress at hb
  constructor
  · rintro ⟨hwrap, first, slice, hup, hbehind, hnull⟩
    have hend := (h (upTo_eq_some hup).1).1
    rw [hup] at hb
    dsimp only at hb
    rw [Nat.mod_eq_of_lt hend, if_neg (not_lt.mpr hbehind), if_neg hnull] at hb
    cases hb
  intro hin
  obtain ⟨a, first, slice, hlook, hle, hinside, rfl⟩ := hin
  have hend := (h hlook).1
  refine ⟨⟨_, first, slice, hlook, hle, hinside, rfl⟩, ?_⟩
  cases hup : m.upTo b.1 with
  | none => exact absurd hle (upTo_eq_none_iff.mp hup _ _ hlook).not_ge
  | some found =>
    obtain ⟨hlook', hle', -⟩ := upTo_eq_some hup
    obtain ⟨hend', hne', hplace'⟩ := h hlook'
    refine ⟨found.1, found.2, rfl, not_le.mp fun hfits => ?_⟩
    rw [hup] at hb
    dsimp only at hb
    rw [Nat.mod_eq_of_lt hend', Nat.mod_eq_of_lt (by omega), if_neg (not_lt.mpr hfits),
      Nat.mod_eq_of_lt (by omega), if_neg (by omega)] at hb
    cases hb

end Ranges

theorem mappedAddresses_eq_some_iff {batch : List (ℕ × ℕ)} {mapped : List ℕ} :
    mappedAddresses m batch = some mapped ↔
      List.Forall₂ (fun b a => mappedAddress m b.1 b.2 = some a) batch mapped := by
  unfold mappedAddresses
  induction batch generalizing mapped with
  | nil => simp [eq_comm]
  | cons b batch ih =>
    simp only [mapM_cons, bind_eq_bind, bind_eq_some_iff, Option.pure_def, Option.some_inj, ih,
      List.forall₂_cons_left_iff, exists_and_left, eq_comm (b := mapped)]

theorem mappedAddresses_isSome_iff {batch : List (ℕ × ℕ)} :
    (mappedAddresses m batch).isSome ↔ ∀ b ∈ batch, (mappedAddress m b.1 b.2).isSome := by
  unfold mappedAddresses
  induction batch with
  | nil => simp
  | cons b batch ih =>
    rw [forall_mem_cons, ← ih, mapM_cons]
    cases mappedAddress m b.1 b.2 <;> cases batch.mapM fun b => mappedAddress m b.1 b.2 <;> simp

/-- Two slices, the second inside the first when `first` is below `4352`. -/
def twoSlices (first : ℕ) : OrderedMap ℕ LocalMapAddress :=
  (OrderedMap.singleton 4096 ⟨2 ^ 40, 256⟩).insert first ⟨2 ^ 41, 16⟩

theorem lookup_twoSlices {first k : ℕ} {v : LocalMapAddress}
    (h : (twoSlices first).lookup k = some v) :
    (k = first ∧ v = ⟨2 ^ 41, 16⟩) ∨ (k = 4096 ∧ v = ⟨2 ^ 40, 256⟩) := by
  rw [twoSlices, OrderedMap.lookup_insert_eq_some_iff, OrderedMap.lookup_singleton,
    update_eq_some_iff] at h
  obtain h | ⟨-, ⟨hk, hv⟩ | ⟨-, hv⟩⟩ := h
  · exact .inl h
  · exact .inr ⟨hk, (some.inj hv).symm⟩
  · cases hv

theorem sound_twoSlices {first : ℕ} (h : first + 16 < 2 ^ 64) : Sound (twoSlices first) := by
  intro k v hk
  obtain ⟨rfl, rfl⟩ | ⟨rfl, rfl⟩ := lookup_twoSlices hk
  · exact ⟨h, by decide, by decide⟩
  · decide

end Trans
