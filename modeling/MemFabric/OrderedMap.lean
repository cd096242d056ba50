/-
Ordered maps, as `std::map` and `std::set`.

An `OrderedMap` is its list of entries in the order of their keys, which the
structure carries a proof of.  A set is a map to `Unit`.  Everything is said
through `lookup`: an update is `Function.update` on it (`lookup_insert`,
`lookup_erase`), and what an iterator is moved to is the nearest key on one side
(`lowerBound_eq_some`, `below_eq_some`, `upTo_eq_some`).
-/
import Mathlib

/-- The entries of a map in the order of their keys. -/
structure OrderedMap (κ ν : Type*) [LinearOrder κ] where
  entries : List (κ × ν)
  sorted : entries.Pairwise fun a b => a.1 < b.1

namespace OrderedMap

open List Option Function

variable {κ ν : Type*} [LinearOrder κ] {m : OrderedMap κ ν} {k k' : κ} {v v' : ν}

/-- `find`. -/
def lookup (m : OrderedMap κ ν) (k : κ) : Option ν :=
  (m.entries.find? fun e => e.1 = k).map Prod.snd

def empty : OrderedMap κ ν := ⟨[], List.Pairwise.nil⟩

def singleton (k : κ) (v : ν) : OrderedMap κ ν := ⟨[(k, v)], pairwise_singleton _ _⟩

def erase (m : OrderedMap κ ν) (k : κ) : OrderedMap κ ν :=
  ⟨m.entries.filter fun e => e.1 ≠ k, m.sorted.filter _⟩

/-- `m[k] = v`: the entry is replaced if there is one. -/
def insert (m : OrderedMap κ ν) (k : κ) (v : ν) : OrderedMap κ ν where
  entries := m.entries.filter (fun e => e.1 < k) ++ (k, v) :: m.entries.filter fun e => k < e.1
  sorted := by
    rw [pairwise_append, pairwise_cons]
    refine ⟨m.sorted.filter _, ⟨fun e he => ?_, m.sorted.filter _⟩, fun a ha b hb => ?_⟩
    · simpa using (mem_filter.mp he).2
    have hlow : a.1 < k := by simpa using (mem_filter.mp ha).2
    rcases mem_cons.mp hb with rfl | hb
    · exact hlow
    · have hhigh : k < b.1 := by simpa using (mem_filter.mp hb).2
      exact hlow.trans hhigh

/-- `emplace`: an entry that is there stays. -/
def emplace (m : OrderedMap κ ν) (k : κ) (v : ν) : OrderedMap κ ν :=
  match m.lookup k with
  | some _ => m
  | none => m.insert k v

/-- `lower_bound`: the first entry whose key is not less. -/
def lowerBound (m : OrderedMap κ ν) (k : κ) : Option (κ × ν) :=
  m.entries.find? fun e => k ≤ e.1

/-- The entry in front of `lower_bound`. -/
def below (m : OrderedMap κ ν) (k : κ) : Option (κ × ν) :=
  m.entries.reverse.find? fun e => e.1 < k

/-- The entry in front of `upper_bound`. -/
def upTo (m : OrderedMap κ ν) (k : κ) : Option (κ × ν) :=
  m.entries.reverse.find? fun e => e.1 ≤ k

/-- The entries that an iterator passes from `lower_bound` on as long as `p` holds. -/
def fromWhile (m : OrderedMap κ ν) (k : κ) (p : κ × ν → Bool) : List (κ × ν) :=
  (m.entries.dropWhile fun e => e.1 < k).takeWhile p

def eraseAll (m : OrderedMap κ ν) (keys : List κ) : OrderedMap κ ν := keys.foldl erase m

/-! ### Entries and `lookup` -/

theorem find?_eq_some_of_pairwise {α : Type*} {R : α → α → Prop} {p : α → Bool} :
    ∀ {l : List α} {a : α}, l.Pairwise R → l.find? p = some a →
      a ∈ l ∧ p a = true ∧ ∀ b ∈ l, p b = true → b = a ∨ R a b := by
  intro l
  induction l with
  | nil =>
    intro a _ h
    cases h
  | cons c l ih =>
    intro a hl h
    rw [pairwise_cons] at hl
    rw [find?_cons] at h
    split at h
    · rename_i hc
      obtain rfl := some_inj.mp h
      refine ⟨mem_cons_self, hc, fun b hb _ => ?_⟩
      rcases mem_cons.mp hb with rfl | hb
      · exact .inl rfl
      · exact .inr (hl.1 b hb)
    rename_i hc
    obtain ⟨hmem, hpa, hall⟩ := ih hl.2 h
    refine ⟨mem_cons_of_mem c hmem, hpa, fun b hb hpb => ?_⟩
    rcases mem_cons.mp hb with rfl | hb
    · rw [hpb] at hc
      cases hc
    · exact hall b hb hpb

theorem mem_entries_iff : (k, v) ∈ m.entries ↔ m.lookup k = some v := by
  rw [lookup, map_eq_some_iff]
  constructor
  · intro h
    cases hfind : m.entries.find? fun e => e.1 = k with
    | none =>
      have hall := find?_eq_none.mp hfind (k, v) h
      exact absurd (decide_eq_true rfl) hall
    | some e =>
      obtain ⟨hmem, hkey, hall⟩ := find?_eq_some_of_pairwise m.sorted hfind
      have hkey : e.1 = k := by simpa using hkey
      rcases hall (k, v) h (by simp) with rfl | hlt
      · exact ⟨_, rfl, rfl⟩
      · exact absurd hkey hlt.ne
  rintro ⟨e, hfind, rfl⟩
  obtain ⟨hmem, hkey, -⟩ := find?_eq_some_of_pairwise m.sorted hfind
  have hkey : e.1 = k := by simpa using hkey
  rwa [← hkey]

theorem nodup_entries (m : OrderedMap κ ν) : m.entries.Nodup :=
  m.sorted.imp fun hlt heq => hlt.ne (congrArg Prod.fst heq)

theorem ext_lookup {m m' : OrderedMap κ ν} (h : m.lookup = m'.lookup) : m = m' := by
  have hmem : ∀ e, e ∈ m.entries ↔ e ∈ m'.entries := by
    rintro ⟨k, v⟩
    rw [mem_entries_iff, mem_entries_iff, h]
  have hperm := (perm_ext_iff_of_nodup m.nodup_entries m'.nodup_entries).mpr hmem
  have hents : m.entries = m'.entries :=
    hperm.eq_of_pairwise (fun a b _ _ hab hba => absurd hba hab.not_gt) m.sorted m'.sorted
  cases m
  cases m'
  subst hents
  rfl

theorem lookup_ext_iff {f : κ → Option ν} :
    m.lookup = f ↔ ∀ k v, (k, v) ∈ m.entries ↔ f k = some v := by
  constructor
  · rintro rfl k v
    exact mem_entries_iff
  intro h
  funext k
  ext v
  exact mem_entries_iff.symm.trans (h k v)

@[simp] theorem lookup_empty : (empty : OrderedMap κ ν).lookup = fun _ => none := by
  rw [lookup_ext_iff]
  exact fun k v => iff_of_false not_mem_nil nofun

theorem update_eq_some_iff {f : κ → Option ν} {o : Option ν} :
    update f k o k' = some v' ↔ (k' = k ∧ o = some v') ∨ (k' ≠ k ∧ f k' = some v') := by
  by_cases h : k' = k
  · rw [h, update_self]
    simp
  · rw [update_of_ne h]
    simp [h]

theorem lookup_insert (m : OrderedMap κ ν) (k : κ) (v : ν) :
    (m.insert k v).lookup = update m.lookup k (some v) := by
  rw [lookup_ext_iff]
  intro k' v'
  rw [update_eq_some_iff, ← mem_entries_iff, insert, mem_append, mem_cons,
    mem_filter, mem_filter, Prod.mk.injEq, some_inj]
  rcases lt_trichotomy k' k with h | h | h
  · simp [h, h.ne, h.not_gt]
  · simp [h, eq_comm]
  · simp [h, h.ne', h.not_gt]

theorem lookup_erase (m : OrderedMap κ ν) (k : κ) :
    (m.erase k).lookup = update m.lookup k none := by
  rw [lookup_ext_iff]
  intro k' v'
  rw [update_eq_some_iff, ← mem_entries_iff, erase, mem_filter]
  simp [and_comm]

theorem lookup_insert_eq_some_iff : (m.insert k v).lookup k' = some v' ↔
    (k' = k ∧ v' = v) ∨ (k' ≠ k ∧ m.lookup k' = some v') := by
  rw [lookup_insert, update_eq_some_iff, some_inj, eq_comm (a := v)]

theorem lookup_erase_eq_some_iff : (m.erase k).lookup k' = some v' ↔
    k' ≠ k ∧ m.lookup k' = some v' := by
  rw [lookup_erase, update_eq_some_iff]
  simp

theorem lookup_singleton (k : κ) (v : ν) :
    (singleton k v).lookup = update (fun _ => none) k (some v) := by
  rw [lookup_ext_iff]
  intro k' v'
  rw [update_eq_some_iff, singleton, mem_singleton, Prod.mk.injEq]
  simp [eq_comm]

theorem emplace_of_some (h : m.lookup k = some v) (v' : ν) : m.emplace k v' = m := by
  rw [emplace, h]

theorem lookup_emplace (h : m.lookup k = none) (v : ν) :
    (m.emplace k v).lookup = update m.lookup k (some v) := by
  rw [emplace, h]
  exact lookup_insert m k v

theorem insert_perm (h : m.lookup k = none) (v : ν) :
    (m.insert k v).entries.Perm ((k, v) :: m.entries) := by
  have hnot : (k, v) ∉ m.entries := by
    rw [mem_entries_iff, h]
    nofun
  refine (perm_ext_iff_of_nodup (nodup_entries _) (m.nodup_entries.cons hnot)).mpr ?_
  rintro ⟨k', v'⟩
  rw [mem_entries_iff, lookup_insert, update_eq_some_iff, mem_cons, mem_entries_iff,
    Prod.mk.injEq, some_inj, eq_comm (a := v)]
  refine or_congr_right ⟨And.right, fun hfound => ⟨?_, hfound⟩⟩
  rintro rfl
  exact nomatch h.symm.trans hfound

theorem perm_erase (h : m.lookup k = some v) : m.entries.Perm ((k, v) :: (m.erase k).entries) := by
  have hnot : (k, v) ∉ (m.erase k).entries := by
    rw [mem_entries_iff, lookup_erase, update_self]
    nofun
  refine (perm_ext_iff_of_nodup m.nodup_entries ((nodup_entries _).cons hnot)).mpr ?_
  rintro ⟨k', v'⟩
  rw [mem_cons, mem_entries_iff, mem_entries_iff, lookup_erase, update_eq_some_iff, Prod.mk.injEq]
  by_cases heq : k' = k
  · simp [heq, h, eq_comm]
  · simp [heq]

theorem lookup_eraseAll (keys : List κ) : ∀ (m : OrderedMap κ ν),
    (m.eraseAll keys).lookup k = if k ∈ keys then none else m.lookup k := by
  induction keys with
  | nil => exact fun _ => rfl
  | cons head rest ih =>
    intro m
    show ((m.erase head).eraseAll rest).lookup k = _
    rw [ih, lookup_erase]
    by_cases hrest : k ∈ rest
    · rw [if_pos hrest, if_pos (mem_cons_of_mem _ hrest)]
    rw [if_neg hrest]
    by_cases hhead : k = head
    · rw [hhead, update_self, if_pos mem_cons_self]
    rw [update_of_ne hhead, if_neg]
    rw [mem_cons]
    exact not_or.mpr ⟨hhead, hrest⟩

/-! ### Parts of a map -/

theorem dropWhile_eq_filter : ∀ {l : List (κ × ν)}, l.Pairwise (fun a b => a.1 < b.1) →
    (l.dropWhile fun e => e.1 < k) = l.filter fun e => k ≤ e.1 := by
  intro l
  induction l with
  | nil => exact fun _ => rfl
  | cons a l ih =>
    intro hl
    obtain ⟨hhead, hl⟩ := pairwise_cons.mp hl
    by_cases ha : a.1 < k
    · rw [dropWhile_cons_of_pos (by simpa using ha), ih hl, filter_cons_of_neg]
      simpa using ha
    -- The first key that is large enough is followed by larger ones only.
    rw [dropWhile_cons_of_neg (by simpa using ha)]
    refine (filter_eq_self.mpr fun b hb => ?_).symm
    rw [decide_eq_true_eq]
    rcases mem_cons.mp hb with rfl | hb
    · exact not_lt.mp ha
    · exact (not_lt.mp ha).trans (hhead b hb).le

theorem mem_takeWhile_iff {p : κ × ν → Bool} {e : κ × ν} : ∀ {l : List (κ × ν)},
    l.Pairwise (fun a b => a.1 < b.1) →
      (e ∈ l.takeWhile p ↔ e ∈ l ∧ ∀ e' ∈ l, e'.1 ≤ e.1 → p e' = true) := by
  intro l
  induction l with
  | nil =>
    intro _
    simp
  | cons a l ih =>
    intro hl
    obtain ⟨hhead, hl⟩ := pairwise_cons.mp hl
    by_cases ha : p a = true
    · rw [takeWhile_cons_of_pos ha, mem_cons, ih hl]
      constructor
      · rintro (rfl | ⟨he, hall⟩)
        · refine ⟨mem_cons_self, fun e' he' hle => ?_⟩
          rcases mem_cons.mp he' with rfl | he'
          · exact ha
          · exact absurd (hhead e' he') hle.not_gt
        refine ⟨mem_cons_of_mem _ he, fun e' he' hle => ?_⟩
        rcases mem_cons.mp he' with rfl | he'
        · exact ha
        · exact hall e' he' hle
      · rintro ⟨he, hall⟩
        refine (mem_cons.mp he).imp_right fun he => ⟨he, fun e' he' hle => ?_⟩
        exact hall e' (mem_cons_of_mem _ he') hle
    rw [takeWhile_cons_of_neg ha]
    refine ⟨fun he => absurd he not_mem_nil, ?_⟩
    rintro ⟨he, hall⟩
    refine absurd (hall a mem_cons_self ?_) ha
    rcases mem_cons.mp he with rfl | he
    · exact le_rfl
    · exact (hhead e he).le

theorem mem_fromWhile_iff {p : κ × ν → Bool} : (k', v') ∈ m.fromWhile k p ↔
    m.lookup k' = some v' ∧ k ≤ k' ∧
      ∀ k'' v'', m.lookup k'' = some v'' → k ≤ k'' → k'' ≤ k' → p (k'', v'') = true := by
  rw [fromWhile, dropWhile_eq_filter m.sorted, mem_takeWhile_iff (m.sorted.filter _),
    mem_filter, decide_eq_true_eq, mem_entries_iff, and_assoc]
  refine and_congr_right fun _ => and_congr_right fun _ => ?_
  constructor
  · intro hall k'' v'' hk hle hle'
    exact hall (k'', v'') (mem_filter.mpr ⟨mem_entries_iff.mpr hk, decide_eq_true hle⟩) hle'
  rintro hall ⟨k'', v''⟩ hmem hle'
  obtain ⟨hmem, hle⟩ := mem_filter.mp hmem
  exact hall k'' v'' (mem_entries_iff.mp hmem) (by simpa using hle) hle'

/-! ### Neighbours -/

theorem lowerBound_eq_some (h : m.lowerBound k = some (k', v')) :
    m.lookup k' = some v' ∧ k ≤ k' ∧ ∀ k'' v'', m.lookup k'' = some v'' → k ≤ k'' → k' ≤ k'' := by
  obtain ⟨hmem, hle, hall⟩ := find?_eq_some_of_pairwise m.sorted h
  refine ⟨mem_entries_iff.mp hmem, by simpa using hle, fun k'' v'' hk hkk => ?_⟩
  rcases hall (k'', v'') (mem_entries_iff.mpr hk) (by simpa using hkk) with heq | hlt
  · exact (congrArg Prod.fst heq).ge
  · exact hlt.le

theorem lowerBound_eq_none_iff :
    m.lowerBound k = none ↔ ∀ k' v', m.lookup k' = some v' → k' < k := by
  rw [lowerBound, find?_eq_none]
  constructor
  · intro h k' v' hk
    simpa using h (k', v') (mem_entries_iff.mpr hk)
  · rintro h ⟨k', v'⟩ hmem
    simpa using h k' v' (mem_entries_iff.mp hmem)

theorem find?_reverse_eq_some {p : κ → Bool}
    (h : m.entries.reverse.find? (fun e => p e.1) = some (k', v')) :
    m.lookup k' = some v' ∧ p k' = true ∧
      ∀ k'' v'', m.lookup k'' = some v'' → p k'' = true → k'' ≤ k' := by
  have hsort : m.entries.reverse.Pairwise fun a b => b.1 < a.1 :=
    pairwise_reverse.mpr m.sorted
  obtain ⟨hmem, hp, hall⟩ := find?_eq_some_of_pairwise hsort h
  refine ⟨mem_entries_iff.mp (mem_reverse.mp hmem), hp, fun k'' v'' hk hkk => ?_⟩
  rcases hall (k'', v'') (mem_reverse.mpr (mem_entries_iff.mpr hk)) hkk with heq | hlt
  · exact (congrArg Prod.fst heq).le
  · exact hlt.le

theorem find?_reverse_eq_none_iff {p : κ → Bool} :
    m.entries.reverse.find? (fun e => p e.1) = none ↔
      ∀ k' v', m.lookup k' = some v' → p k' = false := by
  rw [find?_eq_none]
  constructor
  · intro h k' v' hk
    simpa using h (k', v') (mem_reverse.mpr (mem_entries_iff.mpr hk))
  · rintro h ⟨k', v'⟩ hmem
    simpa using h k' v' (mem_entries_iff.mp (mem_reverse.mp hmem))

theorem below_eq_some (h : m.below k = some (k', v')) :
    m.lookup k' = some v' ∧ k' < k ∧ ∀ k'' v'', m.lookup k'' = some v'' → k'' < k → k'' ≤ k' := by
  obtain ⟨hk, hlt, hall⟩ := find?_reverse_eq_some (p := fun x => decide (x < k)) h
  exact ⟨hk, by simpa using hlt, fun k'' v'' hk'' hlt'' => hall k'' v'' hk'' (by simpa using hlt'')⟩

theorem below_eq_none_iff : m.below k = none ↔ ∀ k' v', m.lookup k' = some v' → k ≤ k' := by
  rw [below, find?_reverse_eq_none_iff (p := fun x => decide (x < k))]
  simp

theorem upTo_eq_some (h : m.upTo k = some (k', v')) :
    m.lookup k' = some v' ∧ k' ≤ k ∧ ∀ k'' v'', m.lookup k'' = some v'' → k'' ≤ k → k'' ≤ k' := by
  obtain ⟨hk, hle, hall⟩ := find?_reverse_eq_some (p := fun x => decide (x ≤ k)) h
  exact ⟨hk, by simpa using hle, fun k'' v'' hk'' hle'' => hall k'' v'' hk'' (by simpa using hle'')⟩

theorem upTo_eq_none_iff : m.upTo k = none ↔ ∀ k' v', m.lookup k' = some v' → k < k' := by
  rw [upTo, find?_reverse_eq_none_iff (p := fun x => decide (x ≤ k))]
  simp

theorem upTo_eq (hk' : m.lookup k' = some v') (hle : k' ≤ k)
    (hfree : ∀ {k'' v''}, m.lookup k'' = some v'' → k' < k'' → k < k'') :
    m.upTo k = some (k', v') := by
  cases hup : m.upTo k with
  | none => exact absurd hle (upTo_eq_none_iff.mp hup k' v' hk').not_ge
  | some entry =>
    obtain ⟨hentry, hbelow, hall⟩ := upTo_eq_some hup
    have hsame : entry.1 = k' := by
      refine le_antisymm (le_of_not_gt fun hlt => ?_) (hall k' v' hk' hle)
      exact absurd hbelow (hfree hentry hlt).not_ge
    rw [hsame, hk'] at hentry
    exact congrArg some (Prod.ext hsame (some.inj hentry).symm)

end OrderedMap
