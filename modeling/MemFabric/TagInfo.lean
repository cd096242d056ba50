/-
The tags of the ranks and what two tags may use.

Every rank has a tag, and a table says by which kinds of data path two tags may reach each
other; `addTagOpInfo` takes its entries as a list of `tag:OP:tag`.  `getRank2RankOpType` is what
the transports and the data operators ask before they choose a path: a set of kinds, as the bits
of a word, empty where a rank has no tag or two tags have no entry.
-/
import MemFabric.Bytes
import MemFabric.VaManager

namespace Hybm

open List

/-- `hybm_data_op_type` without the default. -/
inductive DataOpType
  | mte
  | sdma
  | deviceRdma
  | hostRdma
  | hostTcp
  | hostUrma
  deriving DecidableEq

/-- The bit of a kind; `HYBM_DOP_TYPE_DEFAULT` is zero. -/
def DataOpType.bit : DataOpType → BitVec 32
  | .mte => 1
  | .sdma => 2
  | .deviceRdma => 4
  | .hostRdma => 8
  | .hostTcp => 16
  | .hostUrma => 32

/-- The test `opTypes & type`. -/
def DataOpType.allowedBy (type : DataOpType) (opTypes : BitVec 32) : Bool :=
  opTypes &&& type.bit != 0

def str2OpTypeMap : List (Bytes × DataOpType) :=
  [(Bytes.ofString "DEVICE_SDMA", .sdma), (Bytes.ofString "DEVICE_RDMA", .deviceRdma),
    (Bytes.ofString "HOST_RDMA", .hostRdma), (Bytes.ofString "HOST_TCP", .hostTcp),
    (Bytes.ofString "HOST_URMA", .hostUrma), (Bytes.ofString "DEVICE_MTE", .mte)]

/-- `HybmEntityTagInfo`. -/
structure TagInfo where
  rankTagInfo : ℕ → Option Bytes
  tagOpInfo : Bytes → Option (BitVec 32)

namespace TagInfo

def empty : TagInfo := ⟨fun _ => none, fun _ => none⟩

def tagKey (tag1 tag2 : Bytes) : Bytes := tag1 ++ Bytes.ofString ":" ++ tag2

variable (t : TagInfo)

def getTag2TagOpType (tag1 tag2 : Bytes) : BitVec 32 :=
  match t.tagOpInfo (tagKey tag1 tag2) with
  | some opType => opType
  | none => (t.tagOpInfo (tagKey tag2 tag1)).getD 0

def getRank2RankOpType (rankId1 rankId2 : ℕ) : BitVec 32 :=
  match t.rankTagInfo rankId1, t.rankTagInfo rankId2 with
  | some tag1, some tag2 => t.getTag2TagOpType tag1 tag2
  | _, _ => 0

/-! ### Filling the tables -/

/-- A byte of `[A-Z_]`. -/
def isUpper (c : UInt8) : Bool := (65 ≤ c && c ≤ 90) || c == 95

/-- A byte of `[a-zA-Z0-9_]`. -/
def isWord (c : UInt8) : Bool := isUpper c || (97 ≤ c && c ≤ 122) || (48 ≤ c && c ≤ 57)

/-- `tagPattern`. -/
def isTag (tag : Bytes) : Bool := tag.all isWord && 1 ≤ tag.length && tag.length ≤ 30

/-- The middle part of `tagOpInfoPattern`. -/
def isOpTypeStr (text : Bytes) : Bool := text.all isUpper && 8 ≤ text.length && text.length ≤ 12

/-- `AddRankTag`: an empty tag is accepted and not recorded. -/
def addRankTag (rankId : ℕ) (tag : Bytes) : Result × TagInfo :=
  if tag = [] then (.ok, t)
  else if isTag tag then
    (.ok, { t with rankTagInfo := Function.update t.rankTagInfo rankId (some tag) })
  else (.invalidParam, t)

def removeRankTag (rankId : ℕ) : TagInfo :=
  { t with rankTagInfo := Function.update t.rankTagInfo rankId none }

/-- The three parts of a text that `tagOpInfoPattern` matches.  No part has a colon, so they
are what stands between the colons. -/
def matchTagOpInfo (tagOpInfo : Bytes) : Option (Bytes × Bytes × Bytes) :=
  match tagOpInfo.splitOn 58 with
  | [tag1, opTypeStr, tag2] =>
    if isTag tag1 && isOpTypeStr opTypeStr && isTag tag2 then some (tag1, opTypeStr, tag2)
    else none
  | _ => none

def addOneTagOpInfo (tagOpInfo : Bytes) : Result × TagInfo :=
  match matchTagOpInfo tagOpInfo with
  | none => (.invalidParam, t)
  | some (tag1, opTypeStr, tag2) =>
    match str2OpTypeMap.lookup opTypeStr with
    | none => (.invalidParam, t)
    | some type =>
      let opType := t.getTag2TagOpType tag1 tag2
      (.ok, { t with
        tagOpInfo := Function.update t.tagOpInfo (tagKey tag1 tag2) (some (opType ||| type.bit)) })

/-- `StrUtil::Split`: nothing stands behind a delimiter at the end. -/
def split (delimiter : UInt8) : Bytes → Bytes → List Bytes
  | item, [] => if item = [] then [] else [item]
  | item, c :: rest =>
    if c = delimiter then item :: split delimiter [] rest
    else split delimiter (item ++ [c]) rest

/-- The loop of `AddTagOpInfo`: the entries before the first one that fails are kept. -/
def addEach (t : TagInfo) : List Bytes → Result × TagInfo
  | [] => (.ok, t)
  | item :: rest =>
    match t.addOneTagOpInfo item with
    | (.ok, t') => t'.addEach rest
    | (ret, t') => (ret, t')

def addTagOpInfo (tagOpInfo : Bytes) : Result × TagInfo :=
  t.addEach (split 44 [] tagOpInfo)

def tagInfoInit (rankId : ℕ) (tag tagOpInfo : Bytes) : Result × TagInfo :=
  match t.addRankTag rankId tag with
  | (.ok, t') => t'.addTagOpInfo tagOpInfo
  | (ret, t') => (ret, t')

/-! ### What two tags may use -/

/-- An entry of the table. -/
structure TagOp where
  tag1 : Bytes
  type : DataOpType
  tag2 : Bytes

def tagOp (tagOpInfo : Bytes) : Option TagOp :=
  match matchTagOpInfo tagOpInfo with
  | none => none
  | some (tag1, opTypeStr, tag2) =>
    (str2OpTypeMap.lookup opTypeStr).map fun type => ⟨tag1, type, tag2⟩

def enter (e : TagOp) : TagInfo :=
  { t with
    tagOpInfo := Function.update t.tagOpInfo (tagKey e.tag1 e.tag2)
      (some (t.getTag2TagOpType e.tag1 e.tag2 ||| e.type.bit)) }

/-- The table after texts were added one by one. -/
def addAll (items : List Bytes) : TagInfo :=
  items.foldl (fun t item => (t.addOneTagOpInfo item).2) empty

def TagOp.Joins (e : TagOp) (x y : Bytes) : Prop :=
  (e.tag1 = x ∧ e.tag2 = y) ∨ (e.tag1 = y ∧ e.tag2 = x)

instance (e : TagOp) (x y : Bytes) : Decidable (e.Joins x y) := by
  unfold TagOp.Joins
  infer_instance

/-- The bits of all entries for two tags. -/
def permitted (es : List TagOp) (x y : Bytes) : BitVec 32 :=
  (es.filter (·.Joins x y)).foldl (fun opType e => opType ||| e.type.bit) 0

def Cumulative (items : List Bytes) : Prop :=
  ∀ x y, isTag x → isTag y →
    (addAll items).getTag2TagOpType x y = (addAll items).getTag2TagOpType y x ∧
      (addAll items).getTag2TagOpType x y = permitted (items.filterMap tagOp) x y

/-- No two entries name two tags in opposite orders. -/
def OneWay (es : List TagOp) : Prop :=
  ∀ e ∈ es, ∀ e' ∈ es, e.tag1 = e'.tag2 → e.tag2 = e'.tag1 → e.tag1 = e.tag2

variable {t} {x y a b : Bytes} {es : List TagOp} {e : TagOp}

theorem not_mem_of_isTag (h : isTag x) : 58 ∉ x := by
  intro hmem
  simp only [isTag, Bool.and_eq_true, all_eq_true] at h
  exact absurd (h.1.1 58 hmem) (by decide)

theorem tagKey_inj (hy : isTag y) (hb : isTag b) (h : tagKey x y = tagKey a b) : x = a ∧ y = b :=
  Bytes.append_cons_inj h (not_mem_of_isTag hy) (not_mem_of_isTag hb)

theorem isTag_of_tagOp {item : Bytes} (h : tagOp item = some e) : isTag e.tag2 := by
  unfold tagOp matchTagOpInfo at h
  split at h
  · cases h
  next hmatch =>
  obtain ⟨type, -, rfl⟩ := Option.map_eq_some_iff.mp h
  split at hmatch
  · obtain ⟨hparts, hmatch⟩ := Option.ite_none_right_eq_some.mp hmatch
    obtain ⟨rfl, rfl, rfl⟩ := hmatch
    simp only [Bool.and_eq_true] at hparts
    exact hparts.2
  · cases hmatch

theorem addOneTagOpInfo_eq (t : TagInfo) (item : Bytes) :
    (t.addOneTagOpInfo item).2 = ((tagOp item).map t.enter).getD t := by
  rw [addOneTagOpInfo, tagOp]
  cases matchTagOpInfo item with
  | none => rfl
  | some parts => cases hop : str2OpTypeMap.lookup parts.2.1 <;> simp [hop, enter]

theorem permitted_comm : permitted es x y = permitted es y x := by
  simp only [permitted, TagOp.Joins, or_comm]

theorem permitted_concat : permitted (es ++ [e]) x y =
    if e.Joins x y then permitted es x y ||| e.type.bit else permitted es x y := by
  split
  · next h => simp [h, permitted]
  · next h => simp [h, permitted]

/-- What the table has for two tags. -/
def Entered (t : TagInfo) (es : List TagOp) : Prop :=
  ∀ x y, isTag x → isTag y → t.tagOpInfo (tagKey x y) =
    if ∃ e ∈ es, e.tag1 = x ∧ e.tag2 = y then some (permitted es x y) else none

theorem permitted_eq_zero (h : ∀ e ∈ es, ¬ e.Joins x y) : permitted es x y = 0 := by
  rw [permitted, filter_eq_nil_iff.mpr (by simpa using h)]
  rfl

theorem Entered.getTag2TagOpType (h : Entered t es) (hx : isTag x) (hy : isTag y) :
    t.getTag2TagOpType x y = permitted es x y := by
  rw [TagInfo.getTag2TagOpType, h x y hx hy, h y x hy hx, @permitted_comm y]
  by_cases hxy : ∃ e ∈ es, e.tag1 = x ∧ e.tag2 = y
  · rw [if_pos hxy]
  rw [if_neg hxy]
  split
  · nomatch ‹none = some _›
  split
  · rfl
  next hyx =>
  refine (permitted_eq_zero ?_).symm
  rintro e he (heq | heq)
  · exact hxy ⟨e, he, heq⟩
  · exact hyx ⟨e, he, heq⟩

theorem Entered.enter (h : Entered t es) (hone : OneWay (es ++ [e]))
    (htag : isTag e.tag2) : Entered (t.enter e) (es ++ [e]) := by
  intro x y hx hy
  rw [permitted_concat]
  by_cases hnew : e.tag1 = x ∧ e.tag2 = y
  · obtain ⟨rfl, rfl⟩ := hnew
    have hjoins : e.Joins e.tag1 e.tag2 := .inl ⟨rfl, rfl⟩
    rw [if_pos hjoins, if_pos ⟨e, by simp, rfl, rfl⟩, ← h.getTag2TagOpType hx hy]
    exact Function.update_self ..
  have hkey : tagKey x y ≠ tagKey e.tag1 e.tag2 := fun heq =>
    hnew ((tagKey_inj hy htag heq).imp Eq.symm Eq.symm)
  have hold : (∃ e' ∈ es ++ [e], e'.tag1 = x ∧ e'.tag2 = y) ↔
      ∃ e' ∈ es, e'.tag1 = x ∧ e'.tag2 = y := by
    simp [or_and_right, exists_or, hnew]
  refine (Function.update_of_ne hkey _ _).trans ((h x y hx hy).trans ?_)
  rw [if_congr hold rfl rfl]
  split
  · next hentry =>
    obtain ⟨e', he', rfl, rfl⟩ := hentry
    rw [if_neg]
    rintro (heq | ⟨heq1, heq2⟩)
    · exact hnew heq
    -- the entry names the two tags the other way round
    have hsame := hone e' (mem_append_left _ he') e (by simp) heq2.symm heq1.symm
    exact hnew ⟨heq1.trans hsame.symm, heq2.trans hsame⟩
  · rfl

theorem entered_foldl {es : List TagOp} (htags : ∀ e ∈ es, isTag e.tag2) (hone : OneWay es) :
    Entered (es.foldl TagInfo.enter empty) es := by
  induction es using reverseRecOn with
  | nil => exact fun x y _ _ => (if_neg (by simp)).symm
  | append_singleton es e ih =>
    rw [foldl_concat]
    have hold : ∀ e' ∈ es, e' ∈ es ++ [e] := fun e' => mem_append_left _
    refine (ih (fun e' he' => htags e' (hold e' he')) ?_).enter hone (htags e (by simp))
    exact fun e₁ h₁ e₂ h₂ => hone e₁ (hold e₁ h₁) e₂ (hold e₂ h₂)

/-- The order of two tags makes no difference and they have the kinds of all their entries, if no
two entries name them in opposite orders. -/
theorem cumulative_of_oneWay {items : List Bytes} (h : OneWay (items.filterMap tagOp)) :
    Cumulative items := by
  have hall : addAll items = (items.filterMap tagOp).foldl TagInfo.enter empty := by
    simp only [addAll, addOneTagOpInfo_eq, foldl_filterMap]
    congr 1
    funext t item
    cases tagOp item <;> rfl
  have htags : ∀ e ∈ items.filterMap tagOp, isTag e.tag2 := by
    intro e he
    obtain ⟨item, -, hitem⟩ := mem_filterMap.mp he
    exact isTag_of_tagOp hitem
  have hent := entered_foldl htags h
  rw [← hall] at hent
  intro x y hx hy
  rw [hent.getTag2TagOpType hx hy, hent.getTag2TagOpType hy hx]
  exact ⟨permitted_comm, rfl⟩

theorem cumulative_two_ops :
    Cumulative [Bytes.ofString "a:HOST_TCP:b", Bytes.ofString "a:HOST_RDMA:b"] := by
  refine cumulative_of_oneWay ?_
  unfold OneWay
  decide +kernel

/-- After an entry in the opposite order, one order keeps what it had. -/
theorem opposite_entry_one_sided :
    let items := [Bytes.ofString "a:HOST_TCP:b", Bytes.ofString "b:HOST_RDMA:a"]
    (addAll items).getTag2TagOpType (Bytes.ofString "a") (Bytes.ofString "b") = 16 ∧
      (addAll items).getTag2TagOpType (Bytes.ofString "b") (Bytes.ofString "a") = 24 ∧
      ¬ Cumulative items := by
  refine ⟨by decide +kernel, by decide +kernel, fun h => ?_⟩
  obtain ⟨hsame, -⟩ := h (Bytes.ofString "a") (Bytes.ofString "b") (by decide) (by decide)
  exact absurd hsame (by decide +kernel)

end TagInfo

end Hybm
