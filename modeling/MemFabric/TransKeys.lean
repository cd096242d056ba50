/-
The keys of the trans store helper.

A trans client talks to the configuration store through a prefix store whose prefix names the
entity.  Its keys are the one of its rank id, the list of all ranks and, for each role and kind
of record, an info key (the records), a count key and one that is only asked for, to get a
recycled slot.  The fault handler tells them apart by searching for their texts.

* `TransKey.key_injective` — different keys are different byte strings.
* `find_rankKey_idText` — the key of a name without an underscore is not taken for one of the
  others.
-/
import MemFabric.Server

namespace Trans

open List

open ConfigStore

/-- `SMEM_TRANS_SENDER` and `SMEM_TRANS_RECEIVER`, the roles `Initialize` accepts. -/
inductive Role
  | sender
  | receiver
  deriving DecidableEq

instance : Fintype Role := ⟨{.sender, .receiver}, fun r => by cases r <;> decide⟩

/-- Every client has one device record and any number of slice records. -/
inductive RecordKind
  | device
  | slice
  deriving DecidableEq

instance : Fintype RecordKind := ⟨{.device, .slice}, fun k => by cases k <;> decide⟩

/-- The prefix of the store: `entityId_` is `(16U << 3U) + 1U`. -/
def storePrefix : Bytes := Bytes.ofString "/trans/129/"

def autoRankKeyPrefix : Bytes := Bytes.ofString "auto_ranking_key_"

def clusterRanksInfoKey : Bytes := Bytes.ofString "cluster_ranks_info"

/-- `SENDER_COUNT_KEY`, `RECEIVER_COUNT_KEY`, `SENDER_TOTAL_SLICE_COUNT_KEY` and
`RECEIVER_TOTAL_SLICE_COUNT_KEY`. -/
def countText : RecordKind → Role → Bytes
  | .device, .sender => Bytes.ofString "count_for_senders"
  | .device, .receiver => Bytes.ofString "receiver_for_senders"
  | .slice, .sender => Bytes.ofString "senders_total_slices_count"
  | .slice, .receiver => Bytes.ofString "receivers_total_slices_count"

/-- `SENDER_DEVICE_INFO_KEY`, `RECEIVER_DEVICE_INFO_KEY`, `SENDER_SLICES_INFO_KEY` and
`RECEIVER_SLICES_INFO_KEY`. -/
def infoText : RecordKind → Role → Bytes
  | .device, .sender => Bytes.ofString "devices_info_for_senders"
  | .device, .receiver => Bytes.ofString "devices_info_for_receivers"
  | .slice, .sender => Bytes.ofString "senders_all_slices_info"
  | .slice, .receiver => Bytes.ofString "receivers_all_slices_info"

/-- `SENDER_GET_DEVICE_ID_KEY`, `RECEIVER_GET_DEVICE_ID_KEY`, `SENDER_GET_SLICES_ID_KEY` and
`RECEIVER_GET_SLICES_ID_KEY`. -/
def idText : RecordKind → Role → Bytes
  | .device, .sender => Bytes.ofString "get_devices_id_for_senders"
  | .device, .receiver => Bytes.ofString "get_devices_id_for_receivers"
  | .slice, .sender => Bytes.ofString "get_senders_all_slices_id"
  | .slice, .receiver => Bytes.ofString "get_receivers_all_slices_id"

/-- The keys a client uses. -/
inductive TransKey
  | rank (name : Bytes)
  | ranksInfo
  | count (k : RecordKind) (r : Role)
  | info (k : RecordKind) (r : Role)
  | id (k : RecordKind) (r : Role)
  deriving DecidableEq

def TransKey.text : TransKey → Bytes
  | rank name => autoRankKeyPrefix ++ name
  | ranksInfo => clusterRanksInfoKey
  | count k r => countText k r
  | info k r => infoText k r
  | id k r => idText k r

def TransKey.key (k : TransKey) : Key := storePrefix ++ k.text

theorem TransKey.text_injective : Function.Injective TransKey.text := by
  have hranks : ¬ autoRankKeyPrefix <+: clusterRanksInfoKey := by decide +kernel
  have hcount : ∀ k r, ¬ autoRankKeyPrefix <+: countText k r := by decide +kernel
  have hinfo : ∀ k r, ¬ autoRankKeyPrefix <+: infoText k r := by decide +kernel
  have hid : ∀ k r, ¬ autoRankKeyPrefix <+: idText k r := by decide +kernel
  -- The texts without a name in them are closed terms.
  have hcc : ∀ k r k' r', countText k r = countText k' r' → k = k' ∧ r = r' := by decide +kernel
  have hii : ∀ k r k' r', infoText k r = infoText k' r' → k = k' ∧ r = r' := by decide +kernel
  have hdd : ∀ k r k' r', idText k r = idText k' r' → k = k' ∧ r = r' := by decide +kernel
  have hrc : ∀ k r, clusterRanksInfoKey ≠ countText k r := by decide +kernel
  have hri : ∀ k r, clusterRanksInfoKey ≠ infoText k r := by decide +kernel
  have hrd : ∀ k r, clusterRanksInfoKey ≠ idText k r := by decide +kernel
  have hci : ∀ k r k' r', countText k r ≠ infoText k' r' := by decide +kernel
  have hcd : ∀ k r k' r', countText k r ≠ idText k' r' := by decide +kernel
  have hid' : ∀ k r k' r', infoText k r ≠ idText k' r' := by decide +kernel
  rintro (name | _ | ⟨k, r⟩ | ⟨k, r⟩ | ⟨k, r⟩) (name' | _ | ⟨k', r'⟩ | ⟨k', r'⟩ | ⟨k', r'⟩) h <;>
    simp only [TransKey.text] at h
  all_goals grind [prefix_append, append_cancel_left]

theorem TransKey.key_injective : Function.Injective TransKey.key := fun _ _ h =>
  TransKey.text_injective (append_cancel_left h)

@[simp] theorem TransKey.key_inj {k k' : TransKey} : k.key = k'.key ↔ k = k' :=
  TransKey.key_injective.eq_iff

theorem TransKey.key_ne_nil (k : TransKey) : k.key ≠ [] := by
  rw [TransKey.key, storePrefix]
  exact append_ne_nil_of_left_ne_nil (by decide) _

/-! ### Searching in a key -/

/-- `key.find(text) != std::string::npos`. -/
def find (key : Key) (text : Bytes) : Bool := decide (text <:+: key)

theorem find_rankKey (name : Bytes) : find (TransKey.rank name).key autoRankKeyPrefix = true :=
  decide_eq_true ⟨storePrefix, name, rfl⟩

theorem find_autoRankKeyPrefix (key : TransKey) (h : ∀ name, key ≠ .rank name) :
    find key.key autoRankKeyPrefix = false := by
  have hranks : find TransKey.ranksInfo.key autoRankKeyPrefix = false := by decide +kernel
  have hcount : ∀ k r, find (TransKey.count k r).key autoRankKeyPrefix = false := by decide +kernel
  have hinfo : ∀ k r, find (TransKey.info k r).key autoRankKeyPrefix = false := by decide +kernel
  have hid : ∀ k r, find (TransKey.id k r).key autoRankKeyPrefix = false := by decide +kernel
  cases key with
  | rank name => exact absurd rfl (h name)
  | ranksInfo => exact hranks
  | count k r => exact hcount k r
  | info k r => exact hinfo k r
  | id k r => exact hid k r

theorem find_id (k k' : RecordKind) (r r' : Role) :
    find (TransKey.id k r).key (idText k' r') = decide (k = k' ∧ r = r') := by
  revert k k' r r'
  decide +kernel

theorem find_info (k k' : RecordKind) (r r' : Role) :
    find (TransKey.info k r).key (infoText k' r') = decide (k = k' ∧ r = r') := by
  revert k k' r r'
  decide +kernel

theorem find_count (k k' : RecordKind) (r r' : Role) :
    find (TransKey.count k r).key (countText k' r') = decide (k = k' ∧ r = r') := by
  revert k k' r r'
  decide +kernel

theorem find_ranksInfo (k : RecordKind) (r : Role) :
    find TransKey.ranksInfo.key (infoText k r) = false := by
  revert k r
  decide +kernel

theorem infix_of_not_mem {q a b : Bytes} {c : UInt8} (hc : c ∉ b) (h : q ++ [c] <:+: a ++ b) :
    q ++ [c] <:+: a := by
  obtain ⟨u, v, huv⟩ := h
  rcases append_eq_append_iff.mp huv with ⟨d, ha, -⟩ | ⟨d, hd, hb⟩
  · exact ⟨u, d, ha.symm⟩
  rcases eq_nil_or_concat d with rfl | ⟨d, e, rfl⟩
  · exact ⟨u, [], by rw [append_nil, hd, append_nil]⟩
  -- The last byte of the text would be one of `b`.
  rw [concat_eq_append, ← append_assoc, ← append_assoc] at hd
  have hce : c = e := singleton_inj.mp (append_inj' hd rfl).2
  refine absurd ?_ hc
  simp [hb, hce]

theorem find_rankKey_idText {name : Bytes} (h : 95 ∉ name) (k : RecordKind) (r : Role) :
    find (TransKey.rank name).key (idText k r) = false := by
  have hget : ∀ k r, Bytes.ofString "get" ++ [95] <+: idText k r := by decide +kernel
  have hnot : ¬ Bytes.ofString "get" ++ [95] <:+: storePrefix ++ autoRankKeyPrefix := by decide +kernel
  refine decide_eq_false fun hfind => hnot (infix_of_not_mem h ?_)
  have hkey : (TransKey.rank name).key = storePrefix ++ autoRankKeyPrefix ++ name :=
    (append_assoc ..).symm
  rw [← hkey]
  exact (hget k r).isInfix.trans hfind

end Trans
