/-
Copies of a BM object.

`DataCopy` finds the direction of a copy from the type that the caller gives and from the
ranges in which the two addresses are; `DataCopyBatch` finds one direction for the whole batch,
from the first element, and looks at no other one.
-/
import MemFabric.BmEntry
import MemFabric.DataOperator

namespace Bm

open Hybm

/-- `smem_bm_copy_type`. -/
inductive CopyType
  | l2g
  | g2l
  | g2h
  | h2g
  | l2gh
  | gh2l
  | gh2h
  | h2gh
  | g2g
  | auto
  | butt
  deriving DecidableEq

/-- The error codes of the two calls. -/
inductive Refusal
  | invalidParam
  | notInitialized
  deriving DecidableEq

/-- `directMap`; `none` is `SMEM_MEM_TYPE_BUTT`. -/
def directMap : Option BmMemType → Option BmMemType → CopyDirection
  | some .localDevice, some .device => .localDeviceToGlobalDevice
  | some .localDevice, some .host => .localDeviceToGlobalHost
  | some .localHost, some .device => .localHostToGlobalDevice
  | some .localHost, some .host => .localHostToGlobalHost
  | some .device, some .localDevice => .globalDeviceToLocalDevice
  | some .device, some .localHost => .globalDeviceToLocalHost
  | some .device, some .device => .globalDeviceToGlobalDevice
  | some .device, some .host => .globalDeviceToGlobalHost
  | some .host, some .localDevice => .globalHostToLocalDevice
  | some .host, some .localHost => .globalHostToLocalHost
  | some .host, some .device => .globalHostToGlobalDevice
  | some .host, some .host => .globalHostToGlobalHost
  | _, _ => .butt

namespace Entry

variable (e : Entry) (inited : Bool) (t : CopyType)

def getHybmMemTypeFromGva (addr size : ℕ) : Option BmMemType :=
  if e.addrInHostGva addr size then some .host
  else if e.addrInDeviceGva addr size then some .device
  else none

/-- `TransToHybmDirection`; the two sizes are always the same. -/
def transToHybmDirection (item : CopyParams) : CopyDirection :=
  let srcMemType := e.getHybmMemTypeFromGva item.src item.dataSize
  let destMemType := e.getHybmMemTypeFromGva item.dest item.dataSize
  match t with
  | .l2g => directMap (some .localDevice) destMemType
  | .g2l => directMap srcMemType (some .localDevice)
  | .g2h => directMap srcMemType (some .localHost)
  | .h2g => directMap (some .localHost) destMemType
  | .h2gh => directMap (some .localHost) destMemType
  | .gh2h => directMap srcMemType (some .localHost)
  | _ => directMap srcMemType destMemType

/-- The direction that is asked for: `AUTO` leaves it to the entity. -/
def direct (item : CopyParams) : Except Refusal CopyDirection :=
  if t = .butt then .error .invalidParam
  else if !inited then .error .notInitialized
  else if t = .auto then .ok .auto
  else if e.transToHybmDirection t item = .butt then .error .invalidParam
  else .ok (e.transToHybmDirection t item)

/-- `DataCopy`: the direction with which `hybm_data_copy` is called, or what is returned. -/
def dataCopy (item : CopyParams) : Except Refusal CopyDirection :=
  if item.src = 0 ∨ item.dest = 0 ∨ item.dataSize = 0 then .error .invalidParam
  else e.direct inited t item

/-- `DataCopyBatch`: the direction with which `hybm_data_batch_copy` is called. -/
def dataCopyBatch (params : BatchCopyParams) : Except Refusal CopyDirection :=
  if params.sources = 0 ∨ params.destinations = 0 then .error .invalidParam
  else
    match params.items with
    | [] => .error .invalidParam
    | item :: _ => e.direct inited t item

/-- Every element is asked for in the direction in which it is copied alone, and the batch is
refused exactly if an element would be. -/
def BatchAgrees (params : BatchCopyParams) : Prop :=
  (∀ d, e.dataCopyBatch inited t params = .ok d →
    ∀ item ∈ params.items, e.dataCopy inited t item = .ok d) ∧
  ((∃ r, e.dataCopyBatch inited t params = .error r) ↔
    ∃ item ∈ params.items, ∃ r, e.dataCopy inited t item = .error r)

/-- What an element is asked for with: the entity finds the direction if the type is `AUTO`. -/
def asked (item : CopyParams) : CopyDirection :=
  if t = .auto then .auto else e.transToHybmDirection t item

/-- The copy is refused for its type, for the object, or for addresses without a direction. -/
def Refuses (item : CopyParams) : Prop :=
  t = .butt ∨ inited = false ∨ e.asked t item = .butt

def Complete (item : CopyParams) : Prop := item.src ≠ 0 ∧ item.dest ≠ 0 ∧ item.dataSize ≠ 0

/-- There is a first element.  If an array is null, some element is one that is refused; otherwise
the first one is refused for another reason than a null argument, or all are complete and asked for
like the first one. -/
def Uniform (params : BatchCopyParams) : Prop :=
  ∃ first ∈ params.items.head?,
    if params.sources = 0 ∨ params.destinations = 0 then
      ∃ item ∈ params.items, Complete item → e.Refuses inited t item
    else e.Refuses inited t first ∨
      ∀ item ∈ params.items, Complete item ∧ e.asked t item = e.asked t first

end Entry

variable {e : Entry} {inited : Bool} {t : CopyType} {params : BatchCopyParams}

namespace Entry

variable {item : CopyParams} {d : CopyDirection}

theorem direct_eq_ok_iff :
    e.direct inited t item = .ok d ↔ ¬ e.Refuses inited t item ∧ e.asked t item = d := by
  unfold direct Refuses asked
  split_ifs <;> simp_all

theorem dataCopy_eq_ok_iff : e.dataCopy inited t item = .ok d ↔
    Complete item ∧ ¬ e.Refuses inited t item ∧ e.asked t item = d := by
  unfold dataCopy
  split_ifs with hnull
  · simp only [false_iff, Complete]
    tauto
  · rw [direct_eq_ok_iff, iff_and_self]
    exact fun _ => by simpa [Complete] using hnull

theorem dataCopy_error_iff : (∃ r, e.dataCopy inited t item = .error r) ↔
    (Complete item → e.Refuses inited t item) := by
  have hok := @dataCopy_eq_ok_iff e inited t item (e.asked t item)
  cases hcopy : e.dataCopy inited t item with
  | error r => simpa [hcopy] using hok
  | ok d =>
    obtain ⟨hcomplete, hrefuses, -⟩ := dataCopy_eq_ok_iff.mp hcopy
    simpa using ⟨hcomplete, hrefuses⟩

end Entry

/-- Two pages of host memory at `2 ^ 40` and one page of device memory at `2 ^ 41`, for two
ranks. -/
def hostAndDevice : Entry :=
  ⟨(twoPages Vmm.largePageSize).hybmOptions twoRanks, 2 ^ 40, 2 ^ 41⟩

end Bm
