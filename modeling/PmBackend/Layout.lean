import PmBackend.Geometry
import PmBackend.Model.TxLog

set_option autoImplicit false

namespace PmBackend

open ByteMemory

def Handle.slotAddr (h : Handle) (i : Nat) : Nat := h.backend.txLog + i * h.backend.txSlotSize

def Handle.logEnd (h : Handle) : Nat := h.slotAddr h.txSlotsCount

structure Handle.LogLayout (h : Handle) : Prop where
  slots_count : h.backend.txSlotsCount = h.txSlotsCount
  some_slot : 1 ≤ h.txSlotsCount
  -- the loops over the slots count in a `uint8_t`
  few_slots : h.txSlotsCount < 255
  -- room for the header of a slot
  slot_room : 24 ≤ h.backend.txSlotSize
  end_lt : h.logEnd < 2 ^ 64
  blocks_above : ∀ id obj, backendDirect h.backend id = some obj → h.logEnd ≤ obj

theorem Backend.Mapped.logLayout {h : Handle} {args : MapArgs} (exact : args.NoWrap)
    (created : backendMapCommon args none = .ok h.backend)
    (count : h.txSlotsCount = args.txSlotsCount) (some_slot : 1 ≤ args.txSlotsCount)
    (few_slots : args.txSlotsCount < 255)
    (slot_room : 24 ≤ roundup args.txSlotSize PMB_FORMAT_DATA_ALIGN)
    (slot_small : roundup args.txSlotSize PMB_FORMAT_DATA_ALIGN < 2 ^ 32)
    (first_meta : h.backend.metaNlba = 0 ∨ h.backend.metaBsize ≤ h.backend.dataNlba * h.backend.bsize) :
    h.LogLayout := by
  -- a pool made for the handle has this layout, unless the first meta block lies before the data
  have mapped := backendMapCommon_mapped exact created
  have fields : h.backend.txSlotsCount = args.txSlotsCount ∧
      h.backend.txSlotSize = roundup args.txSlotSize PMB_FORMAT_DATA_ALIGN := by
    simp only [backendMapCommon] at created
    split at created
    · cases created
    · split at created
      · cases created
      · obtain ⟨-, -, slots, slotSize⟩ := backendLayout_fields created
        exact ⟨slots, slotSize.trans (u32_of_lt slot_small)⟩
  obtain ⟨slots, slotSize⟩ := fields
  have log_end : h.logEnd = h.backend.dataArea := by
    rw [Handle.logEnd, Handle.slotAddr, count, slotSize, mapped.dataArea_eq]
  have dataEnd := mapped.dataEnd
  have metaEnd := mapped.metaEnd
  have total := mapped.end_lt
  refine ⟨by rw [slots, count], by rwa [count], by rwa [count], by rwa [slotSize], by omega, ?_⟩
  intro id obj direct
  rw [log_end]
  have known := (backendDirect_known mapped.ids_lt id).mp ⟨obj, direct⟩
  rcases lt_trichotomy id h.backend.dataNlba with data | first | later
  · rw [mapped.direct_data data] at direct
    cases direct
    omega
  · have before := first_meta.resolve_left (by omega)
    have := mapped.metaBsize_pos
    rw [first, mapped.direct_first_meta (by omega)] at direct
    cases direct
    unfold u64
    omega
  · obtain ⟨k, rfl⟩ : ∃ k, id = h.backend.dataNlba + k + 1 := ⟨id - h.backend.dataNlba - 1, by omega⟩
    rw [mapped.direct_meta (by omega)] at direct
    cases direct
    omega

def Handle.slotArea (h : Handle) (i : Nat) : Set Nat := span (h.slotAddr i) h.backend.txSlotSize

def Handle.blockArea (h : Handle) : Set Nat := {x | h.logEnd ≤ x}

section Slots

variable {h : Handle}

theorem Handle.slot_step {i j : Nat} (less : i < j) : h.slotAddr i + h.backend.txSlotSize ≤ h.slotAddr j := by
  have := block_step h.backend.txSlotSize less
  unfold slotAddr
  omega

theorem Handle.slot_below {i : Nat} (known : i < h.txSlotsCount) :
    h.slotAddr i + h.backend.txSlotSize ≤ h.logEnd := slot_step known

theorem Handle.LogLayout.slot_eq (layout : h.LogLayout) {i : Nat} (known : i < h.txSlotsCount) :
    backendTxDirect h.backend i = some (h.slotAddr i) := by
  have below := Handle.slot_below known
  have small := layout.end_lt
  have room := layout.slot_room
  unfold Handle.slotAddr at below ⊢
  simp only [backendTxDirect, layout.slots_count, known, if_true]
  rw [u64_of_lt (n := i * h.backend.txSlotSize) (by omega), u64_of_lt (by omega)]

theorem Handle.LogLayout.slot_none (layout : h.LogLayout) {i : Nat} (unknown : h.txSlotsCount ≤ i) :
    backendTxDirect h.backend i = none := by
  have missing : ¬i < h.txSlotsCount := by omega
  simp [backendTxDirect, layout.slots_count, missing]

theorem Handle.LogLayout.slot_some (layout : h.LogLayout) {i slot : Nat}
    (direct : backendTxDirect h.backend i = some slot) : i < h.txSlotsCount ∧ slot = h.slotAddr i := by
  by_cases known : i < h.txSlotsCount
  · rw [layout.slot_eq known] at direct
    cases direct
    exact ⟨known, rfl⟩
  · rw [layout.slot_none (by omega)] at direct
    cases direct

theorem Handle.LogLayout.txIndex_eq (layout : h.LogLayout) {txSlotId : Nat} (positive : txSlotId ≠ 0)
    (known : txSlotId ≤ h.txSlotsCount) : txIndex txSlotId = txSlotId - 1 := by
  have few := layout.few_slots
  rw [txIndex, sub64_of_le (by omega) (by omega)]
  omega

theorem Handle.LogLayout.txDirect_eq (layout : h.LogLayout) {txSlotId : Nat} (positive : txSlotId ≠ 0)
    (known : txSlotId ≤ h.txSlotsCount) :
    backendTxDirect h.backend (txIndex txSlotId) = some (h.slotAddr (txSlotId - 1)) := by
  rw [layout.txIndex_eq positive known, layout.slot_eq (by omega)]

theorem slot_word_frame {i j : Nat} {m m' : Mem} (known : i < h.txSlotsCount) (other : i ≠ j)
    (changed : ChangedIn (h.slotArea j ∪ h.blockArea) m m') (offset width : Nat)
    (inside : offset + width ≤ h.backend.txSlotSize) :
    m'.word (h.slotAddr i + offset) width = m.word (h.slotAddr i + offset) width := by
  apply changed.word
  intro x area
  have below := Handle.slot_below known
  rcases area with slot | block
  · simp only [Handle.slotArea, mem_span] at slot
    rcases lt_or_gt_of_ne other with less | greater
    · have := Handle.slot_step (h := h) less
      omega
    · have := Handle.slot_step (h := h) greater
      omega
  · simp only [Handle.blockArea, Set.mem_ofPred_eq] at block
    omega

end Slots

end PmBackend
