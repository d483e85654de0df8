import PmBackend.Blocks

set_option autoImplicit false

namespace PmBackend

open ByteMemory

-- the variable `commit` of `tx_log_check`
def slotAccepted (h : Handle) (m : Mem) (slot : Nat) : Bool :=
  utilChecksumVerify h m slot (u64 (sizeofTxSlot + slotSize m slot)) &&
    slotStatus m slot == TxStatus.commited.code

theorem checkSlot_accepted (h : Handle) (s : Store) (txSlotId : Nat) :
    checkSlot h s txSlotId =
      match backendTxDirect h.backend txSlotId with
      | none => some s
      | some slot =>
        if slotStatus s.pool.mem slot = TxStatus.empty.code then some s
        else
          (checkWalk h txSlotId slot (slotAccepted h s.pool.mem slot) (2 ^ 64) (slot + sizeofTxSlot) s).map
            fun s => slotReset h s slot txSlotId := rfl

-- the bytes under the checksum of a commit, without the field of the checksum itself
def sealedBytes (m : Mem) (slot : Nat) : Set Nat := {x | slot + 8 ≤ x ∧ x < slot + slotSize m slot}

-- recovery accepts the slot while its bytes stay, and not when a byte under its checksum changed so that the checksum
-- is another one
structure SealHolds (h : Handle) (m : Mem) (slot : Nat) : Prop where
  accepted : ∀ m', (∀ x ∈ span slot h.backend.txSlotSize, m' x = m x) → slotAccepted h m' slot = true
  rejected : ∀ m', ChangedIn (sealedBytes m slot) m m' →
    checksumOf h m' slot (slotSize m slot) ≠ checksumOf h m slot (slotSize m slot) →
    slotAccepted h m' slot = false

-- the checksum over 24 bytes more than the commit had under it is the same one; with a changed byte it is another
-- one, or the status is
structure SealAgrees (h : Handle) (m : Mem) (slot : Nat) : Prop where
  longer : ∀ m', (∀ x ∈ span slot h.backend.txSlotSize, m' x = m x) →
    checksumOf h m' slot (u64 (sizeofTxSlot + slotSize m slot)) = checksumOf h m slot (slotSize m slot)
  changed : ∀ m', ChangedIn (sealedBytes m slot) m m' →
    checksumOf h m' slot (slotSize m slot) ≠ checksumOf h m slot (slotSize m slot) →
    slotStatus m' slot = TxStatus.commited.code →
    checksumOf h m' slot (u64 (sizeofTxSlot + slotSize m' slot)) ≠ checksumOf h m slot (slotSize m slot)

section Seals

variable {h : Handle} {s s' : Store} {m m' : Mem} {txSlotId slot : Nat}

theorem checksumOf_congr (same : ∀ x, slot + 8 ≤ x → m' x = m x) (len : Nat) :
    checksumOf h m' slot len = checksumOf h m slot len := by
  unfold checksumOf masked
  rw [read_congr m m' _ _ fun x lower _ => same x lower]

theorem slotAccepted_iff :
    slotAccepted h m slot = true ↔
      flch64 m slot = checksumOf h m slot (u64 (sizeofTxSlot + slotSize m slot)) ∧
        slotStatus m slot = TxStatus.commited.code := by
  simp [slotAccepted, utilChecksumVerify]

theorem txSlotCommit_seals (direct : backendTxDirect h.backend (txIndex txSlotId) = some slot)
    (sealed : txSlotCommit h s txSlotId = (s', .ok)) :
    slotStatus s'.pool.mem slot = TxStatus.commited.code ∧
      flch64 s'.pool.mem slot = checksumOf h s'.pool.mem slot (slotSize s'.pool.mem slot) := by
  -- a commit stores the status and the checksum over as many bytes as the size says
  unfold txSlotCommit at sealed
  split at sealed
  · cases sealed
  · rw [direct] at sealed
    simp only at sealed
    split at sealed
    · cases sealed
    · cases sealed
      have size : slotSize (txSlotChecksum h (s.pool.setStatus slot .commited) slot (txIndex txSlotId)).mem slot =
          slotSize (s.pool.setStatus slot .commited).mem slot := by
        simp only [slotSize, txSlotChecksum_mem]
        exact word_write_disjoint _ _ _ _ _ (by simp)
      refine ⟨?_, ?_⟩
      · simp only [slotStatus, txSlotChecksum_mem, Pool.store_mem]
        rw [word_write_disjoint _ _ _ _ _ (by simp), word_write_same]
        decide
      · have beyond : ∀ x, slot + 8 ≤ x →
            (txSlotChecksum h (s.pool.setStatus slot .commited) slot (txIndex txSlotId)).mem x =
              (s.pool.setStatus slot .commited).mem x := by
          intro x lower
          rw [txSlotChecksum_mem]
          exact write_outside _ _ _ _ (by rw [length_encode]; omega)
        rw [size, checksumOf_congr beyond, flch64, txSlotChecksum_mem, word_write_same]
        exact Nat.mod_eq_of_lt (h.checksum _).toNat_lt

theorem changed_flch (changed : ChangedIn (sealedBytes m slot) m m') : flch64 m' slot = flch64 m slot := by
  apply changed.word
  intro x inside
  have lower : slot + 8 ≤ x := inside.1
  omega

theorem header_same (room : 24 ≤ h.backend.txSlotSize) (same : ∀ x ∈ span slot h.backend.txSlotSize, m' x = m x) :
    flch64 m' slot = flch64 m slot ∧ slotStatus m' slot = slotStatus m slot ∧ slotSize m' slot = slotSize m slot := by
  have word : ∀ offset width, offset + width ≤ 24 → m'.word (slot + offset) width = m.word (slot + offset) width := by
    intro offset width inside
    apply word_congr
    intro x lower upper
    apply same
    rw [mem_span]
    omega
  exact ⟨word 0 8 (by omega), word 8 4 (by omega), word 16 8 (by omega)⟩

theorem sealed_accepted_iff (room : 24 ≤ h.backend.txSlotSize)
    (direct : backendTxDirect h.backend (txIndex txSlotId) = some slot)
    (sealed : txSlotCommit h s txSlotId = (s', .ok)) :
    SealHolds h s'.pool.mem slot ↔ SealAgrees h s'.pool.mem slot := by
  obtain ⟨status, flch⟩ := txSlotCommit_seals direct sealed
  constructor
  · intro holds
    refine ⟨fun m' same => ?_, fun m' changed differs commited equal => ?_⟩
    · obtain ⟨flch', -, size'⟩ := header_same room same
      have accepted := (slotAccepted_iff.mp (holds.accepted m' same)).1
      rw [flch', flch, size'] at accepted
      exact accepted.symm
    · have accepted : slotAccepted h m' slot = true :=
        slotAccepted_iff.mpr ⟨by rw [changed_flch changed, flch, equal], commited⟩
      rw [holds.rejected m' changed differs] at accepted
      cases accepted
  · intro agrees
    refine ⟨fun m' same => ?_, fun m' changed differs => ?_⟩
    · obtain ⟨flch', status', size'⟩ := header_same room same
      refine slotAccepted_iff.mpr ⟨?_, by rw [status', status]⟩
      rw [flch', flch, size', agrees.longer m' same]
    · by_contra accepted
      rw [Bool.not_eq_false] at accepted
      obtain ⟨verified, commited⟩ := slotAccepted_iff.mp accepted
      rw [changed_flch changed, flch] at verified
      exact agrees.changed m' changed differs commited verified.symm

theorem sealed_refused
    (direct : backendTxDirect h.backend (txIndex txSlotId) = some slot)
    (sealed : txSlotCommit h s txSlotId = (s', .ok))
    (started : slotSize s'.pool.mem slot + 24 < 2 ^ 64)
    (separates : ∀ bytes bytes', h.checksum bytes = h.checksum bytes' → bytes.length = bytes'.length) :
    slotAccepted h s'.pool.mem slot = false := by
  -- a checksum that tells ranges of different lengths apart refuses every commit
  obtain ⟨-, flch⟩ := txSlotCommit_seals direct sealed
  by_contra accepted
  rw [Bool.not_eq_false] at accepted
  have verified := (slotAccepted_iff.mp accepted).1
  have hdr : sizeofTxSlot = 24 := rfl
  rw [flch, u64_of_lt (by omega)] at verified
  have lengths := separates _ _ (UInt64.toNat_inj.mp verified)
  simp only [masked, List.length_append, List.length_replicate, length_read] at lengths
  omega

end Seals

-- a checksum of the first 24 bytes of a range
def headerFletcher64 (bytes : List UInt8) : UInt64 :=
  if bytes.length < 24 then 1 else nonzeroFletcher64 (bytes.take 24)

def headerHandle : Handle := { flatHandle with checksum := headerFletcher64 }

theorem headerHandle_checksum (m : Mem) (slot len : Nat) : checksumOf headerHandle m slot len =
    if len < 24 then 1 else (nonzeroFletcher64 (masked m slot 24)).toNat := by
  have length : (masked m slot len).length = min 8 len + (len - 8) := by
    rw [masked, List.length_append, List.length_replicate, length_read]
  change (headerFletcher64 (masked m slot len)).toNat = _
  unfold headerFletcher64
  by_cases short : len < 24
  · rw [if_pos (by omega), if_pos short]
    rfl
  · have front : (masked m slot len).take 24 = masked m slot 24 := by
      have most : min 8 len = 8 := by omega
      have words : min (24 - 8) (len - 8) = 24 - 8 := by omega
      rw [masked, masked, most, List.take_append, List.length_replicate, List.take_replicate, Mem.read, Mem.read,
        ← List.map_take, List.take_range, words]
      rfl
    rw [if_neg (by omega), if_neg short, front]

-- a change of one byte is logged and committed
def sealedChange : Store :=
  (txSlotCommit headerHandle (pmbTput headerHandle (begunStore headerHandle) 1 (onePair 1)).1 1).1

theorem sealed_accepted_sample : slotSize sealedChange.pool.mem (headerHandle.slotAddr 0) = 49 ∧
    SealHolds headerHandle sealedChange.pool.mem (headerHandle.slotAddr 0) := by
  have commited : (txSlotCommit headerHandle (pmbTput headerHandle (begunStore headerHandle) 1 (onePair 1)).1 1).2 =
    .ok := by decide +kernel
  have size : slotSize sealedChange.pool.mem (headerHandle.slotAddr 0) = 49 := by decide +kernel
  have value : (nonzeroFletcher64 (masked sealedChange.pool.mem (headerHandle.slotAddr 0) 24)).toNat ≠ 1 := by
    decide +kernel
  have agrees : SealAgrees headerHandle sealedChange.pool.mem (headerHandle.slotAddr 0) := by
    constructor
    · intro m' same
      have header : masked m' (headerHandle.slotAddr 0) 24 = masked sealedChange.pool.mem (headerHandle.slotAddr 0) 24 := by
        unfold masked
        rw [read_congr _ _ _ _ fun x lower upper => same x ?_]
        have slots : headerHandle.backend.txSlotSize = 134217728 := rfl
        rw [mem_span]
        omega
      have longer : u64 (sizeofTxSlot + 49) = 73 := u64_of_lt (by decide)
      rw [size, longer, headerHandle_checksum, headerHandle_checksum, header, if_neg (by decide), if_neg (by decide)]
    · intro m' _ differs _ equal
      rw [size, headerHandle_checksum, headerHandle_checksum, if_neg (by decide), if_neg (by decide)] at differs
      rw [size, headerHandle_checksum, headerHandle_checksum, if_neg (show ¬49 < 24 by decide)] at equal
      split at equal
      · exact value equal.symm
      · exact differs equal
  exact ⟨size, (sealed_accepted_iff (by decide) (by decide +kernel) (Prod.ext rfl commited)).mpr agrees⟩

-- a commited slot is refused although no byte of it was changed
theorem commit_refused :
    (txSlotCommit flatHandle (begunStore flatHandle) 1).2 = .ok ∧
      slotStatus (txSlotCommit flatHandle (begunStore flatHandle) 1).1.pool.mem (flatHandle.slotAddr 0) =
        TxStatus.commited.code ∧
      slotAccepted flatHandle (txSlotCommit flatHandle (begunStore flatHandle) 1).1.pool.mem
        (flatHandle.slotAddr 0) = false ∧
      ¬SealHolds flatHandle (txSlotCommit flatHandle (begunStore flatHandle) 1).1.pool.mem
        (flatHandle.slotAddr 0) := by
  have refused : slotAccepted flatHandle (txSlotCommit flatHandle (begunStore flatHandle) 1).1.pool.mem
      (flatHandle.slotAddr 0) = false := by decide +kernel
  refine ⟨by decide +kernel, by decide +kernel, refused, fun holds => ?_⟩
  have accepted := holds.accepted _ fun _ _ => rfl
  rw [refused] at accepted
  cases accepted

end PmBackend
