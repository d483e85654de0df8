import PmBackend.LogContents
import PmBackend.LogOverflow

set_option autoImplicit false

namespace PmBackend

open ByteMemory

-- the sizes are `uint32_t` fields, and a block has room for a header
structure Handle.Words (h : Handle) : Prop where
  maxValLen_lt : h.maxValLen < 2 ^ 32
  blockSize_lt : ∀ id, h.backend.blockSize id < 2 ^ 32
  header_room : ∀ id, 32 ≤ h.backend.blockSize id

structure PmbPair.Words (kv : PmbPair) : Prop where
  keyLen_lt : kv.keyLen < 2 ^ 32
  valLen_lt : kv.valLen < 2 ^ 32
  offset_lt : kv.offset < 2 ^ 32

-- the ranges of the old block that `tputKeep` copies, in its order
def keepReads (h : Handle) (p : Pool) (obj old : Nat) (kv : PmbPair) : List (Nat × Nat) :=
  let value := obj + sizeofDataHdr + h.maxKeyLen
  let oldValue := old + sizeofDataHdr + h.maxKeyLen
  let dataLen := u32 (kv.valLen + kv.offset)
  if valLen p.mem old > 0 then
    let beginning := if kv.offset > valLen p.mem old then valLen p.mem old else kv.offset
    let p := backendMemcpy h p value (p.mem.read oldValue beginning)
    if valLen p.mem old > dataLen then
      [(oldValue, beginning), (oldValue + dataLen, valLen p.mem old - dataLen)]
    else [(oldValue, beginning)]
  else []

-- the block of `pmb_tput` before its checksum, and the number of bytes the checksum covers
def tputFilled (h : Handle) (p : Pool) (obj : Nat) (old : Option Nat) (kv : PmbPair) : Pool × Nat :=
  let objSize := u32 (sizeofDataHdr + h.maxKeyLen + u32 (kv.valLen + kv.offset))
  let p := tputHeader h p obj old kv
  if kv.valLen ≠ 0 then tputValue h p obj old kv objSize else (p, objSize)

theorem tputBlock_filled (h : Handle) (p : Pool) (obj : Nat) (old : Option Nat) (kv : PmbPair) :
    tputBlock h p obj old kv =
      utilChecksumInsert h (tputFilled h p obj old kv).1 obj (tputFilled h p obj old kv).2 := rfl

-- what is kept of an old value of `len` bytes lies in the old block, and has room in the new one
def KeptFits (h : Handle) (kv : PmbPair) (len oldRoom room : Nat) : Prop :=
  if kv.offset + kv.valLen < len then 32 + h.maxKeyLen + len ≤ oldRoom ∧ 32 + h.maxKeyLen + len ≤ room
  else min kv.offset len = 0 ∨ 32 + h.maxKeyLen + min kv.offset len ≤ oldRoom

-- the new bytes have room in the new block; without any, the checksum still covers the longest key
def ValueFits (h : Handle) (kv : PmbPair) (room : Nat) : Prop :=
  if kv.valLen = 0 then u32 (32 + h.maxKeyLen) ≤ room
  else 32 + h.maxKeyLen + (kv.offset + kv.valLen) ≤ room

section NewBlock

variable {h : Handle} {p q r : Pool} {obj old room oldRoom : Nat} {kv : PmbPair}

theorem tputKeep_reads (h : Handle) (p : Pool) (obj old : Nat) (kv : PmbPair) (objSize : Nat) :
    let copy := fun (p : Pool) (dest : Nat) (read : Nat × Nat) =>
      backendMemcpy h p (obj + sizeofDataHdr + h.maxKeyLen + dest) (p.mem.read read.1 read.2)
    (keepReads h p obj old kv = [] ∧ tputKeep h p obj old kv objSize = (p, objSize)) ∨
      (∃ first, keepReads h p obj old kv = [first] ∧
        tputKeep h p obj old kv objSize = (copy p 0 first, objSize)) ∨
      ∃ first rest, keepReads h p obj old kv = [first, rest] ∧
        tputKeep h p obj old kv objSize =
          ((copy (copy p 0 first) (u32 (kv.valLen + kv.offset)) rest).setValLen obj
              (valLen (copy (copy p 0 first) (u32 (kv.valLen + kv.offset)) rest).mem old),
            u32 (objSize + rest.2)) := by
  intro copy
  unfold keepReads tputKeep
  by_cases kept : valLen p.mem old > 0
  · simp only [if_pos kept]
    generalize (if kv.offset > valLen p.mem old then valLen p.mem old else kv.offset) = beginning
    split
    · exact Or.inr (Or.inr ⟨(_, beginning), (_, _), rfl, rfl⟩)
    · exact Or.inr (Or.inl ⟨(_, beginning), rfl, rfl⟩)
  · simp only [if_neg kept]
    exact Or.inl ⟨trivial, trivial⟩

theorem tputHeader_follows (previous : Option Nat) : p.Follows (tputHeader h p obj previous kv) := by
  unfold tputHeader
  exact ((((Pool.Follows.refl p).store _ _).store _ _).memcpy h _ _).store _ _ |>.store _ _

theorem tputKeep_follows (objSize : Nat) : p.Follows (tputKeep h p obj old kv objSize).1 := by
  have first := fun dest bytes => (Pool.Follows.refl p).memcpy h dest bytes
  rcases tputKeep_reads h p obj old kv objSize with ⟨-, kept⟩ | ⟨_, -, kept⟩ | ⟨_, _, -, kept⟩
  · rw [kept]
    exact Pool.Follows.refl p
  · rw [kept]
    exact first _ _
  · rw [kept]
    exact ((first _ _).memcpy h _ _).store _ _

theorem tputFilled_last (h : Handle) (p : Pool) (obj : Nat) (some_value : kv.valLen ≠ 0) (previous : Option Nat) :
    ∃ kept, p.Follows kept ∧ (tputFilled h p obj previous kv).1 =
      backendMemcpy h kept (obj + sizeofDataHdr + h.maxKeyLen + kv.offset) kv.valBytes := by
  have header : p.Follows (tputHeader h p obj previous kv) := tputHeader_follows previous
  unfold tputFilled
  simp only [if_pos some_value]
  unfold tputValue
  refine ⟨_, ?_, rfl⟩
  cases previous with
  | none => exact header
  | some oldObj => exact header.trans (tputKeep_follows _)

theorem tputFilled_value (some_value : kv.valLen ≠ 0) (small : room < 2 ^ 32)
    (fits : 32 + h.maxKeyLen + (kv.offset + kv.valLen) ≤ room) (previous : Option Nat) :
    tputFilled h p obj previous kv = tputValue h (tputHeader h p obj previous kv) obj previous kv
      (32 + h.maxKeyLen + (kv.offset + kv.valLen)) := by
  have hdr : sizeofDataHdr = 32 := rfl
  unfold tputFilled
  simp only [if_pos some_value]
  rw [u32_of_lt (n := kv.valLen + kv.offset) (by omega), u32_of_lt (by omega), hdr, Nat.add_comm kv.valLen]

end NewBlock

-- room in the block that is popped, and in the old block for what is copied from it
def PutFits (h : Handle) (s : Store) : Call → Prop
  | .tput _ kv =>
    (SmallUpdate h kv → kv.offset + kv.valLen < 2 ^ 32) ∧
      (¬SmallUpdate h kv →
        let room := h.backend.blockSize (caslistPop s.freeList 0).val
        32 + kv.keyLen ≤ room ∧ ValueFits h kv room ∧
          (kv.valLen ≠ 0 → ∀ old, backendGet h s.pool.mem kv.blkId = .ok old →
            KeptFits h kv (valLen s.pool.mem old) (h.backend.blockSize kv.blkId) room))
  | .tputMeta _ kv => 32 + kv.keyLen + kv.valLen ≤ h.backend.blockSize (caslistPop s.metaFreeList 0).val
  | _ => True

section Puts

variable {h : Handle} {s s' : Store} {i : Nat}

theorem keyBytes_eq {kv : PmbPair} (key : ∃ bytes, kv.key = some bytes) : kv.keyBytes.length = kv.keyLen := by
  obtain ⟨bytes, given⟩ := key
  rw [PmbPair.keyBytes, given]
  exact length_read _ _ _

theorem valBytes_eq {kv : PmbPair} (val : kv.valLen = 0 ∨ ∃ bytes, kv.val = some bytes) :
    kv.valBytes.length = kv.valLen := by
  have upper := valBytes_length kv
  rcases val with empty | ⟨bytes, given⟩
  · omega
  · rw [PmbPair.valBytes, given]
    exact length_read _ _ _

theorem OldBlock.unique {m : Mem} {blkId : Nat} {old old' : Option Nat} (first : OldBlock h m blkId old)
    (second : OldBlock h m blkId old') : old' = old := by
  rcases first with ⟨write, rfl⟩ | ⟨update, obj, found, rfl⟩
  · rcases second with ⟨-, same⟩ | ⟨update, -⟩
    · exact same
    · exact absurd write update
  · rcases second with ⟨write, -⟩ | ⟨-, obj', found', rfl⟩
    · exact absurd write update
    · rw [found] at found'
      cases found'
      rfl

theorem putFits_of_exact (layout : h.BlockLayout) (words : h.Words) {txSlot : Nat} {kv : PmbPair}
    (popped : (caslistPop s.freeList 0).val < h.totalObjsCount) (updated : kv.blkId < h.totalObjsCount)
    (key_fits : kv.keyLen ≤ h.maxKeyLen) (exact_sum : kv.offset + kv.valLen ≤ h.maxValLen)
    (old_fits : ∀ old, backendGet h s.pool.mem kv.blkId = .ok old → valLen s.pool.mem old ≤ h.maxValLen) :
    PutFits h s (.tput txSlot kv) := by
  have bound := words.maxValLen_lt
  have room := layout.data_room
  have size : h.backend.blockSize (caslistPop s.freeList 0).val = h.backend.bsize := if_pos popped
  have oldSize : h.backend.blockSize kv.blkId = h.backend.bsize := if_pos updated
  refine ⟨fun _ => by omega, fun _ => ?_⟩
  simp only [size, oldSize]
  refine ⟨by omega, ?_, fun _ old found => ?_⟩
  · have key : u32 (32 + h.maxKeyLen) ≤ 32 + h.maxKeyLen := by
      unfold u32
      exact Nat.mod_le _ _
    unfold ValueFits
    split <;> omega
  · have := old_fits old found
    unfold KeptFits
    split <;> omega

theorem putMetaFits_of_exact (layout : h.BlockLayout) {txSlot : Nat} {kv : PmbPair}
    (popped : h.totalObjsCount ≤ (caslistPop s.metaFreeList 0).val)
    (exact_sum : kv.keyLen + kv.valLen ≤ h.metaMaxKeyLen + h.metaMaxValLen) :
    PutFits h s (.tputMeta txSlot kv) := by
  have room := layout.meta_room
  have size : h.backend.blockSize (caslistPop s.metaFreeList 0).val = h.backend.metaBsize :=
    if_neg (Nat.not_lt.mpr popped)
  simp only [PutFits, size]
  omega

end Puts

-- the bytes of an entry, as its operation logs them
def LogOp.Logged : LogOp → TxEntry → Prop
  | .write blkId, entry => entry.type = TxOp.write.code ∧ entry.blkId1 = blkId
  | .update oldBlkId newBlkId, entry =>
    entry.type = TxOp.update.code ∧ entry.blkId1 = oldBlkId ∧ entry.blkId2 = newBlkId
  | .smallUpdate blkId data offset, entry =>
    entry.type = TxOp.updinplace.code ∧ entry.blkId1 = blkId ∧ entry.blkId2 = data.length * 2 ^ 32 + offset
  | .remove blkId, entry => entry.type = TxOp.remove.code ∧ entry.blkId1 = blkId

def LogOp.Words : LogOp → Prop
  | .write blkId => blkId < 2 ^ 64
  | .update oldBlkId newBlkId => oldBlkId < 2 ^ 64 ∧ newBlkId < 2 ^ 64
  | .smallUpdate blkId data offset => blkId < 2 ^ 64 ∧ data.length < 2 ^ 32 ∧ offset < 2 ^ 32
  | .remove blkId => blkId < 2 ^ 64

-- the element of an update list that an update of the block writes
def updElement (u : Store) (txId blkId : Nat) : Nat :=
  metaFind (u.updIdList txId).list blkId (u.updIdList txId).count 0

-- the element is one of those whose headers are written when the execution ends
def Counted (u : Store) (txId blkId : Nat) : Prop :=
  ((u.updIdList txId).list (updElement u txId blkId)).id = 0 ∨
    updElement u txId blkId < (u.updIdList txId).count

section Executions

variable {h : Handle} {s s' u u' : Store} {txId pos blkId : Nat} {entry : TxEntry}

end Executions

end PmBackend
