import PmBackend.BlocksAlike
import PmBackend.ExecutedLengths
import PmBackend.LogsAlike

set_option autoImplicit false

namespace PmBackend

open ByteMemory

-- the byte at `k` of the value area of a data block
def SameByte (h : Handle) (m m' : Mem) (id k : Nat) : Prop :=
  ∀ obj, backendDirect h.backend id = some obj → m' (obj + 32 + h.maxKeyLen + k) = m (obj + 32 + h.maxKeyLen + k)

-- a removal zeroes the byte at `k` of the value area of a data block
def Cleared (h : Handle) (m : Mem) (id k : Nat) : Prop :=
  ∃ obj, backendDirect h.backend id = some obj ∧ h.maxKeyLen + k < keyLen m obj + valLen m obj

section Rounds

variable {h : Handle} {hidden : Set Nat} {s s' t t' : Store} {txId id obj : Nat} {r : LogRecord} {op op' : LogOp}

theorem StoresAlike.removeFound (rooms : h.Rooms) (alike : StoresAlike h hidden s s')
    (contained : ∀ id obj, backendDirect h.backend id = some obj → h.Contained s.pool.mem id obj) (blkId : Nat) :
    StoresAlike h hidden (removeFound h s blkId) (removeFound h s' blkId) ∧ ∀ id k, id < h.totalObjsCount →
      (SameByte h s.pool.mem s'.pool.mem id k ∨ ((blkId = id ∧ id ≠ 0) ∧ Cleared h s.pool.mem id k)) →
        SameByte h (PmBackend.removeFound h s blkId).pool.mem (PmBackend.removeFound h s' blkId).pool.mem id k := by
  have hdr : sizeofDataHdr = 32 := rfl
  unfold PmBackend.removeFound
  rw [alike.blocks.get blkId]
  cases found : backendGet h s.pool.mem blkId with
  | error e =>
    refine ⟨alike, fun id k data before => before.resolve_right ?_⟩
    rintro ⟨⟨rfl, nonzero⟩, obj, direct, inside⟩
    -- the header of a block that is not live has no length of a value
    have dead : flch64 s.pool.mem obj = 0 := by
      by_contra live
      rw [backendGet_ok.mpr ⟨nonzero, direct, live⟩] at found
      cases found
    have key_fits := (contained blkId obj direct).key_fits data
    have none_left := (alike.blocks blkId obj direct).blank dead
    omega
  | ok obj =>
    obtain ⟨-, direct, live⟩ := backendGet_ok.mp found
    have block := alike.blocks blkId obj direct
    refine ⟨(alike.setZero rooms contained ((contained blkId obj direct).alone live) direct).release blkId,
      fun id k data before addr there => ?_⟩
    simp only [(release_frame h _ blkId).1, Store.setZero, backendSetZero, Pool.memset_mem, block.key_len, block.val_len]
    rcases before with same | ⟨⟨rfl, -⟩, dest, there', inside⟩
    · simp only [Mem.write, same addr there]
    · obtain rfl : dest = addr := Option.some.inj (there'.symm.trans there)
      obtain rfl : dest = obj := Option.some.inj (there.symm.trans direct)
      have position : dest + 32 + h.maxKeyLen + k = dest + (32 + h.maxKeyLen + k) := by omega
      have covered : 32 + h.maxKeyLen + k <
          (List.replicate (sizeofDataHdr + keyLen s.pool.mem dest + valLen s.pool.mem dest) (0 : UInt8)).length := by
        rw [List.length_replicate]
        omega
      rw [position, write_inside _ _ _ _ covered, write_inside _ _ _ _ covered]

theorem StoresAlike.added (alike : StoresAlike h hidden s s') {size : Nat}
    (added : txSlotMetaUpdAdd h s txId id size = some t) (added' : txSlotMetaUpdAdd h s' txId id size = some t') :
    StoresAlike h hidden t t' := by
  have pool : t.pool = s.pool := by rw [txSlotMetaUpdAdd_frame added]
  have pool' : t'.pool = s'.pool := by rw [txSlotMetaUpdAdd_frame added']
  have both : txSlotMetaUpdAdd h s' txId id size =
      (txSlotMetaUpdAdd h s txId id size).map fun u => { u with pool := s'.pool } := by
    unfold txSlotMetaUpdAdd
    rw [alike.updIdList]
    cases direct : backendDirect h.backend id with
    | none =>
      simp only [Option.map_none]
      split
      · rfl
      · rw [alike.rest]
        rfl
    | some obj =>
      have block := alike.blocks id obj direct
      simp only [block.ver, block.val_len, Option.map_some]
      rw [alike.rest]
      split <;> rfl
  rw [added, added'] at both
  refine ⟨?_, ?_⟩
  · rw [pool']
    exact Option.some.inj both
  · rw [pool, pool']
    exact alike.blocks

theorem StoresAlike.updated (rooms : h.Rooms) (alike : StoresAlike h hidden s s')
    (contained : ∀ id obj, backendDirect h.backend id = some obj → h.Contained s.pool.mem id obj) {data data' : List UInt8}
    {offset : Nat} (target : id ∈ hidden) (region : id < h.totalObjsCount) (alone : h.Alone id)
    (direct : backendDirect h.backend id = some obj)
    (room : 32 + h.maxKeyLen + (offset + data.length) ≤ h.backend.bsize) (length : data'.length = data.length)
    (done : txUpdateBlock h s txId id data offset = some t) (done' : txUpdateBlock h s' txId id data' offset = some t') :
    StoresAlike h hidden t t' ∧ t.pool.mem = s.pool.mem.write (obj + 32 + h.maxKeyLen + offset) data ∧
      t'.pool.mem = s'.pool.mem.write (obj + 32 + h.maxKeyLen + offset) data' := by
  have size := blockSize_data region
  have small := rooms.bsize_small
  obtain ⟨mem, added⟩ := txUpdateBlock_stores direct (by omega) done
  obtain ⟨mem', added'⟩ := txUpdateBlock_stores direct (by omega) done'
  rw [length] at added'
  have stored : ∀ (m : Mem) (bytes : List UInt8), bytes.length = data.length →
      ChangedIn (span (obj + 32 + h.maxKeyLen) (h.backend.bsize - (32 + h.maxKeyLen))) m
        (m.write (obj + 32 + h.maxKeyLen + offset) bytes) :=
    fun m bytes same => ChangedIn.write _ _ _ _ (span_subset (by omega) (by omega))
  have changed := stored s.pool.mem data rfl
  have changed' := stored s'.pool.mem data' length
  rw [← mem] at changed
  rw [← mem'] at changed'
  have area : span (obj + 32 + h.maxKeyLen) (h.backend.bsize - (32 + h.maxKeyLen)) ⊆ h.blockAt _ :=
    span_blockAt direct (show obj ≤ obj + 32 + h.maxKeyLen by omega) (by omega)
  have block := alike.blocks id obj direct
  have key_fits := (contained id obj direct).key_fits region
  have word : ∀ {m n : Mem}, ChangedIn (span (obj + 32 + h.maxKeyLen) (h.backend.bsize - (32 + h.maxKeyLen))) m n →
      ∀ start width, start + width ≤ 32 → n.word (obj + start) width = m.word (obj + start) width := by
    intro m n stored start width header
    exact stored.word_apart (by omega)
  have copies : StoresAlike h hidden { s with pool := t.pool } { s' with pool := t'.pool } := by
    refine ⟨by rw [alike.rest], alike.blocks.block rooms contained alone ((changed.mono area).mono Set.subset_union_left)
      ((changed'.mono area).mono Set.subset_union_left) (fun addr here => ?_) fun _ _ open_ => open_⟩
    obtain rfl : obj = addr := Option.some.inj (direct.symm.trans here)
    have flch : flch64 t.pool.mem obj = flch64 s.pool.mem obj := word changed 0 8 (by omega)
    have flch' : flch64 t'.pool.mem obj = flch64 s'.pool.mem obj := word changed' 0 8 (by omega)
    have key_len : keyLen t.pool.mem obj = keyLen s.pool.mem obj := word changed 20 4 (by omega)
    refine ⟨by simp only [flch, flch', block.dead],
      (word changed' 8 8 (by omega)).trans (block.name.trans (word changed 8 8 (by omega)).symm),
      (word changed' 16 4 (by omega)).trans (block.ver.trans (word changed 16 4 (by omega)).symm),
      (word changed' 20 4 (by omega)).trans (block.key_len.trans key_len.symm),
      (word changed' 24 4 (by omega)).trans (block.val_len.trans (word changed 24 4 (by omega)).symm), fun k below => ?_,
      fun open_ => absurd target open_, fun dead => (word changed 24 4 (by omega)).trans (block.blank (flch.symm.trans dead))⟩
    simp only [key_len] at below
    have outside : obj + 32 + k ∉ span (obj + 32 + h.maxKeyLen) (h.backend.bsize - (32 + h.maxKeyLen)) := fun inside => by
      simp only [mem_span] at inside
      omega
    rw [changed _ outside, changed' _ outside]
    exact block.key k below
  exact ⟨copies.added added added', mem, mem'⟩

theorem StoresAlike.round (rooms : h.Rooms) (alike : StoresAlike h hidden s s')
    (contained : ∀ id obj, backendDirect h.backend id = some obj → h.Contained s.pool.mem id obj) (ops : op.Alike op')
    (target : ∀ blkId data offset, op = .smallUpdate blkId data offset → blkId ∈ hidden ∧ blkId < h.totalObjsCount ∧
      h.Alone blkId ∧ 32 + h.maxKeyLen + (offset + data.length) ≤ h.backend.bsize)
    (done : op.execute h txId s = some t) (done' : op'.execute h txId s' = some t') :
    StoresAlike h hidden t t' ∧ ∀ id k, id < h.totalObjsCount → 32 + h.maxKeyLen + k < h.backend.bsize →
      (op.Writes id k → op' = op) →
        (SameByte h s.pool.mem s'.pool.mem id k ∨ op.Writes id k ∨ (op.Removes id ∧ Cleared h s.pool.mem id k)) →
          SameByte h t.pool.mem t'.pool.mem id k := by
  have removed := fun blkId => alike.removeFound rooms contained blkId
  cases op with
  | write blkId =>
    cases ops
    cases done
    cases done'
    refine ⟨alike, fun id k _ _ _ before => ?_⟩
    rcases before with same | writes | ⟨removes, -⟩
    · exact same
    · exact writes.elim
    · exact removes.elim
  | update oldBlkId newBlkId =>
    cases ops
    cases done
    cases done'
    exact ⟨(removed oldBlkId).1, fun id k known _ _ before =>
      (removed oldBlkId).2 id k known (before.imp_right fun writes => writes.resolve_left fun never => never)⟩
  | remove blkId =>
    cases ops
    cases done
    cases done'
    exact ⟨(removed blkId).1, fun id k known _ _ before =>
      (removed blkId).2 id k known (before.imp_right fun writes => writes.resolve_left fun never => never)⟩
  | smallUpdate blkId data offset =>
    obtain ⟨data', rfl, length⟩ := ops
    obtain ⟨member, region, alone, room⟩ := target blkId data offset rfl
    obtain ⟨dest, direct⟩ := (backendDirect_known rooms.fit blkId).mpr (Nat.lt_of_lt_of_le region (Nat.le_add_right _ _))
    obtain ⟨after, mem, mem'⟩ := alike.updated rooms contained member region alone direct room length done done'
    refine ⟨after, fun id k known below same before obj direct' => ?_⟩
    rw [mem, mem']
    by_cases here : blkId = id
    · subst here
      obtain rfl : dest = obj := Option.some.inj (direct.symm.trans direct')
      by_cases written : offset ≤ k ∧ k < offset + data.length
      · -- the update stores the byte
        obtain ⟨i, rfl⟩ := Nat.exists_eq_add_of_le written.1
        have bytes : data' = data := by
          have alike_ops := same ⟨rfl, written⟩
          cases alike_ops
          rfl
        subst bytes
        have position : dest + 32 + h.maxKeyLen + (offset + i) = dest + 32 + h.maxKeyLen + offset + i := by omega
        rw [position, write_inside _ _ _ i (by omega), write_inside _ _ _ i (by omega)]
      · rw [write_outside _ _ _ _ (by omega), write_outside _ _ _ _ (by omega)]
        rcases before with same_byte | writes | ⟨removes, -⟩
        · exact same_byte dest direct
        · exact absurd writes.2 written
        · exact removes.elim
    · -- the byte is in another block
      have apart := alone id (Ne.symm here) obj dest direct' direct
      rw [blockSize_data known, blockSize_data region] at apart
      have outside : obj + 32 + h.maxKeyLen + k < dest + 32 + h.maxKeyLen + offset ∨
          dest + 32 + h.maxKeyLen + offset + data.length ≤ obj + 32 + h.maxKeyLen + k := by
        by_contra inside
        exact Set.disjoint_left.mp apart (show obj + 32 + h.maxKeyLen + k ∈ span obj h.backend.bsize by
          simp only [mem_span]; omega) (by simp only [mem_span]; omega)
      rw [write_outside _ _ _ _ outside, write_outside _ _ _ _ (by omega)]
      rcases before with same_byte | writes | ⟨removes, -⟩
      · exact same_byte obj direct'
      · exact absurd writes.1 here
      · exact removes.elim

theorem StoresAlike.rounds (rooms : h.Rooms) {named : Finset Nat} (few : named.card ≤ 128)
    (data : ∀ id ∈ named, id ≠ 0 ∧ id < h.totalObjsCount ∧ h.Alone id) (hides : ∀ id ∈ named, id ∈ hidden)
    {ops ops' : List LogOp} (all : List.Forall₂ LogOp.Alike ops ops') {records records' : List LogRecord}
    (decoded : records.map LogRecord.op = ops.map some) (decoded' : records'.map LogRecord.op = ops'.map some)
    (fits : ∀ r ∈ records, RecordFits h named r) {updated : List Nat} (inv : ExecuteSealed h named txId updated s)
    (alike : StoresAlike h hidden s s') (done : records.foldlM (executeRecord h txId) s = some t)
    (done' : records'.foldlM (executeRecord h txId) s' = some t') :
    StoresAlike h hidden t t' ∧ ∀ id k, id < h.totalObjsCount → 32 + h.maxKeyLen + k < h.backend.bsize →
      (∀ p ∈ ops.zip ops', p.1.Writes id k → p.2 = p.1) →
        (SameByte h s.pool.mem s'.pool.mem id k ∨ (∃ op ∈ ops, op.Writes id k) ∨
          (id ≠ 0 ∧ RemovedFirst id ops ∧ Cleared h s.pool.mem id k)) → SameByte h t.pool.mem t'.pool.mem id k := by
  induction all generalizing s s' records records' updated with
  | nil =>
    obtain rfl := List.map_eq_nil_iff.mp decoded
    obtain rfl := List.map_eq_nil_iff.mp decoded'
    cases done
    cases done'
    refine ⟨alike, fun id k _ _ _ before => ?_⟩
    rcases before with same | ⟨op, member, -⟩ | ⟨-, first, -⟩
    · exact same
    · cases member
    · exact first.elim
  | @cons op op' rest rest' pair _ ih =>
    obtain ⟨r, later, rfl, read, decoded⟩ := List.map_eq_cons_iff.mp decoded
    obtain ⟨r', later', rfl, read', decoded'⟩ := List.map_eq_cons_iff.mp decoded'
    rw [List.foldlM_cons] at done done'
    obtain ⟨next, first, walked⟩ := Option.bind_eq_some_iff.mp done
    obtain ⟨next', first', walked'⟩ := Option.bind_eq_some_iff.mp done'
    have small := (fits r List.mem_cons_self).op_fits read
    rw [executeRecord_op read] at first
    rw [executeRecord_op read'] at first'
    obtain ⟨updated', inv'⟩ := inv.execute rooms few data small first
    have first_done := first
    obtain ⟨after, bytes⟩ := alike.round rooms inv.blocks.contained pair (fun blkId payload offset same => by
      obtain ⟨member, room⟩ := small blkId payload offset same
      exact ⟨hides blkId member, (data blkId member).2.1, (data blkId member).2.2, room⟩) first first'
    obtain ⟨finally_alike, finally_bytes⟩ := ih decoded decoded' (fun q member => fits q (List.mem_cons_of_mem _ member))
      inv' after walked walked'
    refine ⟨finally_alike, fun id k known below same before => ?_⟩
    refine finally_bytes id k known below (fun p member => same p (List.mem_cons_of_mem _ member)) ?_
    have here := bytes id k known below (same (op, op') List.mem_cons_self)
    rcases before with before | ⟨q, member, writes⟩ | ⟨nonzero, removes | ⟨plain, first⟩, obj, direct, inside⟩
    · exact Or.inl (here (Or.inl before))
    · rcases List.mem_cons.mp member with rfl | later
      · exact Or.inl (here (Or.inr (Or.inl writes)))
      · exact Or.inr (Or.inl ⟨q, later, writes⟩)
    · exact Or.inl (here (Or.inr (Or.inr ⟨removes, obj, direct, inside⟩)))
    · by_cases removes : op.Removes id
      · exact Or.inl (here (Or.inr (Or.inr ⟨removes, obj, direct, inside⟩)))
      · -- the header stays as it is until the removal
        obtain ⟨-, -, -, key_len, val_len⟩ :=
          (LogOp.execute_untouched rooms inv data small plain removes first_done).words direct (rooms.room id)
        exact Or.inr (Or.inr ⟨nonzero, first, obj, direct, by rw [key_len, val_len]; exact inside⟩)

end Rounds

section Headers

variable {h : Handle} {hidden : Set Nat} {p p' q q' : Pool} {list : Nat → TxMeta} {count i : Nat}

theorem metaProcess_alike (rooms : h.Rooms) (nonzero : ∀ bytes, h.checksum bytes ≠ 0)
    (alike : BlocksAlike h hidden p.mem p'.mem) (blocks : SealedBut h p.mem Set.univ)
    (elements : ∀ k, i ≤ k → k < i + count → (list k).id ∈ hidden ∧
      ((list k).id < h.totalObjsCount ∧ h.Alone (list k).id) ∧ 32 + h.maxKeyLen + (list k).valLen ≤ h.backend.bsize)
    (done : metaProcess h list count i p = some q) (done' : metaProcess h list count i p' = some q') :
    BlocksAlike h hidden q.mem q'.mem := by
  have data_room := rooms.data_room
  have small := rooms.bsize_small
  induction count generalizing i p p' with
  | zero =>
    cases done
    cases done'
    exact alike
  | succ count ih =>
    obtain ⟨member, ⟨region, alone⟩, room⟩ := elements i (le_refl i) (by omega)
    obtain ⟨obj, direct⟩ := (backendDirect_known rooms.fit _).mpr (Nat.lt_of_lt_of_le region (Nat.le_add_right _ _))
    have size := blockSize_data region
    unfold metaProcess at done done'
    simp only [direct] at done done'
    generalize (sizeofDataHdr + h.maxKeyLen + valLen ((p.setVersion obj (list i).version).setValLen obj
      (list i).valLen).mem obj) = covered at done
    generalize (sizeofDataHdr + h.maxKeyLen + valLen ((p'.setVersion obj (list i).version).setValLen obj
      (list i).valLen).mem obj) = covered' at done'
    obtain ⟨flch, name, ver, key_len, val_len, changed⟩ :=
      rewritten_header h p obj (list i).version (list i).valLen covered
    obtain ⟨flch', name', ver', key_len', val_len', changed'⟩ :=
      rewritten_header h p' obj (list i).version (list i).valLen covered'
    have now : flch64 (utilChecksumInsert h ((p.setVersion obj (list i).version).setValLen obj (list i).valLen) obj
        covered).mem obj ≠ 0 := by
      rw [flch]
      exact checksumOf_ne nonzero _ _ _
    have now' : flch64 (utilChecksumInsert h ((p'.setVersion obj (list i).version).setValLen obj (list i).valLen) obj
        covered').mem obj ≠ 0 := by
      rw [flch']
      exact checksumOf_ne nonzero _ _ _
    generalize utilChecksumInsert h ((p.setVersion obj (list i).version).setValLen obj (list i).valLen) obj covered =
      next at done flch name ver key_len val_len changed now
    generalize utilChecksumInsert h ((p'.setVersion obj (list i).version).setValLen obj (list i).valLen) obj covered' =
      next' at done' flch' name' ver' key_len' val_len' changed' now'
    have block := alike _ obj direct
    have contained := blocks.contained _ obj direct
    have area : span obj 32 ⊆ h.blockAt _ := span_blockAt direct (le_refl obj) (by omega)
    have alike' : BlocksAlike h hidden next.mem next'.mem := by
      refine alike.block rooms blocks.contained alone ((changed.mono area).mono Set.subset_union_left)
        ((changed'.mono area).mono Set.subset_union_left) (fun addr here => ?_) fun _ _ open_ => open_
      obtain rfl : obj = addr := Option.some.inj (direct.symm.trans here)
      refine ⟨iff_of_false now' now, by rw [name, name', block.name], by rw [ver, ver'],
        by rw [key_len, key_len', block.key_len], by rw [val_len, val_len'], fun k below => ?_,
        fun open_ => absurd member open_, fun dead => absurd dead now⟩
      have outside : obj + 32 + k ∉ span obj 32 := fun inside => by
        simp only [mem_span] at inside
        omega
      rw [key_len] at below
      rw [changed _ outside, changed' _ outside]
      exact block.key k below
    have blocks' : SealedBut h next.mem Set.univ := by
      refine blocks.block rooms alone direct ((changed.mono area).mono Set.subset_union_left)
        ⟨fun low => key_len.trans_le (contained.key_fits low), ?_, fun _ => alone⟩
        (fun outside => absurd (Set.mem_univ _) outside) fun _ _ outside => absurd (Set.mem_univ _) outside
      rw [h.objectLen_data region, size, val_len, Nat.mod_eq_of_lt (by omega)]
      exact room
    exact ih alike' blocks' (fun k lower upper => elements k (by omega) (by omega)) done done'

theorem metaProcess_outside {x : Nat} (outside : ∀ k, i ≤ k → k < i + count → ∀ obj,
      backendDirect h.backend (list k).id = some obj → x ∉ span obj 32) (done : metaProcess h list count i p = some q) :
    q.mem x = p.mem x :=
  metaProcess_induct (fun r => r.mem x = p.mem x) list count i (fun r k obj lower upper before direct =>
    ((rewritten_header h r obj (list k).version (list k).valLen _).2.2.2.2.2 x (outside k lower upper obj direct)).trans
      before) p q rfl done

end Headers

-- the bytes in front of an update that are neither kept nor stored are zero, or become so
def GapsCovered (h : Handle) (m : Mem) (ops : List LogOp) (id : Nat) : Prop :=
  ∀ data offset, LogOp.smallUpdate id data offset ∈ ops → ∀ obj, backendDirect h.backend id = some obj →
    ∀ k < offset, (valLen m obj ≤ k ∨ RemovedFirst id ops) →
      m (obj + 32 + h.maxKeyLen + k) = 0 ∨ (∃ op ∈ ops, op.Writes id k) ∨ (RemovedFirst id ops ∧ Cleared h m id k)

def ExecuteShielded (h : Handle) (s : Store) (i : Nat) : Prop :=
  ∀ id, GapsCovered h s.pool.mem (slotOps s.pool.mem (h.slotAddr i)) id

-- the blocks whose values may differ after two executions
def executedSecret (h : Handle) (secret : Set Nat) (m m' : Mem) (slot : Nat) : Set Nat :=
  {id | (∃ p ∈ (slotOps m slot).zip (slotOps m' slot), p.2 ≠ p.1 ∧ ∃ k, p.1.Writes id k) ∨
    (id ∈ secret ∧ ¬RemovedFirst id (slotOps m slot) ∧ ∃ obj, backendDirect h.backend id = some obj ∧
      ∃ k < valLen m obj, ∀ op ∈ slotOps m slot, ¬op.Writes id k)}

section Executions

variable {h : Handle} {secret hidden : Set Nat} {s s' t t' : Store} {m m' : Mem} {i id k : Nat} {op op' : LogOp}
  {ops ops' : List LogOp}

theorem LogOp.Alike.writes (alike : op.Alike op') : op'.Writes id k ↔ op.Writes id k := by
  cases op with
  | smallUpdate blkId data offset =>
    obtain ⟨data', rfl, length⟩ := alike
    simp only [LogOp.Writes, length]
  | write blkId => rw [show op' = _ from alike]
  | update oldBlkId newBlkId => rw [show op' = _ from alike]
  | remove blkId => rw [show op' = _ from alike]

theorem RemovedFirst.alike (all : List.Forall₂ LogOp.Alike ops ops') (first : RemovedFirst id ops') : RemovedFirst id ops := by
  induction all with
  | nil => exact first
  | @cons op op' rest rest' pair _ ih =>
    cases op with
    | smallUpdate blkId data offset =>
      obtain ⟨data', rfl, -⟩ := pair
      rcases first with removes | ⟨plain, later⟩
      · exact removes.elim
      · refine Or.inr ⟨fun payload start same => ?_, ih later⟩
        cases same
        exact plain data' offset rfl
    | write blkId =>
      cases pair
      exact first.imp_right fun later => ⟨later.1, ih later.2⟩
    | update oldBlkId newBlkId =>
      cases pair
      exact first.imp_right fun later => ⟨later.1, ih later.2⟩
    | remove blkId =>
      cases pair
      exact first.imp_right fun later => ⟨later.1, ih later.2⟩

theorem RemovedFirst.alike_iff (all : List.Forall₂ LogOp.Alike ops ops') : RemovedFirst id ops' ↔ RemovedFirst id ops :=
  ⟨RemovedFirst.alike all, RemovedFirst.alike (all.flip.imp fun _ _ pair => LogOp.Alike.symm pair)⟩

theorem shown_byte (alike : BlocksAlike h secret m m') (all : List.Forall₂ LogOp.Alike ops ops') (data : id < h.totalObjsCount)
    (nonzero : id ≠ 0) {obj : Nat} (direct : backendDirect h.backend id = some obj) (reached : Reached h m ops id k)
    (covered : id ∈ secret → ¬RemovedFirst id ops → k < valLen m obj → ∃ op ∈ ops, op.Writes id k)
    (gaps : GapsCovered h m ops id) (gaps' : GapsCovered h m' ops' id) :
    SameByte h m m' id k ∨ (∃ op ∈ ops, op.Writes id k) ∨ (id ≠ 0 ∧ RemovedFirst id ops ∧ Cleared h m id k) := by
  have block := alike id obj direct
  have kept : ¬RemovedFirst id ops → k < valLen m obj → SameByte h m m' id k ∨ ∃ op ∈ ops, op.Writes id k := by
    intro updated old
    by_cases hidden : id ∈ secret
    · exact Or.inr (covered hidden updated old)
    · refine Or.inl fun addr there => ?_
      obtain rfl : obj = addr := Option.some.inj (direct.symm.trans there)
      have value := block.value hidden k old
      rwa [valueAddr_data _ _ data] at value
  by_cases shows : ¬RemovedFirst id ops ∧ k < valLen m obj
  · exact (kept shows.1 shows.2).imp_right Or.inl
  · have open_ : valLen m obj ≤ k ∨ RemovedFirst id ops := by
      by_cases first : RemovedFirst id ops
      · exact Or.inr first
      · exact Or.inl (not_lt.mp fun old => shows ⟨first, old⟩)
    rcases reached with ⟨updated, addr, there, old⟩ | ⟨payload, offset, member, below⟩
    · obtain rfl : obj = addr := Option.some.inj (direct.symm.trans there)
      exact absurd ⟨updated, old⟩ shows
    · by_cases inside : offset ≤ k
      · exact Or.inr (Or.inl ⟨_, member, rfl, inside, below⟩)
      · -- the byte is in front of the update
        obtain ⟨op', member', payload', rfl, -⟩ := (LogOp.Alike.mem all).1 _ member
        rcases gaps payload offset member obj direct k (by omega) open_ with zero | writes | ⟨first, cleared⟩
        · rw [← block.val_len, ← RemovedFirst.alike_iff all] at open_
          rcases gaps' payload' offset member' obj direct k (by omega) open_ with zero' | ⟨q', listed', writes⟩ | ⟨first, clear⟩
          · refine Or.inl fun addr there => ?_
            obtain rfl : obj = addr := Option.some.inj (direct.symm.trans there)
            rw [zero, zero']
          · obtain ⟨q, listed, pair⟩ := (LogOp.Alike.mem all).2 q' listed'
            exact Or.inr (Or.inl ⟨q, listed, pair.writes.mp writes⟩)
          · obtain ⟨addr, there, bound⟩ := clear
            have other := alike id addr there
            rw [other.key_len, other.val_len] at bound
            exact Or.inr (Or.inr ⟨nonzero, (RemovedFirst.alike_iff all).mp first, addr, there, bound⟩)
        · exact Or.inr (Or.inl writes)
        · exact Or.inr (Or.inr ⟨nonzero, first, cleared⟩)

theorem UpdatesFit.named {records : List LogRecord} (safe : UpdatesFit h s i) (log : SlotRecords s.pool.mem (h.slotAddr i) records)
    (small : h.slotAddr i + slotSize s.pool.mem (h.slotAddr i) < 2 ^ 64)
    (decoded : records.map LogRecord.op = ops.map some) {data : List UInt8} {offset : Nat}
    (member : LogOp.smallUpdate id data offset ∈ ops) : id ∈ updatedIds s.pool.mem (h.slotAddr i) := by
  have read : some (LogOp.smallUpdate id data offset) ∈ records.map LogRecord.op := by
    rw [decoded]
    exact List.mem_map_of_mem member
  obtain ⟨r, listed, op⟩ := List.mem_map.mp read
  exact ((safe.record_fits log small r listed).op_fits op id data offset rfl).1

theorem value_not_header {obj addr j : Nat} (data : id < h.totalObjsCount) (direct : backendDirect h.backend id = some obj)
    (alone : h.Alone j) (there : backendDirect h.backend j = some addr) (room : 32 ≤ h.backend.blockSize j)
    (below : 32 + h.maxKeyLen + k < h.backend.bsize) : obj + 32 + h.maxKeyLen + k ∉ span addr 32 := by
  intro inside
  simp only [mem_span] at inside
  by_cases same : id = j
  · subst same
    rw [direct] at there
    cases there
    omega
  · have apart := alone id same obj addr direct there
    rw [blockSize_data data] at apart
    exact Set.disjoint_left.mp apart (show obj + 32 + h.maxKeyLen + k ∈ span obj h.backend.bsize by
      simp only [mem_span]; omega) (by simp only [mem_span]; omega)

theorem execute_alike (rooms : h.Rooms) (nonzero : ∀ bytes, h.checksum bytes ≠ 0) (alike : StoresAlike h secret s s')
    (slots : SlotsAlike h s.pool.mem s'.pool.mem) (blocks : SealedBut h s.pool.mem ∅) (known : i < h.txSlotsCount)
    (clean : CleanList (s.updIdList i)) (safe : UpdatesFit h s i) (shield : ExecuteShielded h s i)
    (shield' : ExecuteShielded h s' i) (done : txSlotExecute h s (i + 1) = some (t, .ok))
    (done' : txSlotExecute h s' (i + 1) = some (t', .ok)) :
    StoresAlike h (executedSecret h secret s.pool.mem s'.pool.mem (h.slotAddr i)) t t' ∧
      SlotsAlike h t.pool.mem t'.pool.mem := by
  have layout := rooms.toLogLayout
  have below := Handle.slot_below known
  have small := layout.end_lt
  have commited := txSlotExecute_commited layout known done
  have commited' := txSlotExecute_commited layout known done'
  obtain ⟨⟨size, fits⟩, ops, ops', ⟨records, log, decoded⟩, ⟨records', log', decoded'⟩, all⟩ :=
    (slots i known).log (Or.inr commited)
  have sealed := (execute_seals rooms blocks known clean safe done).1
  obtain ⟨walked, q, run⟩ := execute_phases rooms blocks (fun id obj direct => (alike.blocks id obj direct).blank) known clean
    safe log decoded fits done
  have emptied : SlotsAlike h t.pool.mem t'.pool.mem := by
    rcases txSlotExecute_spec layout known done with ⟨other, -⟩ | ⟨-, -, changed, empty, -⟩
    · exact absurd commited other
    · rcases txSlotExecute_spec layout known done' with ⟨other', -⟩ | ⟨-, -, changed', empty', -⟩
      · exact absurd commited' other'
      · exact slots.emptied layout changed changed' empty empty'
  refine ⟨?_, emptied⟩
  -- the right run
  rw [txSlotExecute_records layout known commited' log' (size.trans_le fits)] at done'
  obtain ⟨walked', walk', rest'⟩ := Option.bind_eq_some_iff.mp done'
  obtain ⟨processed', process', finish'⟩ := Option.map_eq_some_iff.mp rest'
  cases finish'
  unfold txSlotMetaUpdProcess at process'
  obtain ⟨q', headers', rfl⟩ := Option.map_eq_some_iff.mp process'
  -- up to the values of the updated blocks
  have wider : StoresAlike h (secret ∪ {id | id ∈ updatedIds s.pool.mem (h.slotAddr i)}) s s' :=
    ⟨alike.rest, alike.blocks.reveal fun id member open_ => absurd (Or.inl member) open_⟩
  have fit := safe.record_fits log (by omega)
  obtain ⟨loops, bytes⟩ := wider.rounds rooms safe.few safe.data (fun id member => Or.inr member) all decoded decoded' fit
    (ExecuteSealed.start _ blocks clean) run.loop walk'
  obtain ⟨updated, inv⟩ := run.inv
  have member : ∀ n < (walked.updIdList i).count,
      ((walked.updIdList i).list n).id ∈ updatedIds s.pool.mem (h.slotAddr i) := fun n within =>
    inv.named _ (inv.holds.mem_iff.mpr ⟨n, within, rfl⟩)
  rw [loops.updIdList] at headers'
  have rewritten := metaProcess_alike rooms nonzero loops.blocks (inv.blocks.mono (Set.subset_univ _)) (fun n _ upper =>
    ⟨Or.inr (member n (by omega)), (safe.data _ (member n (by omega))).2, inv.fits n (by omega)⟩) run.headers headers'
  have cleared := (setZeroSlot_changed layout { walked with pool := q } i).mono (slotArea_log known)
  have cleared' := (setZeroSlot_changed layout { walked' with pool := q' } i).mono (slotArea_log known)
  have reached : ∀ id obj k, backendDirect h.backend id = some obj → k < valLen t.pool.mem obj →
      Reached h s.pool.mem ops id k := fun id obj k => run.reached rooms known safe
  rw [run.result] at sealed reached ⊢
  have contained := (sealed.log rooms fun x outside => (cleared x outside).symm).contained
  refine ⟨by rw [loops.rest], (rewritten.log rooms contained cleared cleared').reveal fun id hidden open_ obj direct k within => ?_⟩
  have come := reached id obj k direct within
  have ops_eq : slotOps s.pool.mem (h.slotAddr i) = ops := HoldsOps.slotOps ⟨records, log, decoded⟩ (by omega)
  have ops_eq' : slotOps s'.pool.mem (h.slotAddr i) = ops' := HoldsOps.slotOps ⟨records', log', decoded'⟩ (by omega)
  simp only [executedSecret, ops_eq, ops_eq', Set.mem_ofPred_eq, not_or] at open_
  obtain ⟨stored, uncovered⟩ := open_
  have shown := shield id
  have shown' := shield' id
  rw [ops_eq] at shown
  rw [ops_eq'] at shown'
  have covered : id ∈ secret → ¬RemovedFirst id ops → k < valLen s.pool.mem obj → ∃ op ∈ ops, op.Writes id k := by
    intro inside updated_there old
    by_contra none_writes
    exact uncovered ⟨inside, updated_there, obj, direct, k, old, fun op listed writes => none_writes ⟨op, listed, writes⟩⟩
  have named : id ∈ updatedIds s.pool.mem (h.slotAddr i) := by
    rcases hidden with inside | inside
    · rcases come with ⟨kept, addr, there, old⟩ | ⟨payload, offset, listed, -⟩
      · obtain rfl : obj = addr := Option.some.inj (direct.symm.trans there)
        obtain ⟨op, listed, writes⟩ := covered inside kept old
        cases op with
        | smallUpdate blkId payload offset =>
          obtain ⟨rfl, -⟩ := writes
          exact safe.named log (by omega) decoded listed
        | write blkId => exact writes.elim
        | update oldBlkId newBlkId => exact writes.elim
        | remove blkId => exact writes.elim
      · exact safe.named log (by omega) decoded listed
    · exact inside
  obtain ⟨nonnull, data, -⟩ := safe.data id named
  have room : 32 + h.maxKeyLen + k < h.backend.bsize := by
    have inside := (sealed.contained id obj direct).fits
    rw [h.objectLen_data data, blockSize_data data] at inside
    exact lt_of_lt_of_le (Nat.add_lt_add_left within _) inside
  have same := bytes id k data room (fun p listed writes => by
    by_contra differs
    exact stored ⟨p, listed, differs, k, writes⟩) (shown_byte alike.blocks all data nonnull direct come covered shown shown')
  -- the byte is in no header and in no log
  have outside : ∀ n, 0 ≤ n → n < 0 + (walked.updIdList i).count → ∀ addr,
      backendDirect h.backend ((walked.updIdList i).list n).id = some addr → obj + 32 + h.maxKeyLen + k ∉ span addr 32 :=
    fun n _ upper addr there => value_not_header data direct (safe.data _ (member n (by omega))).2.2 there (rooms.room _) room
  have inside : obj + 32 + h.maxKeyLen + k ∈ h.blockAt id := by
    rw [blockAt_span direct, blockSize_data data, mem_span]
    omega
  have left := ChangedIn.blocks_untouched layout cleared id _ inside
  have right := ChangedIn.blocks_untouched layout cleared' id _ inside
  rw [valueAddr_data _ _ data]
  rw [left, right, metaProcess_outside outside run.headers, metaProcess_outside outside headers']
  exact same obj direct

end Executions

end PmBackend
