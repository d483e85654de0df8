import PmBackend.LogDecoding
import PmBackend.LogExecution

set_option autoImplicit false

namespace PmBackend

open ByteMemory

-- an execution of the operation zeroes the block, if it is live
def LogOp.Removes (id : Nat) : LogOp → Prop
  | .update oldBlkId _ => oldBlkId = id ∧ id ≠ 0
  | .remove blkId => blkId = id ∧ id ≠ 0
  | _ => False

-- the operation stores the byte at `k` of the value in a block
def LogOp.Writes (id k : Nat) : LogOp → Prop
  | .smallUpdate blkId data offset => blkId = id ∧ offset ≤ k ∧ k < offset + data.length
  | _ => False

def removeFound (h : Handle) (s : Store) (blkId : Nat) : Store :=
  match backendGet h s.pool.mem blkId with
  | .error _ => s
  | .ok obj => (s.setZero (some obj)).release h blkId

-- one round of the loop of `tx_slot_execute`, on what it decodes
def LogOp.execute (h : Handle) (txId : Nat) (s : Store) : LogOp → Option Store
  | .write _ => some s
  | .update oldBlkId _ => some (removeFound h s oldBlkId)
  | .smallUpdate blkId data offset => txUpdateBlock h s txId blkId data offset
  | .remove blkId => some (removeFound h s blkId)

-- the log removes the block before it updates it in place
def RemovedFirst (id : Nat) : List LogOp → Prop
  | [] => False
  | op :: rest => op.Removes id ∨ ((∀ data offset, op ≠ .smallUpdate id data offset) ∧ RemovedFirst id rest)

-- the value of the block had a byte at `k` in memory `m` that is kept, or one of the updates reaches over it
def Reached (h : Handle) (m : Mem) (ops : List LogOp) (id k : Nat) : Prop :=
  (¬RemovedFirst id ops ∧ ∃ obj, backendDirect h.backend id = some obj ∧ k < valLen m obj) ∨
    ∃ data offset, LogOp.smallUpdate id data offset ∈ ops ∧ k < offset + data.length

structure LengthsFrom (h : Handle) (m : Mem) (seen : List LogOp) (txId : Nat) (s : Store) : Prop where
  headers : ∀ id obj, backendDirect h.backend id = some obj → valLen s.pool.mem obj ≤ valLen m obj
  blank : ∀ id obj, backendDirect h.backend id = some obj → flch64 s.pool.mem obj = 0 → valLen s.pool.mem obj = 0
  removed : ∀ op ∈ seen, ∀ id, op.Removes id → ∀ obj, backendDirect h.backend id = some obj → valLen s.pool.mem obj = 0
  elements : ∀ n < (s.updIdList txId).count,
    (∃ data offset, LogOp.smallUpdate ((s.updIdList txId).list n).id data offset ∈ seen) ∧
      ∀ k < ((s.updIdList txId).list n).valLen, Reached h m seen ((s.updIdList txId).list n).id k

section Rounds

variable {h : Handle} {m : Mem} {s s' : Store} {txId id obj k : Nat} {r : LogRecord} {op : LogOp}
  {seen more : List LogOp} {named : Finset Nat} {updated : List Nat}

theorem executeRecord_op (decoded : r.op = some op) : executeRecord h txId s r = op.execute h txId s := by
  have reads := LogRecord.reads decoded
  cases op with
  | write blkId =>
    obtain ⟨type, -⟩ := reads
    simp [executeRecord, executeEntry, LogOp.execute, type, TxOp.code]
  | update oldBlkId newBlkId =>
    obtain ⟨type, old, -⟩ := reads
    simp only [executeRecord, executeEntry, LogOp.execute, removeFound, type, old, TxOp.code]
    cases backendGet h s.pool.mem oldBlkId <;> rfl
  | smallUpdate blkId data offset =>
    obtain ⟨type, named, payload, start⟩ := reads
    rw [executeRecord, if_pos type, named, payload, start]
    rfl
  | remove blkId =>
    obtain ⟨type, named⟩ := reads
    simp only [executeRecord, executeEntry, LogOp.execute, removeFound, type, named, TxOp.code]
    cases backendGet h s.pool.mem blkId <;> rfl

theorem RemovedFirst.removes (first : RemovedFirst id seen) : ∃ op ∈ seen, op.Removes id := by
  induction seen with
  | nil => exact first.elim
  | cons op rest ih =>
    rcases first with here | ⟨-, later⟩
    · exact ⟨op, List.mem_cons_self, here⟩
    · obtain ⟨op', member, removes⟩ := ih later
      exact ⟨op', List.mem_cons_of_mem _ member, removes⟩

theorem RemovedFirst.of_append (first : RemovedFirst id (seen ++ more)) :
    RemovedFirst id seen ∨ (RemovedFirst id more ∧ ∀ data offset, LogOp.smallUpdate id data offset ∉ seen) := by
  induction seen with
  | nil => exact Or.inr ⟨first, fun _ _ => List.not_mem_nil⟩
  | cons op rest ih =>
    rcases first with here | ⟨plain, later⟩
    · exact Or.inl (Or.inl here)
    · rcases ih later with before | ⟨after, none_before⟩
      · exact Or.inl (Or.inr ⟨plain, before⟩)
      · refine Or.inr ⟨after, fun data offset member => ?_⟩
        rcases List.mem_cons.mp member with same | inside
        · exact plain data offset same.symm
        · exact none_before data offset inside

theorem Reached.mono (reached : Reached h m seen id k)
    (updated : ∃ data offset, LogOp.smallUpdate id data offset ∈ seen) : Reached h m (seen ++ more) id k := by
  rcases reached with ⟨kept, old⟩ | ⟨data, offset, member, below⟩
  · refine Or.inl ⟨fun first => ?_, old⟩
    obtain ⟨data, offset, member⟩ := updated
    exact first.of_append.elim kept fun after => after.2 data offset member
  · exact Or.inr ⟨data, offset, List.mem_append_left _ member, below⟩

theorem LengthsFrom.listed (lengths : LengthsFrom h m seen txId s) {n : Nat} (below : n < (s.updIdList txId).count) :
    (∃ data offset, LogOp.smallUpdate ((s.updIdList txId).list n).id data offset ∈ seen ++ more) ∧
      ∀ k < ((s.updIdList txId).list n).valLen, Reached h m (seen ++ more) ((s.updIdList txId).list n).id k := by
  obtain ⟨⟨data, offset, member⟩, reached⟩ := lengths.elements n below
  exact ⟨⟨data, offset, List.mem_append_left _ member⟩, fun k inside => (reached k inside).mono ⟨data, offset, member⟩⟩

theorem ExecuteSealed.removeFound (rooms : h.Rooms) (inv : ExecuteSealed h named txId updated s) (blkId : Nat) :
    ExecuteSealed h named txId updated (removeFound h s blkId) := by
  unfold PmBackend.removeFound
  cases found : backendGet h s.pool.mem blkId with
  | error e => exact inv
  | ok obj => exact inv.zero rooms found

theorem ExecuteSealed.execute (rooms : h.Rooms) (inv : ExecuteSealed h named txId updated s) (few : named.card ≤ 128)
    (data : ∀ id ∈ named, id ≠ 0 ∧ id < h.totalObjsCount ∧ h.Alone id)
    (fits : ∀ blkId payload offset, op = .smallUpdate blkId payload offset →
      blkId ∈ named ∧ 32 + h.maxKeyLen + (offset + payload.length) ≤ h.backend.bsize)
    (done : op.execute h txId s = some s') : ∃ updated', ExecuteSealed h named txId updated' s' := by
  cases op with
  | write blkId =>
    cases done
    exact ⟨updated, inv⟩
  | update oldBlkId newBlkId =>
    cases done
    exact ⟨updated, inv.removeFound rooms oldBlkId⟩
  | remove blkId =>
    cases done
    exact ⟨updated, inv.removeFound rooms blkId⟩
  | smallUpdate blkId payload offset =>
    obtain ⟨member, room⟩ := fits blkId payload offset rfl
    exact ⟨_, inv.update rooms few member (data blkId member) room done⟩

theorem removeFound_header (rooms : h.Rooms)
    (contained : ∀ id obj, backendDirect h.backend id = some obj → h.Contained s.pool.mem id obj) (blkId : Nat)
    (direct : backendDirect h.backend id = some obj) :
    valLen (removeFound h s blkId).pool.mem obj = 0 ∨
      (flch64 (removeFound h s blkId).pool.mem obj = flch64 s.pool.mem obj ∧
        valLen (removeFound h s blkId).pool.mem obj = valLen s.pool.mem obj ∧
        (id = blkId → id ≠ 0 → flch64 s.pool.mem obj = 0)) := by
  have hdr : sizeofDataHdr = 32 := rfl
  unfold removeFound
  cases found : backendGet h s.pool.mem blkId with
  | error e =>
    refine Or.inr ⟨rfl, rfl, fun same nonzero => ?_⟩
    by_contra live
    subst same
    rw [backendGet_ok.mpr ⟨nonzero, direct, live⟩] at found
    cases found
  | ok addr =>
    obtain ⟨-, there, live⟩ := backendGet_ok.mp found
    simp only [(release_frame h _ blkId).1]
    by_cases same : id = blkId
    · subst same
      obtain rfl : addr = obj := Option.some.inj (there.symm.trans direct)
      exact Or.inl (setZero_header s addr).2.2.2.2
    · have block := contained blkId addr there
      have zeroed := block.zeroed
      have changed := (setZero_changed s addr).mono (span_blockAt there (le_refl _) (by omega))
      obtain ⟨flch, -, -, -, val⟩ := (ChangedIn.others_untouched rooms.toLogLayout (block.alone live)
        (changed.mono Set.subset_union_left) same).words direct (rooms.room id)
      exact Or.inr ⟨flch, val, fun here => absurd here same⟩

theorem LengthsFrom.remove (rooms : h.Rooms) (lengths : LengthsFrom h m seen txId s)
    (contained : ∀ id obj, backendDirect h.backend id = some obj → h.Contained s.pool.mem id obj) {blkId : Nat}
    (removes : ∀ id, op.Removes id → id = blkId ∧ id ≠ 0) :
    LengthsFrom h m (seen ++ [op]) txId (removeFound h s blkId) := by
  have lists : (removeFound h s blkId).updIdList = s.updIdList := by
    unfold removeFound
    cases backendGet h s.pool.mem blkId with
    | error e => rfl
    | ok obj => exact (release_frame h _ blkId).2.1
  refine ⟨fun id obj direct => ?_, fun id obj direct dead => ?_, fun op' member id named obj direct => ?_, fun n below => ?_⟩
  · rcases removeFound_header rooms contained blkId direct with zero | ⟨-, val, -⟩
    · omega
    · exact val.trans_le (lengths.headers id obj direct)
  · rcases removeFound_header rooms contained blkId direct with zero | ⟨flch, val, -⟩
    · exact zero
    · exact val.trans (lengths.blank id obj direct (flch.symm.trans dead))
  · rcases removeFound_header rooms contained blkId direct with zero | ⟨-, val, dead⟩
    · exact zero
    · rcases List.mem_append.mp member with before | last
      · exact val.trans (lengths.removed op' before id named obj direct)
      · rw [List.mem_singleton.mp last] at named
        obtain ⟨same, nonzero⟩ := removes id named
        exact val.trans (lengths.blank id obj direct (dead same nonzero))
  · rw [lists] at below ⊢
    exact lengths.listed below

theorem txUpdateBlock_keeps (rooms : h.Rooms) {blkId offset : Nat} {payload : List UInt8}
    (region : blkId < h.totalObjsCount) (alone : h.Alone blkId)
    (room : 32 + h.maxKeyLen + (offset + payload.length) ≤ h.backend.bsize)
    (done : txUpdateBlock h s txId blkId payload offset = some s') :
    (∀ id, id ≠ blkId → Untouched h id s.pool.mem s'.pool.mem) ∧
      ∀ id obj, backendDirect h.backend id = some obj → flch64 s'.pool.mem obj = flch64 s.pool.mem obj ∧
        keyLen s'.pool.mem obj = keyLen s.pool.mem obj ∧ valLen s'.pool.mem obj = valLen s.pool.mem obj := by
  obtain ⟨dest, there⟩ := (backendDirect_known rooms.fit blkId).mpr (Nat.lt_of_lt_of_le region (Nat.le_add_right _ _))
  have size := blockSize_data region
  have small := rooms.bsize_small
  have changed : ChangedIn (span (dest + 32) (h.backend.bsize - 32)) s.pool.mem s'.pool.mem := by
    rw [(txUpdateBlock_stores there (by omega) done).1]
    exact ChangedIn.write _ _ _ _ (span_subset (by omega) (by omega))
  have others : ∀ id, id ≠ blkId → Untouched h id s.pool.mem s'.pool.mem := fun id other =>
    ChangedIn.others_untouched rooms.toLogLayout alone
      ((changed.mono (span_blockAt there (by omega) (by omega))).mono Set.subset_union_left) other
  refine ⟨others, fun id obj direct => ?_⟩
  by_cases same : id = blkId
  · subst same
    obtain rfl : dest = obj := Option.some.inj (there.symm.trans direct)
    have word : ∀ start width, start + width ≤ 32 → s'.pool.mem.word (dest + start) width =
        s.pool.mem.word (dest + start) width := fun start width header => changed.word_apart (by omega)
    exact ⟨word 0 8 (by omega), word 20 4 (by omega), word 24 4 (by omega)⟩
  · obtain ⟨flch, -, -, key, val⟩ := (others id same).words direct (rooms.room id)
    exact ⟨flch, key, val⟩

theorem LogOp.execute_untouched (rooms : h.Rooms) (inv : ExecuteSealed h named txId updated s)
    (data : ∀ id ∈ named, id ≠ 0 ∧ id < h.totalObjsCount ∧ h.Alone id)
    (fits : ∀ blkId payload offset, op = .smallUpdate blkId payload offset →
      blkId ∈ named ∧ 32 + h.maxKeyLen + (offset + payload.length) ≤ h.backend.bsize)
    (plain : ∀ payload offset, op ≠ .smallUpdate id payload offset) (kept : ¬op.Removes id)
    (done : op.execute h txId s = some s') : Untouched h id s.pool.mem s'.pool.mem := by
  have removed : ∀ blkId, ¬(blkId = id ∧ id ≠ 0) → Untouched h id s.pool.mem (PmBackend.removeFound h s blkId).pool.mem := by
    intro blkId other
    unfold PmBackend.removeFound
    cases found : backendGet h s.pool.mem blkId with
    | error e => exact Untouched.refl id _
    | ok obj =>
      obtain ⟨nonzero, there, live⟩ := backendGet_ok.mp found
      have block := inv.blocks.contained blkId obj there
      have zeroed := block.zeroed
      have changed := (setZero_changed s obj).mono (span_blockAt there (le_refl _) (Nat.add_le_add_left zeroed obj))
      simp only [(release_frame h _ blkId).1]
      exact ChangedIn.others_untouched rooms.toLogLayout (block.alone live) (changed.mono Set.subset_union_left)
        fun same => other ⟨same.symm, same ▸ nonzero⟩
  cases op with
  | write blkId =>
    cases done
    exact Untouched.refl id _
  | update oldBlkId newBlkId =>
    cases done
    exact removed oldBlkId kept
  | remove blkId =>
    cases done
    exact removed blkId kept
  | smallUpdate blkId payload offset =>
    obtain ⟨member, room⟩ := fits blkId payload offset rfl
    obtain ⟨-, region, alone⟩ := data blkId member
    exact (txUpdateBlock_keeps rooms region alone room done).1 id fun same => plain payload offset (same ▸ rfl)

theorem LengthsFrom.update (rooms : h.Rooms) (lengths : LengthsFrom h m seen txId s)
    (inv : ExecuteSealed h named txId updated s) (few : named.card ≤ 128) {blkId offset : Nat} {payload : List UInt8}
    (member : blkId ∈ named) (data : blkId ≠ 0 ∧ blkId < h.totalObjsCount ∧ h.Alone blkId)
    (room : 32 + h.maxKeyLen + (offset + payload.length) ≤ h.backend.bsize)
    (done : txUpdateBlock h s txId blkId payload offset = some s') :
    LengthsFrom h m (seen ++ [.smallUpdate blkId payload offset]) txId s' := by
  have small := rooms.bsize_small
  obtain ⟨nonzero, region, alone⟩ := data
  obtain ⟨dest, there⟩ := (backendDirect_known rooms.fit blkId).mpr (Nat.lt_of_lt_of_le region (Nat.le_add_right _ _))
  have words := (txUpdateBlock_keeps rooms region alone room done).2
  obtain ⟨-, added⟩ := txUpdateBlock_stores there (by omega) done
  obtain ⟨i, last, grown, others, rest, place⟩ := added_element (s := { s with pool := s'.pool }) inv.holds
    (inv.addSafe few member nonzero) there added
  refine ⟨fun id obj direct => ?_, fun id obj direct dead => ?_, fun op' named id removes obj direct => ?_, fun n below => ?_⟩
  · rw [(words id obj direct).2.2]
    exact lengths.headers id obj direct
  · rw [(words id obj direct).1] at dead
    rw [(words id obj direct).2.2]
    exact lengths.blank id obj direct dead
  · rw [(words id obj direct).2.2]
    rcases List.mem_append.mp named with before | here
    · exact lengths.removed op' before id removes obj direct
    · rw [List.mem_singleton.mp here] at removes
      exact removes.elim
  · by_cases here : n = i
    · subst here
      rw [grown]
      have listed : LogOp.smallUpdate blkId payload offset ∈ seen ++ [.smallUpdate blkId payload offset] :=
        List.mem_append_right _ List.mem_cons_self
      refine ⟨⟨payload, offset, listed⟩, fun k inside => ?_⟩
      by_cases reaches : k < offset + payload.length
      · exact Or.inr ⟨payload, offset, listed, reaches⟩
      · have old : k < last.valLen := by
          simp only at inside
          omega
        rcases place with ⟨used, -, rfl, hit⟩ | ⟨-, -, -, rfl⟩
        · have before : Reached h m (seen ++ [.smallUpdate blkId payload offset]) ((s.updIdList txId).list n).id k :=
            (lengths.listed used).2 k old
          rwa [show ((s.updIdList txId).list n).id = blkId from hit] at before
        · -- a block that was removed has no length in its header
          have header : valLen s'.pool.mem dest = valLen s.pool.mem dest := (words blkId dest there).2.2
          have length : k < valLen s.pool.mem dest := lt_of_lt_of_eq old header
          refine Or.inl ⟨fun first => ?_, dest, there, lt_of_lt_of_le length (lengths.headers blkId dest there)⟩
          rcases first.of_append with before | ⟨removes | ⟨plain, -⟩, -⟩
          · obtain ⟨op', member', removes⟩ := before.removes
            have zero := lengths.removed op' member' blkId removes dest there
            omega
          · exact removes
          · exact plain payload offset rfl
    · rw [others n here]
      exact lengths.listed (rest n below here).1

theorem LengthsFrom.execute (rooms : h.Rooms) (lengths : LengthsFrom h m seen txId s)
    (inv : ExecuteSealed h named txId updated s) (few : named.card ≤ 128)
    (data : ∀ id ∈ named, id ≠ 0 ∧ id < h.totalObjsCount ∧ h.Alone id)
    (fits : ∀ blkId payload offset, op = .smallUpdate blkId payload offset →
      blkId ∈ named ∧ 32 + h.maxKeyLen + (offset + payload.length) ≤ h.backend.bsize)
    (done : op.execute h txId s = some s') : LengthsFrom h m (seen ++ [op]) txId s' := by
  cases op with
  | write blkId =>
    cases done
    refine ⟨lengths.headers, lengths.blank, fun op' member id removes => ?_, fun n below => lengths.listed below⟩
    rcases List.mem_append.mp member with before | here
    · exact lengths.removed op' before id removes
    · rw [List.mem_singleton.mp here] at removes
      exact removes.elim
  | update oldBlkId newBlkId =>
    cases done
    exact lengths.remove rooms inv.blocks.contained fun id removes => ⟨removes.1.symm, removes.2⟩
  | remove blkId =>
    cases done
    exact lengths.remove rooms inv.blocks.contained fun id removes => ⟨removes.1.symm, removes.2⟩
  | smallUpdate blkId payload offset =>
    obtain ⟨member, room⟩ := fits blkId payload offset rfl
    exact lengths.update rooms inv few member (data blkId member) room done

theorem RecordFits.op_fits (fits : RecordFits h named r) (decoded : r.op = some op) :
    ∀ blkId payload offset, op = .smallUpdate blkId payload offset →
      blkId ∈ named ∧ 32 + h.maxKeyLen + (offset + payload.length) ≤ h.backend.bsize := by
  rintro blkId payload offset rfl
  obtain ⟨type, name, bytes, start⟩ := LogRecord.reads decoded
  obtain ⟨member, room⟩ := fits type
  rw [name] at member
  rw [bytes, start] at room
  exact ⟨member, room⟩

theorem LengthsFrom.run (rooms : h.Rooms) (few : named.card ≤ 128)
    (data : ∀ id ∈ named, id ≠ 0 ∧ id < h.totalObjsCount ∧ h.Alone id) {records : List LogRecord} {ops : List LogOp}
    (decoded : records.map LogRecord.op = ops.map some) (fits : ∀ r ∈ records, RecordFits h named r)
    (inv : ExecuteSealed h named txId updated s) (lengths : LengthsFrom h m seen txId s)
    (done : records.foldlM (executeRecord h txId) s = some s') :
    (∃ updated', ExecuteSealed h named txId updated' s') ∧ LengthsFrom h m (seen ++ ops) txId s' := by
  induction records generalizing s seen ops updated with
  | nil =>
    cases done
    obtain rfl : ops = [] := List.map_eq_nil_iff.mp decoded.symm
    exact ⟨⟨updated, inv⟩, by rwa [List.append_nil]⟩
  | cons r rest ih =>
    obtain ⟨op, later, rfl, read, decoded⟩ := List.map_eq_cons_iff.mp decoded.symm
    rw [List.foldlM_cons] at done
    obtain ⟨next, first, walked⟩ := Option.bind_eq_some_iff.mp done
    have small := (fits r List.mem_cons_self).op_fits read.symm
    rw [executeRecord_op read.symm] at first
    obtain ⟨updated', inv'⟩ := inv.execute rooms few data small first
    have after := ih decoded.symm (fun r' member => fits r' (List.mem_cons_of_mem _ member)) inv'
      (lengths.execute rooms inv few data small first) walked
    simpa only [List.append_assoc, List.cons_append, List.nil_append] using after

end Rounds

section Headers

variable {h : Handle} {p q : Pool} {list : Nat → TxMeta} {count i : Nat}

theorem rewritten_header (h : Handle) (p : Pool) (obj ver len size : Nat) :
    let m := (utilChecksumInsert h ((p.setVersion obj ver).setValLen obj len) obj size).mem
    flch64 m obj = checksumOf h ((p.setVersion obj ver).setValLen obj len).mem obj size ∧
      objectId m obj = objectId p.mem obj ∧ version m obj = ver % 2 ^ 32 ∧ keyLen m obj = keyLen p.mem obj ∧
      valLen m obj = len % 2 ^ 32 ∧ ChangedIn (span obj 32) p.mem m := by
  have narrow : 256 ^ 4 = 2 ^ 32 := by decide
  refine ⟨utilChecksumInsert_flch h _ obj size, ?_, ?_, ?_, ?_, ?_⟩
  · simp only [utilChecksumInsert, objectId, Pool.store_mem]
    rw [word_write_disjoint _ _ _ _ _ (by simp), word_write_disjoint _ _ _ _ _ (by simp),
      word_write_disjoint _ _ _ _ _ (by simp)]
  · simp only [utilChecksumInsert, version, Pool.store_mem]
    rw [word_write_disjoint _ _ _ _ _ (by simp), word_write_disjoint _ _ _ _ _ (by simp), word_write_same, narrow]
  · simp only [utilChecksumInsert, keyLen, Pool.store_mem]
    rw [word_write_disjoint _ _ _ _ _ (by simp), word_write_disjoint _ _ _ _ _ (by simp),
      word_write_disjoint _ _ _ _ _ (by simp)]
  · simp only [utilChecksumInsert, valLen, Pool.store_mem]
    rw [word_write_disjoint _ _ _ _ _ (by simp), word_write_same, narrow]
  · exact (((ChangedIn.refl _ _).thenEncode _ 4 _ (by omega) (by omega)).thenEncode _ 4 _ (by omega) (by omega)).thenEncode
      _ 8 _ (by omega) (by omega)

theorem metaProcess_lengths (rooms : h.Rooms) (alone : ∀ k, i ≤ k → k < i + count → h.Alone (list k).id) {id obj : Nat}
    (direct : backendDirect h.backend id = some obj) (done : metaProcess h list count i p = some q) :
    valLen q.mem obj = valLen p.mem obj ∨
      ∃ k, (i ≤ k ∧ k < i + count) ∧ (list k).id = id ∧ valLen q.mem obj ≤ (list k).valLen := by
  refine metaProcess_induct (fun r => valLen r.mem obj = valLen p.mem obj ∨
    ∃ k, (i ≤ k ∧ k < i + count) ∧ (list k).id = id ∧ valLen r.mem obj ≤ (list k).valLen) list count i
    (fun r k dest lower upper before there => ?_) p q (Or.inl rfl) done
  obtain ⟨-, -, -, -, val, changed⟩ := rewritten_header h r dest (list k).version (list k).valLen
    (sizeofDataHdr + h.maxKeyLen + valLen ((r.setVersion dest (list k).version).setValLen dest (list k).valLen).mem dest)
  by_cases same : id = (list k).id
  · rw [same, there] at direct
    cases direct
    refine Or.inr ⟨k, ⟨lower, upper⟩, same.symm, ?_⟩
    rw [val]
    exact Nat.mod_le _ _
  · have room := rooms.room (list k).id
    have kept := ((ChangedIn.others_untouched rooms.toLogLayout (alone k lower upper)
      ((changed.mono (span_blockAt there (le_refl _) (by omega))).mono Set.subset_union_left) same).words direct
      (rooms.room id)).2.2.2.2
    rwa [kept]

end Headers

section Executions

variable {h : Handle} {s t : Store} {i : Nat} {ops : List LogOp} {records : List LogRecord}

structure Executed (h : Handle) (s : Store) (i : Nat) (records : List LogRecord) (ops : List LogOp) (t walked : Store)
    (q : Pool) : Prop where
  loop : records.foldlM (executeRecord h i) s = some walked
  inv : ∃ updated, ExecuteSealed h (updatedIds s.pool.mem (h.slotAddr i)) i updated walked
  lengths : LengthsFrom h s.pool.mem ops i walked
  headers : metaProcess h (walked.updIdList i).list (walked.updIdList i).count 0 walked.pool = some q
  result : t = { walked with
    pool := backendTxSetZero h q (h.slotAddr i)
    updIdList := Function.update walked.updIdList i ⟨0, fun n =>
      if n < (walked.updIdList i).count then ⟨0, 0, 0⟩ else (walked.updIdList i).list n⟩ }

theorem UpdatesFit.record_fits (safe : UpdatesFit h s i) (log : SlotRecords s.pool.mem (h.slotAddr i) records)
    (small : h.slotAddr i + slotSize s.pool.mem (h.slotAddr i) < 2 ^ 64) :
    ∀ r ∈ records, RecordFits h (updatedIds s.pool.mem (h.slotAddr i)) r := by
  intro r listed in_place
  rw [← log.walked small] at listed
  obtain ⟨e, member, rfl⟩ := List.mem_map.mp listed
  have entry : e.2 = (recordAt s.pool.mem e.1).entry := mem_logWalk member
  have type : (recordAt s.pool.mem e.1).entry.type = TxOp.updinplace.code := in_place
  have span : (recordAt s.pool.mem e.1).entry.span = sizeofTxEntry + (recordAt s.pool.mem e.1).entry.size := if_pos type
  have payload : (recordAt s.pool.mem e.1).payload.length = (recordAt s.pool.mem e.1).entry.size := by
    change (Mem.read _ _ ((recordAt s.pool.mem e.1).entry.span - sizeofTxEntry)).length = _
    rw [length_read, span, Nat.add_sub_cancel_left]
  rw [← entry] at type payload ⊢
  rw [payload]
  exact ⟨mem_updatedIds member type, safe.fits e member type⟩

theorem execute_phases (rooms : h.Rooms) (blocks : SealedBut h s.pool.mem ∅)
    (blank : ∀ id obj, backendDirect h.backend id = some obj → flch64 s.pool.mem obj = 0 → valLen s.pool.mem obj = 0)
    (known : i < h.txSlotsCount) (clean : CleanList (s.updIdList i)) (safe : UpdatesFit h s i)
    (log : SlotRecords s.pool.mem (h.slotAddr i) records) (decoded : records.map LogRecord.op = ops.map some)
    (fits : h.size s i ≤ h.backend.txSlotSize) (done : txSlotExecute h s (i + 1) = some (t, .ok)) :
    ∃ walked q, Executed h s i records ops t walked q := by
  have below := Handle.slot_below known
  have small := rooms.toLogLayout.end_lt
  have size : slotSize s.pool.mem (h.slotAddr i) = h.size s i := rfl
  rw [txSlotExecute_records rooms.toLogLayout known (txSlotExecute_commited rooms.toLogLayout known done) log fits] at done
  obtain ⟨walked, walk, rest⟩ := Option.bind_eq_some_iff.mp done
  obtain ⟨processed, process, finish⟩ := Option.map_eq_some_iff.mp rest
  cases finish
  have none_used := clean.empty
  have start := ExecuteSealed.start (updatedIds s.pool.mem (h.slotAddr i)) blocks clean
  have lengths : LengthsFrom h s.pool.mem [] i s := ⟨fun _ _ _ => le_refl _, blank,
    fun op member => absurd member List.not_mem_nil, fun n within => by omega⟩
  obtain ⟨inv, lengths⟩ := lengths.run rooms safe.few safe.data decoded (safe.record_fits log (by omega)) start walk
  unfold txSlotMetaUpdProcess at process
  obtain ⟨pool, rewritten, rfl⟩ := Option.map_eq_some_iff.mp process
  exact ⟨walked, pool, walk, inv, lengths, rewritten, rfl⟩

theorem Executed.reached (rooms : h.Rooms) (known : i < h.txSlotsCount) (safe : UpdatesFit h s i) {walked : Store} {q : Pool}
    (run : Executed h s i records ops t walked q) {id obj k : Nat} (direct : backendDirect h.backend id = some obj)
    (below : k < valLen t.pool.mem obj) : Reached h s.pool.mem ops id k := by
  obtain ⟨updated, inv⟩ := run.inv
  have cleared := (setZeroSlot_changed rooms.toLogLayout { walked with pool := q } i).mono (slotArea_log known)
  have kept : valLen t.pool.mem obj = valLen q.mem obj := by
    rw [run.result]
    exact ((ChangedIn.blocks_untouched rooms.toLogLayout cleared id).words direct (rooms.room id)).2.2.2.2
  rw [kept] at below
  rcases metaProcess_lengths rooms (fun n _ upper => (safe.data _ (inv.named _ (inv.holds.mem_iff.mpr
      ⟨n, by omega, rfl⟩))).2.2) direct run.headers with same | ⟨n, ⟨-, upper⟩, rfl, less⟩
  · rw [same] at below
    refine Or.inl ⟨fun first => ?_, obj, direct, lt_of_lt_of_le below (run.lengths.headers id obj direct)⟩
    obtain ⟨op, listed, removes⟩ := first.removes
    have zero := run.lengths.removed op listed id removes obj direct
    omega
  · exact (run.lengths.elements n (by omega)).2 k (by omega)

end Executions

end PmBackend
