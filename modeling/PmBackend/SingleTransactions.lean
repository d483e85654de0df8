import PmBackend.AbortUndo
import PmBackend.LogDecoding
import PmBackend.LogExecution

set_option autoImplicit false

namespace PmBackend

open ByteMemory

-- a slot right after `pmb_tx_begin`, with room for an entry
structure JustStarted (h : Handle) (s : Store) (i : Nat) : Prop where
  known : i < h.txSlotsCount
  processing : h.status s i = TxStatus.processing.code
  fresh : h.size s i = sizeofTxSlot
  room : sizeofTxSlot + sizeofTxEntry ≤ h.backend.txSlotSize
  -- no update waits for its header to be written
  no_updates : (s.updIdList i).count = 0

-- slot `i` is open and holds one record
structure OneRecord (h : Handle) (s : Store) (i : Nat) (r : LogRecord) : Prop where
  known : i < h.txSlotsCount
  processing : h.status s i = TxStatus.processing.code
  log : SlotRecords s.pool.mem (h.slotAddr i) [r]
  fits : h.size s i ≤ h.backend.txSlotSize
  no_updates : (s.updIdList i).count = 0

def Finishes (h : Handle) (s : Store) (txSlot : Nat) (t : Store) : Prop :=
  ∃ commited, pmbTxCommit h s txSlot = (commited, .ok) ∧ pmbTxExecute h commited txSlot = some (t, .ok)

-- a list of ids, from `low` on and below `high`, whose blocks have no object
def DeadList (h : Handle) (m : Mem) (list : Option Caslist) (low high : Nat) : Prop :=
  ∃ ids, ListOf list ids ∧ ∀ id ∈ ids, (low ≤ id ∧ id < high) ∧ ¬h.Live m id

section Lists

variable {h : Handle} {m : Mem} {list : Option Caslist} {low high : Nat}

theorem DeadList.pop (dead : DeadList h m list low high) (small : high < 2 ^ 64)
    (popped : (caslistPop list 0).ret = 0) :
    ((low ≤ (caslistPop list 0).val ∧ (caslistPop list 0).val < high) ∧ ¬h.Live m (caslistPop list 0).val) ∧
      Listed list (caslistPop list 0).val ∧ (caslistPop list 0).val ≠ 0 ∧
      ∃ ids, ListOf (caslistPop list 0).list ids := by
  obtain ⟨ids, lists, members⟩ := dead
  by_cases empty : ids = ∅
  · subst empty
    rw [lists.pop_empty 0] at popped
    cases popped
  · obtain ⟨least, member, -, -, val, rest⟩ := lists.pop (Finset.nonempty_iff_ne_empty.mpr empty)
      (fun id inside => by have := (members id inside).1.2; omega) 0
    rw [val]
    exact ⟨members least member, (lists.listed least).mpr member, Nat.one_le_iff_ne_zero.mp (lists.positive member), _,
      rest⟩

theorem ListOf.pushed {ids : Finset Nat} (lists : ListOf list ids) {id : Nat} (positive : id ≠ 0)
    (small : id < 2 ^ 64) : Listed (caslistPush list id) id :=
  ((lists.push_pos positive small).listed id).mpr (Finset.mem_insert_self id ids)

end Lists

section Records

variable {h : Handle} {s t : Store} {i : Nat} {r : LogRecord}

theorem JustStarted.append (started : JustStarted h s i) (layout : h.LogLayout) (op : LogOp) (words : op.Words)
    (fits : sizeofTxSlot + op.len ≤ h.backend.txSlotSize) :
    (op.run h s (i + 1)).2 = .ok ∧ SlotOnly h i s (op.run h s (i + 1)).1 ∧
      ∃ r, r.op = some op ∧ OneRecord h (op.run h s (i + 1)).1 i r := by
  have size := started.fresh
  obtain ⟨⟨done, only⟩, ⟨processing, grown⟩, r, decoded, appended⟩ := LogOp.run_records layout started.known words
    (slotRecords_nil size) started.processing (by omega)
  have lists := op.run_updIdList (h := h) (s := s) (i + 1)
  exact ⟨done, only, r, decoded, started.known, processing, appended, by omega,
    by rw [lists]; exact started.no_updates⟩

theorem OneRecord.blocks (one : OneRecord h s i r) (same : ∀ x < h.logEnd, t.pool.mem x = s.pool.mem x)
    (lists : t.updIdList = s.updIdList) : OneRecord h t i r := by
  have below := Handle.slot_below one.known
  have fits := one.fits
  have started := one.log.size_ge
  have size : h.size s i = slotSize s.pool.mem (h.slotAddr i) := rfl
  have word : ∀ offset width, offset + width ≤ 24 →
      t.pool.mem.word (h.slotAddr i + offset) width = s.pool.mem.word (h.slotAddr i + offset) width :=
    fun offset width inside => word_congr _ _ _ _ fun x _ upper => same x (by omega)
  have processing : h.status t i = h.status s i := word 8 4 (by omega)
  have grown : h.size t i = h.size s i := word 16 8 (by omega)
  exact ⟨one.known, processing.trans one.processing, one.log.congr fun x _ upper => same x (by omega),
    grown.trans_le fits, by rw [lists]; exact one.no_updates⟩

theorem OneRecord.commits (one : OneRecord h s i r) (layout : h.LogLayout) :
    ∃ commited, pmbTxCommit h s (i + 1) = (commited, .ok) ∧ commited = { s with pool := commited.pool } ∧
      ChangedIn (span (h.slotAddr i) 16) s.pool.mem commited.pool.mem ∧
      pmbTxExecute h commited (i + 1) = (executeRecord h i commited r).bind fun next =>
        (txSlotMetaUpdProcess h next i).map fun done =>
          (txLogFreeSlot { done with pool := backendTxSetZero h done.pool (h.slotAddr i) } (i + 1), .ok) := by
  have known := one.known
  have valid : ¬(i + 1 = 0 ∨ i + 1 > h.txSlotsCount) := by omega
  have below := Handle.slot_below known
  have small := layout.end_lt
  have fits := one.fits
  obtain ⟨status, -, commited_status, same_size⟩ := txSlotCommit_spec layout s known one.processing
  have commit : pmbTxCommit h s (i + 1) = ((txSlotCommit h s (i + 1)).1, .ok) := by
    unfold pmbTxCommit
    rw [if_neg valid]
    exact Prod.ext rfl status
  obtain ⟨-, header, frame⟩ := pmbTxCommit_ok layout known commit
  refine ⟨_, commit, frame, header, ?_⟩
  generalize (txSlotCommit h s (i + 1)).1 = commited at *
  have log := one.log.congr fun x lower _ => header_frame header x lower
  have size : h.size commited i = h.size s i := same_size
  unfold pmbTxExecute
  rw [if_neg valid, txSlotExecute_records layout known commited_status log (by omega), List.foldlM_cons]
  simp only [List.foldlM_nil]
  cases executeRecord h i commited r with
  | none => rfl
  | some next => exact Option.map_map _ _ _

theorem txSlotMetaUpdProcess_none {s : Store} (no_updates : (s.updIdList i).count = 0) :
    ∃ lists, txSlotMetaUpdProcess h s i = some { s with updIdList := lists } := by
  unfold txSlotMetaUpdProcess
  simp only [no_updates, metaProcess, Option.map_some]
  exact ⟨_, rfl⟩

theorem setZeroSlot_only (layout : h.LogLayout) (s : Store) (i : Nat) :
    ChangedIn (h.slotArea i) s.pool.mem (backendTxSetZero h s.pool (h.slotAddr i)).mem := setZeroSlot_changed layout s i

theorem OneRecord.finishes_write (one : OneRecord h s i r) (layout : h.LogLayout) {blkId : Nat}
    (write : r.op = some (.write blkId)) :
    ∃ t, Finishes h s (i + 1) t ∧ ChangedIn (h.slotArea i) s.pool.mem t.pool.mem := by
  obtain ⟨commited, commit, frame, header, execute⟩ := one.commits layout
  obtain ⟨write_type, -⟩ := r.reads write
  have type : ¬r.entry.type = TxOp.updinplace.code ∧
      ¬(r.entry.type = TxOp.update.code ∨ r.entry.type = TxOp.remove.code) := by
    rw [write_type]
    decide
  have no_updates : (commited.updIdList i).count = 0 := by
    rw [frame]
    exact one.no_updates
  obtain ⟨lists, processed⟩ := txSlotMetaUpdProcess_none (h := h) no_updates
  have nothing : executeRecord h i commited r = some commited := by
    unfold executeRecord executeEntry
    rw [if_neg type.1, if_neg type.2, if_neg type.1]
  rw [nothing, Option.bind_some, processed] at execute
  refine ⟨_, ⟨commited, commit, execute⟩, ?_⟩
  have wider : span (h.slotAddr i) 16 ⊆ h.slotArea i := span_subset (le_refl _) (by have := layout.slot_room; omega)
  exact (header.mono wider).trans (setZeroSlot_only layout _ i)

theorem setZero_congr {obj : Nat} {area : Set Nat} (changed : ChangedIn area s.pool.mem t.pool.mem)
    (key : keyLen t.pool.mem obj = keyLen s.pool.mem obj) (val : valLen t.pool.mem obj = valLen s.pool.mem obj) :
    ChangedIn area (s.setZero (some obj)).pool.mem (t.setZero (some obj)).pool.mem := by
  intro x outside
  simp only [Store.setZero, backendSetZero, Pool.memset_mem, key, val, Mem.write, changed x outside]

theorem OneRecord.finishes_zeroes (one : OneRecord h s i r) (layout : h.LogLayout) (zeroes : Zeroes r.entry) {obj : Nat}
    (found : backendGet h s.pool.mem r.entry.blkId1 = .ok obj) :
    ∃ t, Finishes h s (i + 1) t ∧ ChangedIn (h.slotArea i) (s.setZero (some obj)).pool.mem t.pool.mem ∧
      t.freeList = (s.release h r.entry.blkId1).freeList ∧
      t.metaFreeList = (s.release h r.entry.blkId1).metaFreeList := by
  obtain ⟨commited, commit, frame, header, execute⟩ := one.commits layout
  obtain ⟨positive, direct, live⟩ := backendGet_ok.mp found
  have above := layout.blocks_above _ obj direct
  have below := Handle.slot_below one.known
  have slot_room := layout.slot_room
  have word : ∀ offset width, commited.pool.mem.word (obj + offset) width = s.pool.mem.word (obj + offset) width :=
    fun offset width => word_congr _ _ _ _ fun x lower _ => header_frame header x (by omega)
  have found' : backendGet h commited.pool.mem r.entry.blkId1 = .ok obj :=
    backendGet_ok.mpr ⟨positive, direct, by rw [flch64, ← Nat.add_zero obj, word 0 8]; exact live⟩
  have type : ¬r.entry.type = TxOp.updinplace.code := zeroes_not_updinplace zeroes
  have step : executeRecord h i commited r = some ((commited.setZero (some obj)).release h r.entry.blkId1) := by
    unfold executeRecord executeEntry
    rw [if_neg type, if_pos (show _ ∨ _ from zeroes), found']
  obtain ⟨pool, updates, -⟩ := release_frame h (commited.setZero (some obj)) r.entry.blkId1
  have no_updates : ((((commited.setZero (some obj)).release h r.entry.blkId1).updIdList) i).count = 0 := by
    rw [updates, frame]
    exact one.no_updates
  obtain ⟨lists, processed⟩ := txSlotMetaUpdProcess_none (h := h) no_updates
  rw [step, Option.bind_some, processed] at execute
  refine ⟨_, ⟨commited, commit, execute⟩, ?_, ?_, ?_⟩
  · have wider : span (h.slotAddr i) 16 ⊆ h.slotArea i := span_subset (le_refl _) (by omega)
    have zeroed := setZero_congr (header.mono wider) (word 20 4) (word 24 4)
    refine zeroed.trans ?_
    simp only [txLogFreeSlot, pool]
    exact setZeroSlot_only layout _ i
  · simp only [txLogFreeSlot]
    rw [frame]
    unfold Store.release
    split <;> rfl
  · simp only [txLogFreeSlot]
    rw [frame]
    unfold Store.release
    split <;> rfl

theorem JustStarted.same (started : JustStarted h s i) (pool : t.pool = s.pool) (lists : t.updIdList = s.updIdList) :
    JustStarted h t i := by
  obtain ⟨known, processing, fresh, room, no_updates⟩ := started
  unfold Handle.status at processing
  unfold Handle.size at fresh
  rw [← pool] at processing fresh
  rw [← lists] at no_updates
  exact ⟨known, processing, fresh, room, no_updates⟩

theorem JustStarted.logNewBlock (started : JustStarted h s i) (layout : h.LogLayout) {u logged : Store}
    (pool : u.pool = s.pool) (lists : u.updIdList = s.updIdList) {oldBlkId newBlkId : Nat}
    (old_lt : oldBlkId < 2 ^ 64) (new_lt : newBlkId < 2 ^ 64)
    (done : PmBackend.logNewBlock h u (i + 1) oldBlkId newBlkId = (logged, .ok)) :
    SlotOnly h i s logged ∧ logged = { u with pool := logged.pool } ∧
      ∃ r, r.op = some (newBlockOp oldBlkId newBlkId) ∧ OneRecord h logged i r := by
  have layout_room := started.room
  have fresh := started.same pool lists
  have words : (newBlockOp oldBlkId newBlkId).Words := by
    unfold newBlockOp
    split
    · exact ⟨old_lt, new_lt⟩
    · exact new_lt
  have len : (newBlockOp oldBlkId newBlkId).len = sizeofTxEntry := by
    unfold newBlockOp
    split <;> rfl
  obtain ⟨-, only, r, decoded, one⟩ := fresh.append layout _ words (by omega)
  rw [← logNewBlock_op, done] at only one
  unfold SlotOnly at only
  rw [pool] at only
  refine ⟨only, ?_, r, decoded, one⟩
  exact (logNewBlock_only layout (by omega) (by have := started.known; omega) (fun _ => by
    have size := fresh.fresh
    simp only [Nat.add_sub_cancel]
    omega) done).2

end Records

end PmBackend
