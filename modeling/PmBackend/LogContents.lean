import PmBackend.LogWalks

set_option autoImplicit false

namespace PmBackend

open ByteMemory

-- an entry, with the payload behind it when it has one
structure LogRecord where
  entry : TxEntry
  payload : List UInt8
  deriving DecidableEq, Repr

def InPlace (r : LogRecord) : Prop := r.entry.type = TxOp.updinplace.code

def recordAt (m : Mem) (pos : Nat) : LogRecord :=
  ⟨readEntry m pos, m.read (pos + sizeofTxEntry) ((readEntry m pos).span - sizeofTxEntry)⟩

def LogAt (m : Mem) : Nat → List LogRecord → Nat → Prop
  | pos, [], stop => pos = stop
  | pos, r :: rest, stop => recordAt m pos = r ∧ LogAt m (pos + r.entry.span) rest stop

theorem span_ge (entry : TxEntry) : 24 ≤ entry.span := by
  have bytes : sizeofTxEntry = 24 := rfl
  unfold TxEntry.span
  split <;> omega

theorem recordAt_entry (m : Mem) (pos : Nat) : (recordAt m pos).entry = readEntry m pos := rfl

theorem recordAt_congr {m m' : Mem} {pos : Nat}
    (same : ∀ x, pos ≤ x → x < pos + (readEntry m pos).span → m' x = m x) : recordAt m' pos = recordAt m pos := by
  have room := span_ge (readEntry m pos)
  have entry : readEntry m' pos = readEntry m pos :=
    readEntry_congr fun x lower upper => same x lower (by omega)
  have bytes : sizeofTxEntry = 24 := rfl
  unfold recordAt
  rw [entry, read_congr m m' _ _ fun x lower upper => same x (by omega) (by omega)]

section Logs

variable {m m' : Mem} {pos stop : Nat} {records : List LogRecord}

theorem LogAt.le (log : LogAt m pos records stop) : pos ≤ stop := by
  induction records generalizing pos with
  | nil => exact Nat.le_of_eq log
  | cons r rest ih =>
    have := ih log.2
    omega

theorem LogAt.congr (log : LogAt m pos records stop) (same : ∀ x, pos ≤ x → x < stop → m' x = m x) :
    LogAt m' pos records stop := by
  induction records generalizing pos with
  | nil => exact log
  | cons r rest ih =>
    obtain ⟨first, later⟩ := log
    have bound := later.le
    have room := span_ge r.entry
    refine ⟨?_, ih later fun x lower upper => same x (by omega) upper⟩
    rw [recordAt_congr fun x lower upper => same x lower (by rw [← recordAt_entry, first] at upper; omega)]
    exact first

theorem LogAt.append (log : LogAt m pos records stop) (r : LogRecord) (next : recordAt m stop = r) :
    LogAt m pos (records ++ [r]) (stop + r.entry.span) := by
  induction records generalizing pos with
  | nil =>
    cases log
    exact ⟨next, rfl⟩
  | cons first rest ih => exact ⟨log.1, ih log.2⟩

theorem LogAt.logWalk (log : LogAt m pos records stop) (fuel : Nat) (enough : stop - pos ≤ fuel) :
    (logWalk m stop fuel pos).map Prod.snd = records.map LogRecord.entry ∧
      ∀ r ∈ PmBackend.logWalk m stop fuel pos, r.1 + 24 ≤ stop := by
  induction records generalizing pos fuel with
  | nil =>
    cases log
    cases fuel with
    | zero => simp [PmBackend.logWalk]
    | succ fuel => simp [PmBackend.logWalk]
  | cons first rest ih =>
    obtain ⟨head, later⟩ := log
    have bound := later.le
    have room := span_ge first.entry
    obtain ⟨more, rfl⟩ : ∃ more, fuel = more + 1 := ⟨fuel - 1, by omega⟩
    have entry : readEntry m pos = first.entry := by rw [← recordAt_entry, head]
    have below : pos < stop := by omega
    obtain ⟨entries, inside⟩ := ih later more (by omega)
    unfold PmBackend.logWalk
    rw [if_pos below, entry]
    refine ⟨by simp [entries], fun r member => ?_⟩
    rcases List.mem_cons.mp member with rfl | member
    · omega
    · exact inside r member

theorem LogAt.walked (log : LogAt m pos records stop) (fuel : Nat) (enough : stop - pos ≤ fuel) :
    (PmBackend.logWalk m stop fuel pos).map (fun r => recordAt m r.1) = records := by
  induction records generalizing pos fuel with
  | nil =>
    cases log
    cases fuel with
    | zero => rfl
    | succ fuel => simp [PmBackend.logWalk]
  | cons r rest ih =>
    obtain ⟨first, later⟩ := log
    have bound := later.le
    have room := span_ge r.entry
    obtain ⟨more, rfl⟩ : ∃ more, fuel = more + 1 := ⟨fuel - 1, by omega⟩
    have entry : readEntry m pos = r.entry := by rw [← recordAt_entry, first]
    unfold PmBackend.logWalk
    rw [if_pos (show pos < stop by omega), entry, List.map_cons, first, ih later more (by omega)]

theorem mem_logWalk {fuel : Nat} {r : Nat × TxEntry} (member : r ∈ logWalk m stop fuel pos) : r.2 = readEntry m r.1 := by
  induction fuel generalizing pos with
  | zero => cases member
  | succ fuel ih =>
    unfold logWalk at member
    split at member
    · rcases List.mem_cons.mp member with rfl | later
      · rfl
      · exact ih later
    · cases member

end Logs

def slotEntries (m : Mem) (slot : Nat) : List TxEntry := (slotLog m slot).map Prod.snd

-- the records of a slot fill its bytes from the header to its size
def SlotRecords (m : Mem) (slot : Nat) (records : List LogRecord) : Prop :=
  LogAt m (slot + sizeofTxSlot) records (slot + slotSize m slot)

section Slots

variable {m m' : Mem} {slot : Nat} {records : List LogRecord}

theorem SlotRecords.size_ge (log : SlotRecords m slot records) : 24 ≤ slotSize m slot := by
  have bound := LogAt.le log
  have hdr : sizeofTxSlot = 24 := rfl
  omega

theorem SlotRecords.entries (log : SlotRecords m slot records) (small : slot + slotSize m slot < 2 ^ 64) :
    slotEntries m slot = records.map LogRecord.entry ∧
      ∀ r ∈ slotLog m slot, r.1 + 24 ≤ slot + slotSize m slot := by
  unfold slotEntries slotLog
  rw [u64_of_lt small]
  exact LogAt.logWalk log _ (le_refl _)

theorem SlotRecords.walked (log : SlotRecords m slot records) (small : slot + slotSize m slot < 2 ^ 64) :
    (slotLog m slot).map (fun r => recordAt m r.1) = records := by
  rw [slotLog, u64_of_lt small]
  exact LogAt.walked log _ (le_refl _)

theorem SlotRecords.append (log : SlotRecords m slot records) (r : LogRecord)
    (same : ∀ x, slot + 24 ≤ x → x < slot + slotSize m slot → m' x = m x)
    (next : recordAt m' (slot + slotSize m slot) = r)
    (size : slotSize m' slot = slotSize m slot + r.entry.span) : SlotRecords m' slot (records ++ [r]) := by
  -- nothing but the size changed in the slot up to the old size, and the next record follows
  unfold SlotRecords
  rw [size, ← Nat.add_assoc]
  exact (LogAt.congr log same).append r next

theorem SlotRecords.congr (log : SlotRecords m slot records)
    (same : ∀ x, slot + 16 ≤ x → x < slot + slotSize m slot → m' x = m x) : SlotRecords m' slot records := by
  have room := log.size_ge
  have hdr : sizeofTxSlot = 24 := rfl
  have size : slotSize m' slot = slotSize m slot :=
    word_congr m m' _ _ fun x lower upper => same x lower (by omega)
  unfold SlotRecords
  rw [size]
  exact LogAt.congr log fun x lower upper => same x (by omega) upper

theorem slotRecords_nil (fresh : slotSize m slot = sizeofTxSlot) : SlotRecords m slot [] := by
  unfold SlotRecords
  rw [fresh]
  rfl

end Slots

section Appends

variable {h : Handle} {s : Store}

theorem readEntry_id1 (p : Pool) (pos : Nat) (type : TxOp) (blkId : Nat) :
    readEntry ((p.setType pos type).setBlkId1 pos blkId).mem pos =
      ⟨type.code, blkId % 2 ^ 64, p.mem.word (pos + 16) 8⟩ := by
  simp only [readEntry, Pool.store_mem, TxEntry.mk.injEq]
  refine ⟨?_, ?_, ?_⟩
  · rw [word_write_disjoint _ _ _ _ _ (by simp), word_write_same]
    cases type <;> rfl
  · exact word_write_same _ _ _ _
  · rw [word_write_disjoint _ _ _ _ _ (by simp), word_write_disjoint _ _ _ _ _ (by simp)]

theorem readEntry_ids (p : Pool) (pos : Nat) (type : TxOp) (blkId1 blkId2 : Nat) :
    readEntry (((p.setType pos type).setBlkId1 pos blkId1).setBlkId2 pos blkId2).mem pos =
      ⟨type.code, blkId1 % 2 ^ 64, blkId2 % 2 ^ 64⟩ := by
  simp only [readEntry, Pool.store_mem, TxEntry.mk.injEq]
  refine ⟨?_, ?_, ?_⟩
  · rw [word_write_disjoint _ _ _ _ _ (by simp), word_write_disjoint _ _ _ _ _ (by simp), word_write_same]
    cases type <;> rfl
  · rw [word_write_disjoint _ _ _ _ _ (by simp)]
    exact word_write_same _ _ _ _
  · exact word_write_same _ _ _ _

theorem readEntry_smallUpdate (h : Handle) (p : Pool) (pos blkId offset : Nat) (data : List UInt8)
    (short : data.length < 2 ^ 32) (small : offset < 2 ^ 32) :
    readEntry (backendMemcpy h (((p.setType pos .updinplace).setBlkId1 pos blkId).setBlkId2 pos
      (data.length * 2 ^ 32 + offset)) (pos + sizeofTxEntry) data).mem pos =
      ⟨TxOp.updinplace.code, blkId % 2 ^ 64, data.length * 2 ^ 32 + offset⟩ := by
  have bytes : sizeofTxEntry = 24 := rfl
  have packed : data.length * 2 ^ 32 + offset < 2 ^ 64 := by omega
  rw [backendMemcpy_mem, ← Nat.mod_eq_of_lt packed,
    ← readEntry_ids p pos .updinplace blkId (data.length * 2 ^ 32 + offset), Nat.mod_eq_of_lt packed]
  exact readEntry_congr fun x lower upper => write_outside _ _ _ _ (by omega)

theorem recordAt_smallUpdate (h : Handle) (p : Pool) (pos blkId offset : Nat) (data : List UInt8)
    (short : data.length < 2 ^ 32) (small : offset < 2 ^ 32) :
    recordAt (backendMemcpy h (((p.setType pos .updinplace).setBlkId1 pos blkId).setBlkId2 pos
      (data.length * 2 ^ 32 + offset)) (pos + sizeofTxEntry) data).mem pos =
      ⟨⟨TxOp.updinplace.code, blkId % 2 ^ 64, data.length * 2 ^ 32 + offset⟩, data⟩ := by
  have entry := readEntry_smallUpdate h p pos blkId offset data short small
  unfold recordAt
  rw [entry]
  have size : TxEntry.span ⟨TxOp.updinplace.code, blkId % 2 ^ 64, data.length * 2 ^ 32 + offset⟩ =
      sizeofTxEntry + data.length := by
    unfold TxEntry.span TxEntry.size
    rw [if_pos rfl]
    simp only
    omega
  rw [size, Nat.add_sub_cancel_left, backendMemcpy_mem, read_write_same]

theorem txSlotAppend_records (layout : h.LogLayout) {i : Nat} (known : i < h.txSlotsCount)
    {fill : Pool → Nat → Pool} {len : Nat} (fills : FillsEntry fill len)
    (processing : h.status s i = TxStatus.processing.code) (fits : h.size s i + len ≤ h.backend.txSlotSize)
    {records : List LogRecord} (log : SlotRecords s.pool.mem (h.slotAddr i) records) (r : LogRecord)
    (next : recordAt (fill s.pool (h.slotAddr i + h.size s i)).mem (h.slotAddr i + h.size s i) = r)
    (span : r.entry.span = len) :
    SlotRecords (txSlotAppend h s (i + 1) fill len).1.pool.mem (h.slotAddr i) (records ++ [r]) := by
  have started : 24 ≤ h.size s i := log.size_ge
  obtain ⟨done, -, -, size⟩ := txSlotAppend_spec layout s known fills processing started fits
  have filled := fills.changed s.pool (h.slotAddr i + h.size s i)
  refine log.append r (fun x lower upper => ?_) ?_ ?_
  · rw [done]
    simp only [Pool.store_mem]
    rw [write_outside _ _ _ _ (by rw [length_encode]; omega)]
    apply filled
    simp only [mem_span]
    unfold Handle.size
    omega
  · rw [done]
    simp only [Pool.store_mem]
    have start : h.slotAddr i + slotSize s.pool.mem (h.slotAddr i) = h.slotAddr i + h.size s i := rfl
    rw [start, recordAt_congr (m := (fill s.pool (h.slotAddr i + h.size s i)).mem)]
    · exact next
    · intro x lower upper
      exact write_outside _ _ _ _ (by rw [length_encode]; omega)
  · rw [span]
    exact size

theorem record_plain {m : Mem} {pos : Nat} {entry : TxEntry} (same : readEntry m pos = entry)
    (plain : entry.type ≠ TxOp.updinplace.code) : recordAt m pos = ⟨entry, []⟩ := by
  have span : entry.span = sizeofTxEntry := if_neg plain
  rw [recordAt, same, span, Nat.sub_self]
  rfl

end Appends

end PmBackend
