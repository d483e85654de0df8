import PmBackend.PutBounds
import PmBackend.UpdateLists

set_option autoImplicit false

namespace PmBackend

open ByteMemory

-- the operation that the loop of `tx_slot_execute` takes a record for
def LogRecord.op (r : LogRecord) : Option LogOp :=
  if r.entry.type = TxOp.write.code then some (.write r.entry.blkId1)
  else if r.entry.type = TxOp.update.code then some (.update r.entry.blkId1 r.entry.blkId2)
  else if r.entry.type = TxOp.updinplace.code then some (.smallUpdate r.entry.blkId1 r.payload r.entry.offset)
  else if r.entry.type = TxOp.remove.code then some (.remove r.entry.blkId1)
  else none

def LogOp.Reads : LogOp → LogRecord → Prop
  | .write blkId, r => r.entry.type = TxOp.write.code ∧ r.entry.blkId1 = blkId
  | .update oldBlkId newBlkId, r =>
    r.entry.type = TxOp.update.code ∧ r.entry.blkId1 = oldBlkId ∧ r.entry.blkId2 = newBlkId
  | .smallUpdate blkId data offset, r =>
    r.entry.type = TxOp.updinplace.code ∧ r.entry.blkId1 = blkId ∧ r.payload = data ∧ r.entry.offset = offset
  | .remove blkId, r => r.entry.type = TxOp.remove.code ∧ r.entry.blkId1 = blkId

structure Visits where
  store : Store
  records : List LogRecord
  position : Nat

-- the loop of `tx_slot_execute`, with what it visits
def visitWalk (h : Handle) (txId stop : Nat) : Nat → Nat → Store → Option Visits
  | 0, pos, s => some ⟨s, [], pos⟩
  | fuel + 1, pos, s =>
    if pos < stop then
      let r := recordAt s.pool.mem pos
      (executeEntry h s txId pos r.entry).bind fun next =>
        (visitWalk h txId stop fuel (pos + r.entry.span) next).map fun later =>
          { later with records := r :: later.records }
    else some ⟨s, [], pos⟩

def visitLog (h : Handle) (s : Store) (txId slot : Nat) : Option Visits :=
  let entries := slot + sizeofTxSlot
  let slotEnd := u64 (slot + slotSize s.pool.mem slot)
  visitWalk h txId slotEnd (slotEnd - entries) entries s

-- the loop goes through these operations, in order, up to the end of the slot's entries
def Decodes (h : Handle) (s : Store) (i : Nat) (ops : List LogOp) : Prop :=
  ∃ visits, visitLog h s i (h.slotAddr i) = some visits ∧ visits.records.map LogRecord.op = ops.map some ∧
    visits.position = h.slotAddr i + h.size s i

def appendOps (h : Handle) (txSlotId : Nat) (s : Store) (ops : List LogOp) : Store :=
  ops.foldl (fun s op => (op.run h s txSlotId).1) s

def opsLen (ops : List LogOp) : Nat := (ops.map LogOp.len).sum

def NamesBlock (h : Handle) : LogOp → Prop
  | .smallUpdate blkId _ _ => ∃ obj, backendDirect h.backend blkId = some obj
  | _ => True

-- an update list whose elements name blocks, with ids of 0 behind them
structure KnownElements (h : Handle) (metalist : TxMetalist) : Prop where
  named : ∀ k < metalist.count, (metalist.list k).id = 0 ∨ ∃ obj, backendDirect h.backend (metalist.list k).id = some obj
  blank : ∀ k, metalist.count ≤ k → (metalist.list k).id = 0

section Loop

variable {h : Handle} {s : Store} {txId stop : Nat}

theorem visitWalk_store (fuel pos : Nat) (s : Store) :
    (visitWalk h txId stop fuel pos s).map Visits.store = executeWalk h txId stop fuel pos s := by
  induction fuel generalizing pos s with
  | zero => rfl
  | succ fuel ih =>
    unfold visitWalk executeWalk
    split
    · simp only [recordAt_entry]
      cases executeEntry h s txId pos (readEntry s.pool.mem pos) with
      | none => rfl
      | some next =>
        simp only [Option.bind_some, Option.map_map]
        exact ih _ next
    · rfl

theorem visitLog_store (s : Store) (txId slot : Nat) :
    (visitLog h s txId slot).map Visits.store = executeLog h s txId slot := visitWalk_store _ _ _

theorem visitWalk_visits (layout : h.LogLayout) {m : Mem} {pos : Nat} {records : List LogRecord} {visits : Visits}
    (inside : stop ≤ h.logEnd) (log : LogAt m pos records stop) (fuel : Nat) (enough : stop - pos ≤ fuel) (s : Store)
    (same : ∀ x < h.logEnd, s.pool.mem x = m x) (visited : visitWalk h txId stop fuel pos s = some visits) :
    visits.records = records ∧ visits.position = stop := by
  -- the rounds change blocks only, so each one finds the next record
  induction records generalizing pos fuel s visits with
  | nil =>
    cases log
    cases fuel with
    | zero =>
      cases visited
      exact ⟨rfl, rfl⟩
    | succ fuel =>
      unfold visitWalk at visited
      rw [if_neg (lt_irrefl _)] at visited
      cases visited
      exact ⟨rfl, rfl⟩
  | cons r rest ih =>
    obtain ⟨head, later⟩ := log
    have bound := later.le
    have room := span_ge r.entry
    obtain ⟨more, rfl⟩ : ∃ more, fuel = more + 1 := ⟨fuel - 1, by omega⟩
    have first : recordAt s.pool.mem pos = r := by
      rw [← head]
      rw [← head, recordAt_entry] at bound
      exact recordAt_congr fun x lower upper => same x (by omega)
    unfold visitWalk at visited
    rw [if_pos (show pos < stop by omega)] at visited
    simp only [first] at visited
    obtain ⟨next, executed, tail⟩ := Option.bind_eq_some_iff.mp visited
    obtain ⟨tailVisits, walked, rfl⟩ := Option.map_eq_some_iff.mp tail
    obtain ⟨records_eq, position⟩ := ih later more (by omega) next (fun x below => by
      rw [(executeEntry_blocksOnly layout executed).changed x (by simpa [Handle.blockArea] using below)]
      exact same x below) walked
    exact ⟨by simp only [records_eq], position⟩

theorem LogRecord.reads {r : LogRecord} {op : LogOp} (decoded : r.op = some op) : op.Reads r := by
  unfold LogRecord.op at decoded
  split at decoded
  · next type =>
    cases decoded
    exact ⟨type, rfl⟩
  · split at decoded
    · next type =>
      cases decoded
      exact ⟨type, rfl, rfl⟩
    · split at decoded
      · next type =>
        cases decoded
        exact ⟨type, rfl, rfl, rfl⟩
      · split at decoded
        · next type =>
          cases decoded
          exact ⟨type, rfl⟩
        · cases decoded

theorem names_iff {r : LogRecord} {op : LogOp} (decoded : r.op = some op) :
    NamesBlock h op ↔ (InPlace r → ∃ obj, backendDirect h.backend r.entry.blkId1 = some obj) := by
  have reads := r.reads decoded
  unfold InPlace
  cases op with
  | write blkId => exact iff_of_true trivial fun in_place => absurd (reads.1.symm.trans in_place) (by decide)
  | update oldBlkId newBlkId =>
    exact iff_of_true trivial fun in_place => absurd (reads.1.symm.trans in_place) (by decide)
  | smallUpdate blkId data offset =>
    obtain ⟨type, rfl, -, -⟩ := reads
    exact ⟨fun named _ => named, fun named => named type⟩
  | remove blkId => exact iff_of_true trivial fun in_place => absurd (reads.1.symm.trans in_place) (by decide)

theorem executeEntry_total {r : LogRecord} {op : LogOp} (decoded : r.op = some op) (names : NamesBlock h op) (s : Store)
    (txId pos : Nat) : ∃ s', executeEntry h s txId pos r.entry = some s' := by
  unfold executeEntry
  split
  · split <;> exact ⟨_, rfl⟩
  · split
    · next in_place =>
      obtain ⟨obj, direct⟩ := (names_iff decoded).mp names in_place
      unfold txUpdateBlock
      rw [direct]
      exact txSlotMetaUpdAdd_some direct _ _ _
    · exact ⟨_, rfl⟩

theorem visitWalk_total {m : Mem} (layout : h.LogLayout) {pos : Nat} {records : List LogRecord}
    (inside : stop ≤ h.logEnd) (log : LogAt m pos records stop)
    (total : ∀ r ∈ records, ∀ u pos, ∃ u', executeEntry h u txId pos r.entry = some u') (fuel : Nat) (s : Store)
    (same : ∀ x < h.logEnd, s.pool.mem x = m x) : ∃ visits, visitWalk h txId stop fuel pos s = some visits := by
  induction records generalizing pos fuel s with
  | nil =>
    cases log
    cases fuel with
    | zero => exact ⟨_, rfl⟩
    | succ fuel =>
      unfold visitWalk
      rw [if_neg (lt_irrefl _)]
      exact ⟨_, rfl⟩
  | cons r rest ih =>
    obtain ⟨head, later⟩ := log
    have bound := later.le
    have room := span_ge r.entry
    cases fuel with
    | zero => exact ⟨_, rfl⟩
    | succ fuel =>
      have first : recordAt s.pool.mem pos = r := by
        rw [← head]
        rw [← head, recordAt_entry] at bound
        exact recordAt_congr fun x lower upper => same x (by omega)
      obtain ⟨next, executed⟩ := total r List.mem_cons_self s pos
      obtain ⟨visits, walked⟩ := ih later (fun other member => total other (List.mem_cons_of_mem _ member)) fuel next
        (fun x below => by
          rw [(executeEntry_blocksOnly layout executed).changed x (by simpa [Handle.blockArea] using below)]
          exact same x below)
      unfold visitWalk
      rw [if_pos (show pos < stop by omega)]
      simp only [first, executed, Option.bind_some, walked, Option.map_some]
      exact ⟨_, rfl⟩

theorem KnownElements.add {blkId size : Nat} {s' : Store} (known : KnownElements h (s.updIdList txId))
    (added : txSlotMetaUpdAdd h s txId blkId size = some s') :
    (∃ obj, backendDirect h.backend blkId = some obj) ∧ KnownElements h (s'.updIdList txId) := by
  obtain ⟨-, upper, hit, -⟩ := metaFind_spec (s.updIdList txId).list blkId (s.updIdList txId).count 0
  obtain ⟨entry, count, lists, fresh, used⟩ := txSlotMetaUpdAdd_element added
  rw [lists, Function.update_self]
  unfold txSlotMetaUpdAdd at added
  simp only at added
  generalize metaFind (s.updIdList txId).list blkId (s.updIdList txId).count 0 = i at *
  obtain ⟨_, joined, -⟩ := Option.map_eq_some_iff.mp added
  by_cases zero : ((s.updIdList txId).list i).id = 0
  · -- a new element takes its numbers from the header of the block
    rw [if_pos zero] at joined
    obtain ⟨obj, direct, -⟩ := Option.map_eq_some_iff.mp joined
    obtain ⟨id, rfl⟩ := fresh zero
    refine ⟨⟨obj, direct⟩, fun k below => ?_, fun k beyond => ?_⟩
    · by_cases here : k = i
      · subst here
        simp only [Function.update_self, id]
        exact Or.inr ⟨obj, direct⟩
      · simp only [Function.update_of_ne here]
        by_cases last : k < (s.updIdList txId).count
        · exact known.named k last
        · exact Or.inl (known.blank k (by omega))
    · simp only at beyond ⊢
      rw [Function.update_of_ne (by omega)]
      exact known.blank k (by omega)
  · obtain ⟨id, rfl⟩ := used zero
    have inside : i < (s.updIdList txId).count := by
      by_contra beyond
      exact zero (known.blank i (by omega))
    have same := (hit (by omega)).resolve_right zero
    have direct := (known.named i inside).resolve_left zero
    refine ⟨same ▸ direct, fun k below => ?_, fun k beyond => ?_⟩
    · by_cases here : k = i
      · subst here
        simp only [Function.update_self, id]
        exact Or.inr direct
      · simp only [Function.update_of_ne here]
        exact known.named k below
    · simp only at beyond ⊢
      rw [Function.update_of_ne (by omega)]
      exact known.blank k beyond

theorem KnownElements.entry {pos : Nat} {r : LogRecord} {op : LogOp} {s' : Store} (decoded : r.op = some op)
    (known : KnownElements h (s.updIdList txId)) (executed : executeEntry h s txId pos r.entry = some s') :
    NamesBlock h op ∧ KnownElements h (s'.updIdList txId) := by
  unfold executeEntry at executed
  split at executed
  · next zeroes =>
    have same : s'.updIdList = s.updIdList := by
      split at executed
      · cases executed
        rfl
      · cases executed
        exact (release_frame h _ _).2.1
    rw [same]
    exact ⟨(names_iff decoded).mpr fun in_place => absurd in_place (zeroes_not_updinplace zeroes), known⟩
  · split at executed
    · next in_place =>
      rw [names_iff decoded]
      unfold txUpdateBlock at executed
      split at executed
      · next missing =>
        split at executed
        · obtain ⟨⟨obj, direct⟩, -⟩ := known.add executed
          rw [missing] at direct
          cases direct
        · cases executed
      · next obj direct => exact ⟨fun _ => ⟨obj, direct⟩, (KnownElements.add (by exact known) executed).2⟩
    · next other =>
      cases executed
      exact ⟨(names_iff decoded).mpr fun in_place => absurd in_place other, known⟩

theorem visitWalk_named {ops : List LogOp} (fuel pos : Nat) (s : Store) {visits : Visits}
    (known : KnownElements h (s.updIdList txId)) (visited : visitWalk h txId stop fuel pos s = some visits)
    (decoded : visits.records.map LogRecord.op = ops.map some) : ∀ op ∈ ops, NamesBlock h op := by
  induction fuel generalizing pos s ops visits with
  | zero =>
    cases visited
    have none_left : ops = [] := by simpa using decoded.symm
    simp [none_left]
  | succ fuel ih =>
    unfold visitWalk at visited
    split at visited
    · obtain ⟨next, executed, tail⟩ := Option.bind_eq_some_iff.mp visited
      obtain ⟨later, walked, rfl⟩ := Option.map_eq_some_iff.mp tail
      cases ops with
      | nil => simp at decoded
      | cons op rest =>
        simp only [List.map_cons, List.cons.injEq] at decoded
        obtain ⟨names, known'⟩ := known.entry decoded.1 executed
        exact List.forall_mem_cons.mpr ⟨names, ih _ next known' walked decoded.2⟩
    · cases visited
      have none_left : ops = [] := by simpa using decoded.symm
      simp [none_left]

end Loop

section Appended

variable {h : Handle} {s : Store} {i : Nat}

theorem LogOp.stored_le (op : LogOp) : op.stored ≤ op.len := by
  have bytes : sizeofTxEntry = 24 := rfl
  cases op <;> simp only [LogOp.stored, LogOp.len] <;> omega

theorem LogOp.fill_record (h : Handle) (p : Pool) (pos : Nat) {op : LogOp} (words : op.Words) :
    ∃ r, recordAt (op.fill h p pos).mem pos = r ∧ r.op = some op ∧ r.entry.span = op.len := by
  -- what the entry of an operation says is read back from its bytes
  cases op with
  | write blkId =>
    have plain : TxOp.write.code ≠ TxOp.updinplace.code := by decide
    refine ⟨_, record_plain (readEntry_id1 p pos .write blkId) plain, ?_, rfl⟩
    rw [Nat.mod_eq_of_lt words]
    rfl
  | update oldBlkId newBlkId =>
    have plain : TxOp.update.code ≠ TxOp.updinplace.code := by decide
    refine ⟨_, record_plain (readEntry_ids p pos .update oldBlkId newBlkId) plain, ?_, rfl⟩
    rw [Nat.mod_eq_of_lt words.1, Nat.mod_eq_of_lt words.2]
    rfl
  | smallUpdate blkId data offset =>
    obtain ⟨known, short, small⟩ := words
    refine ⟨_, recordAt_smallUpdate h p pos blkId offset data short small, ?_, smallUpdate_span _ _ _ small⟩
    rw [Nat.mod_eq_of_lt known]
    have unpacked : TxEntry.offset ⟨TxOp.updinplace.code, blkId, data.length * 2 ^ 32 + offset⟩ = offset := by
      simp only [TxEntry.offset]
      omega
    simp only [LogRecord.op, unpacked]
    rfl
  | remove blkId =>
    have plain : TxOp.remove.code ≠ TxOp.updinplace.code := by decide
    refine ⟨_, record_plain (readEntry_id1 p pos .remove blkId) plain, ?_, rfl⟩
    rw [Nat.mod_eq_of_lt words]
    rfl

theorem LogOp.run_updIdList (op : LogOp) (txSlotId : Nat) : (op.run h s txSlotId).1.updIdList = s.updIdList := by
  rw [LogOp.run_eq]
  unfold txSlotAppend
  split
  · rfl
  · simp only
    split <;> rfl

theorem LogOp.run_records (layout : h.LogLayout) (known : i < h.txSlotsCount) {op : LogOp} (words : op.Words)
    {records : List LogRecord} (log : SlotRecords s.pool.mem (h.slotAddr i) records)
    (processing : h.status s i = TxStatus.processing.code) (fits : h.size s i + op.len ≤ h.backend.txSlotSize) :
    ((op.run h s (i + 1)).2 = .ok ∧ SlotOnly h i s (op.run h s (i + 1)).1) ∧
      (h.status (op.run h s (i + 1)).1 i = TxStatus.processing.code ∧
        h.size (op.run h s (i + 1)).1 i = h.size s i + op.len) ∧
      ∃ r, r.op = some op ∧ SlotRecords (op.run h s (i + 1)).1.pool.mem (h.slotAddr i) (records ++ [r]) := by
  have fills : FillsEntry (op.fill h) op.len :=
    ⟨fun p entry => (op.fills.changed p entry).mono (span_subset (le_refl _) (by have := op.stored_le; omega))⟩
  obtain ⟨r, next, decoded, span⟩ := op.fill_record h s.pool (h.slotAddr i + h.size s i) words
  have appended := txSlotAppend_records layout known fills processing fits log r next span
  obtain ⟨done, only, status, size⟩ := txSlotAppend_spec layout s known fills processing log.size_ge fits
  rw [← LogOp.run_eq] at appended done only status size
  exact ⟨⟨by rw [done], only⟩, ⟨status, size⟩, r, decoded, appended⟩

theorem appendOps_records (layout : h.LogLayout) (known : i < h.txSlotsCount) {ops : List LogOp}
    (words : ∀ op ∈ ops, op.Words) {records : List LogRecord}
    (log : SlotRecords s.pool.mem (h.slotAddr i) records) (processing : h.status s i = TxStatus.processing.code)
    (fits : h.size s i + opsLen ops ≤ h.backend.txSlotSize) :
    ∃ more, SlotRecords (appendOps h (i + 1) s ops).pool.mem (h.slotAddr i) (records ++ more) ∧
      more.map LogRecord.op = ops.map some ∧
      h.status (appendOps h (i + 1) s ops) i = TxStatus.processing.code ∧
      h.size (appendOps h (i + 1) s ops) i = h.size s i + opsLen ops ∧
      (appendOps h (i + 1) s ops).updIdList = s.updIdList := by
  induction ops generalizing s records with
  | nil =>
    have same : appendOps h (i + 1) s [] = s := rfl
    have nothing : opsLen [] = 0 := rfl
    rw [same, nothing]
    exact ⟨[], by rwa [List.append_nil], rfl, processing, (Nat.add_zero _).symm, rfl⟩
  | cons op rest ih =>
    have total : opsLen (op :: rest) = op.len + opsLen rest := by simp [opsLen]
    obtain ⟨-, ⟨processing', size⟩, r, decoded, appended⟩ := LogOp.run_records layout known
      (words op List.mem_cons_self) log processing (by omega)
    obtain ⟨more, log', decoded', status, size', lists⟩ := ih (s := (op.run h s (i + 1)).1)
      (fun other member => words other (List.mem_cons_of_mem _ member)) appended processing' (by omega)
    refine ⟨r :: more, by simpa [appendOps] using log', by simp [decoded, decoded'], status, ?_, ?_⟩
    · rw [appendOps, List.foldl_cons, ← appendOps, size']
      omega
    · rw [appendOps, List.foldl_cons, ← appendOps, lists, LogOp.run_updIdList]

-- the entries of a slot are read back as they were appended, and the loop of an execution goes through all of them
-- unless a small update names no block
theorem appended_decoded (layout : h.LogLayout) (known : i < h.txSlotsCount) {ops : List LogOp}
    (words : ∀ op ∈ ops, op.Words) (fits : sizeofTxSlot + opsLen ops ≤ h.backend.txSlotSize) {started commited : Store}
    (starts : txSlotInit h s (i + 1) = (started, .ok))
    (commits : txSlotCommit h (appendOps h (i + 1) started ops) (i + 1) = (commited, .ok)) :
    (∃ records, SlotRecords commited.pool.mem (h.slotAddr i) records ∧ records.map LogRecord.op = ops.map some) ∧
      ((∀ op ∈ ops, NamesBlock h op) → Decodes h commited i ops) ∧
      (KnownElements h (s.updIdList i) → Decodes h commited i ops → ∀ op ∈ ops, NamesBlock h op) := by
  have below := Handle.slot_below known
  have small := layout.end_lt
  obtain ⟨-, processing, size⟩ := txSlotInit_spec layout s known
  have lists : started.updIdList = s.updIdList := by
    rw [txSlotInit_eq layout s known] at starts
    cases starts
    rfl
  rw [starts] at processing size
  simp only at processing size
  obtain ⟨records, log, decoded, status, size', lists'⟩ := appendOps_records layout known words (slotRecords_nil size)
    processing (by omega)
  rw [txSlotCommit_eq layout _ known, if_pos status] at commits
  cases commits
  generalize appendOps h (i + 1) started ops = appended at *
  have header := statusChecksum_header h appended.pool (h.slotAddr i) i .commited
  have log' := log.congr fun x lower upper => header_frame header x lower
  have same_size : slotSize (txSlotChecksum h (appended.pool.setStatus (h.slotAddr i) .commited) (h.slotAddr i) i).mem
      (h.slotAddr i) = h.size appended i := word_congr _ _ _ _ fun x lower _ => header_frame header x (by omega)
  have inside : h.slotAddr i + h.size appended i ≤ h.logEnd := by omega
  unfold Decodes visitLog
  simp only [same_size, u64_of_lt (show h.slotAddr i + h.size appended i < 2 ^ 64 by omega)]
  have walk : LogAt (txSlotChecksum h (appended.pool.setStatus (h.slotAddr i) .commited) (h.slotAddr i) i).mem
      (h.slotAddr i + sizeofTxSlot) records (h.slotAddr i + h.size appended i) := by
    rw [← same_size]
    exact log'
  refine ⟨⟨records, log', decoded⟩, fun names => ?_, fun elements visited => ?_⟩
  · have total : ∀ r ∈ records, ∀ u pos, ∃ u', executeEntry h u i pos r.entry = some u' := by
      intro r member u pos
      have op_member : r.op ∈ ops.map some := decoded ▸ List.mem_map_of_mem member
      obtain ⟨op, inside', decoded'⟩ := List.mem_map.mp op_member
      exact executeEntry_total decoded'.symm (names op inside') u i pos
    obtain ⟨visits, walked⟩ := visitWalk_total layout inside walk total
      (h.slotAddr i + h.size appended i - (h.slotAddr i + sizeofTxSlot))
      { appended with pool := txSlotChecksum h (appended.pool.setStatus (h.slotAddr i) .commited) (h.slotAddr i) i }
      fun _ _ => rfl
    obtain ⟨records_eq, position⟩ := visitWalk_visits layout inside walk _ (le_refl _) _ (fun _ _ => rfl) walked
    refine ⟨visits, walked, by rw [records_eq, decoded], ?_⟩
    rw [position]
    exact congrArg _ same_size.symm
  · obtain ⟨visits, walked, decoded', -⟩ := visited
    refine visitWalk_named _ _ _ ?_ walked decoded'
    simp only [lists', lists]
    exact elements

end Appended

def flatStarted : Store := (txSlotInit flatHandle flatStore 1).1

def flatCommited (ops : List LogOp) : Store := (txSlotCommit flatHandle (appendOps flatHandle 1 flatStarted ops) 1).1

-- the payload looks like a REMOVE entry of block 1
def sampleOps : List LogOp :=
  [.smallUpdate 1 (encode 4 TxOp.remove.code ++ encode 4 0 ++ encode 8 1 ++ [7]) 5, .update 1 2, .remove 2]

theorem appended_decoded_sample : Decodes flatHandle (flatCommited sampleOps) 0 sampleOps := by
  have starts : (txSlotInit flatHandle flatStore 1).2 = .ok := by decide +kernel
  have commits : (txSlotCommit flatHandle (appendOps flatHandle 1 flatStarted sampleOps) 1).2 = .ok := by decide +kernel
  have words : ∀ op ∈ sampleOps, op.Words := by
    intro op member
    simp only [sampleOps, List.mem_cons, List.not_mem_nil, or_false] at member
    rcases member with rfl | rfl | rfl
    · exact ⟨by decide, by decide, by decide⟩
    · exact ⟨by decide, by decide⟩
    · show 2 < 2 ^ 64
      decide
  obtain ⟨-, decodes, -⟩ := appended_decoded flatHandle_layout.toLogLayout (show 0 < 1 by decide) words
    (by decide) (Prod.ext rfl starts) (Prod.ext rfl commits)
  refine decodes fun op member => ?_
  simp only [sampleOps, List.mem_cons, List.not_mem_nil, or_false] at member
  rcases member with rfl | rfl | rfl
  · exact ⟨139638110957568, by decide +kernel⟩
  · trivial
  · trivial

-- a one-byte update of block 9 of 3 is logged and committed, and the loop faults before it gets past it
theorem unknown_update_faults :
    (txSlotInit flatHandle flatStore 1).2 = .ok ∧
      (txSlotOpSmallUpdate flatHandle flatStarted 1 9 [118] 0).2 = .ok ∧
      (txSlotCommit flatHandle (appendOps flatHandle 1 flatStarted [.smallUpdate 9 [118] 0]) 1).2 = .ok ∧
      ¬Decodes flatHandle (flatCommited [.smallUpdate 9 [118] 0]) 0 [.smallUpdate 9 [118] 0] := by
  have faults : (visitLog flatHandle (flatCommited [.smallUpdate 9 [118] 0]) 0 (flatHandle.slotAddr 0)).isNone := by
    decide +kernel
  refine ⟨by decide +kernel, by decide +kernel, by decide +kernel, ?_⟩
  rintro ⟨visits, visited, -⟩
  rw [visited] at faults
  cases faults

end PmBackend
