import PmBackend.PutValues
import PmBackend.SealedCalls
import PmBackend.Shared.DeferredLog

set_option autoImplicit false

namespace PmBackend

open ByteMemory DeferredLog

-- the values of the live blocks, by block id
abbrev Objects := Nat → Option PartialBytes

-- what `tx_slot_execute` does to the objects at a record
def LogRecord.change (r : LogRecord) : Change Nat PartialBytes :=
  if r.entry.type = TxOp.update.code ∨ r.entry.type = TxOp.remove.code then .remove r.entry.blkId1
  else if r.entry.type = TxOp.updinplace.code then
    .modify r.entry.blkId1 fun v => v.overlay r.entry.offset r.payload
  else .keep

def executeRecord (h : Handle) (txId : Nat) (s : Store) (r : LogRecord) : Option Store :=
  if r.entry.type = TxOp.updinplace.code then txUpdateBlock h s txId r.entry.blkId1 r.payload r.entry.offset
  else executeEntry h s txId 0 r.entry

-- the value area of a live block has room for the value and holds it
structure HoldsValue (h : Handle) (m : Mem) (id obj : Nat) (v : PartialBytes) : Prop where
  live : backendGet h m id = .ok obj
  value : v.HeldAt m (valueAddr h m id obj)
  room : valueAddr h m id obj + v.len ≤ obj + h.backend.blockSize id

-- the block has this object, or is not live; the header of a waiting block may still have an old length
def Handle.Holds (h : Handle) (m : Mem) (waiting : Set Nat) (id : Nat) : Option PartialBytes → Prop
  | none => ∀ obj, backendGet h m id ≠ .ok obj
  | some v => ∃ obj, HoldsValue h m id obj v ∧ (id ∉ waiting → valLen m obj = v.len)

def HoldsBut (h : Handle) (m : Mem) (objects : Objects) (waiting : Set Nat) : Prop :=
  ∀ id, h.Holds m waiting id (objects id)

structure Executing (h : Handle) (named : Finset Nat) (txId : Nat) (updated : List Nat) (s : Store)
    (objects : Objects) : Prop extends ExecuteSealed h named txId updated s where
  held : HoldsBut h s.pool.mem objects {id | id ∈ updated}
  lengths : ∀ k < (s.updIdList txId).count, ∀ v, objects ((s.updIdList txId).list k).id = some v →
    ((s.updIdList txId).list k).valLen = v.len

section Values

variable {h : Handle} {m m' : Mem} {id obj : Nat} {v : PartialBytes} {object : Option PartialBytes}
  {objects : Objects} {waiting waiting' : Set Nat}

theorem valueAddr_congr (key : keyLen m' obj = keyLen m obj) : valueAddr h m' id obj = valueAddr h m id obj := by
  unfold valueAddr
  rw [key]

theorem valueAddr_ge (h : Handle) (m : Mem) (id obj : Nat) : obj + 32 ≤ valueAddr h m id obj := by
  have hdr : sizeofDataHdr = 32 := rfl
  unfold valueAddr
  split <;> omega

theorem valueAddr_data (m : Mem) (obj : Nat) (data : id < h.totalObjsCount) : valueAddr h m id obj = obj + 32 + h.maxKeyLen := if_pos data

theorem valueAddr_objectLen (h : Handle) (m : Mem) (id obj : Nat) :
    valueAddr h m id obj + valLen m obj = obj + h.objectLen m id obj := by
  -- the object that a header describes ends where its value does
  have hdr : sizeofDataHdr = 32 := rfl
  unfold valueAddr Handle.objectLen
  split <;> omega

theorem HoldsValue.direct (holds : HoldsValue h m id obj v) : backendDirect h.backend id = some obj :=
  (backendGet_ok.mp holds.live).2.1

theorem Untouched.backendGet (same : Untouched h id m m') (room : 32 ≤ h.backend.blockSize id) :
    backendGet h m' id = .ok obj ↔ backendGet h m id = .ok obj := by
  simp only [backendGet_ok]
  refine and_congr_right fun _ => and_congr_right fun direct => ?_
  rw [(same.words direct room).1]

theorem HoldsValue.untouched (holds : HoldsValue h m id obj v) (room : 32 ≤ h.backend.blockSize id)
    (same : Untouched h id m m') : HoldsValue h m' id obj v := by
  have direct := holds.direct
  have addr : valueAddr h m' id obj = valueAddr h m id obj := valueAddr_congr (same.words direct room).2.2.2.1
  have above := valueAddr_ge h m id obj
  have fits := holds.room
  refine ⟨(same.backendGet room).mpr holds.live, ?_, by rw [addr]; exact fits⟩
  rw [addr]
  refine holds.value.congr fun i below => same _ ?_
  rw [blockAt_span direct, mem_span]
  omega

theorem Handle.Holds.untouched (holds : h.Holds m waiting id object) (room : 32 ≤ h.backend.blockSize id)
    (same : Untouched h id m m') (ready : id ∉ waiting' → id ∉ waiting) : h.Holds m' waiting' id object := by
  cases object with
  | none => exact fun obj get => holds obj ((same.backendGet room).mp get)
  | some v =>
    obtain ⟨obj, value, length⟩ := holds
    refine ⟨obj, value.untouched room same, fun settled => ?_⟩
    rw [(same.words value.direct room).2.2.2.2]
    exact length (ready settled)

theorem HoldsBut.value (held : HoldsBut h m objects waiting) (object : objects id = some v) :
    ∃ obj, HoldsValue h m id obj v ∧ (id ∉ waiting → valLen m obj = v.len) := by
  have here := held id
  rwa [object] at here

theorem HoldsBut.block (rooms : h.Rooms) (held : HoldsBut h m objects waiting) (alone : h.Alone id)
    (changed : ChangedIn (h.blockAt id ∪ h.logArea) m m') (here : h.Holds m' waiting' id object)
    (rest : ∀ j, j ≠ id → j ∉ waiting' → j ∉ waiting) :
    HoldsBut h m' (Function.update objects id object) waiting' := by
  intro j
  by_cases same : j = id
  · subst same
    rw [Function.update_self]
    exact here
  · rw [Function.update_of_ne same]
    have untouched := ChangedIn.others_untouched rooms.toLogLayout alone changed same
    exact (held j).untouched (rooms.room j) untouched (rest j same)

theorem HoldsBut.log (rooms : h.Rooms) (held : HoldsBut h m objects waiting) (changed : ChangedIn h.logArea m m') :
    HoldsBut h m' objects waiting := fun id =>
  (held id).untouched (rooms.room id) (ChangedIn.blocks_untouched rooms.toLogLayout changed id) fun ready => ready

theorem HoldsValue.of_contained (live : PmBackend.backendGet h m id = .ok obj) (contained : h.Contained m id obj)
    (length : valLen m obj = v.len) (value : v.HeldAt m (valueAddr h m id obj)) : HoldsValue h m id obj v := by
  refine ⟨live, value, ?_⟩
  rw [← length, valueAddr_objectLen]
  exact Nat.add_le_add_left contained.fits obj

end Values

section Steps

variable {h : Handle} {s s' : Store} {txId : Nat} {named : Finset Nat} {updated : List Nat} {objects : Objects}

theorem Executing.zero (rooms : h.Rooms) (inv : Executing h named txId updated s objects) {id obj : Nat}
    (unnamed : id ∉ named) (found : backendGet h s.pool.mem id = .ok obj) :
    Executing h named txId updated ((s.setZero (some obj)).release h id) (Function.update objects id none) := by
  have hdr : sizeofDataHdr = 32 := rfl
  obtain ⟨-, direct, live⟩ := backendGet_ok.mp found
  have contained := inv.blocks.contained id obj direct
  have zeroed := contained.zeroed
  have changed := (setZero_changed s obj).mono (span_blockAt direct (le_refl _) (by omega))
  obtain ⟨pool, lists, -⟩ := release_frame h (s.setZero (some obj)) id
  have same : ((s.setZero (some obj)).release h id).updIdList = s.updIdList := lists
  refine ⟨inv.toExecuteSealed.zero rooms found, ?_, fun k below v object => ?_⟩
  · rw [pool]
    refine inv.held.block rooms (contained.alone live) (changed.mono Set.subset_union_left) (fun addr get => ?_)
      fun _ _ ready => ready
    obtain ⟨-, direct', live'⟩ := backendGet_ok.mp get
    rw [direct] at direct'
    cases direct'
    exact live' (setZero_header s obj).1
  · rw [same] at below object ⊢
    have other : ((s.updIdList txId).list k).id ≠ id := by
      intro here
      exact unnamed (here ▸ inv.named _ (inv.holds.mem_iff.mpr ⟨k, below, rfl⟩))
    rw [Function.update_of_ne other] at object
    exact inv.lengths k below v object

theorem added_lengths {blkId size obj last : Nat} (holds : ListHolds (s.updIdList txId) updated)
    (safe : AddSafe (s.updIdList txId) updated blkId) (direct : backendDirect h.backend blkId = some obj)
    (header : blkId ∉ updated → valLen s.pool.mem obj = last)
    (listed : ∀ k < (s.updIdList txId).count, ((s.updIdList txId).list k).id = blkId →
      ((s.updIdList txId).list k).valLen = last)
    (added : txSlotMetaUpdAdd h s txId blkId size = some s') :
    ∀ k < (s'.updIdList txId).count,
      (((s'.updIdList txId).list k).id = blkId ∧ ((s'.updIdList txId).list k).valLen = max last size) ∨
        (((s'.updIdList txId).list k).id ≠ blkId ∧ k < (s.updIdList txId).count ∧
          (s'.updIdList txId).list k = (s.updIdList txId).list k) := by
  -- the element of the block grows with the update, and the other elements stay
  obtain ⟨i, before, grown, others, rest, place⟩ := added_element holds safe direct added
  have same_last : before.valLen = last := by
    rcases place with ⟨inside, -, rfl, hit⟩ | ⟨-, -, fresh, rfl⟩
    · exact listed i inside hit
    · exact header fresh
  intro k below
  by_cases here : k = i
  · subst here
    rw [grown]
    exact Or.inl ⟨rfl, by rw [same_last]⟩
  · obtain ⟨earlier, other⟩ := rest k below here
    rw [others k here]
    exact Or.inr ⟨other, earlier, rfl⟩

theorem Executing.update (rooms : h.Rooms) (inv : Executing h named txId updated s objects) (few : named.card ≤ 128)
    {id offset : Nat} {payload : List UInt8} {v : PartialBytes} (member : id ∈ named) (data : id < h.totalObjsCount)
    (room : 32 + h.maxKeyLen + (offset + payload.length) ≤ h.backend.bsize) (object : objects id = some v)
    (done : txUpdateBlock h s txId id payload offset = some s') :
    Executing h named txId (addUpdated updated id) s'
      (Function.update objects id (some (v.overlay offset payload))) := by
  -- an update of a live data block overlays its value
  have small := rooms.bsize_small
  have size := blockSize_data data
  obtain ⟨obj, holds, length⟩ := inv.held.value object
  obtain ⟨positive, direct, live⟩ := backendGet_ok.mp holds.live
  have alone := (inv.blocks.contained id obj direct).alone live
  have sealed := inv.toExecuteSealed.update rooms few member ⟨positive, data, alone⟩ room done
  have safe := inv.addSafe few member positive
  obtain ⟨stored, added⟩ := txUpdateBlock_stores direct (by omega) done
  -- the copy goes behind the header
  have behind : ChangedIn (span (obj + 32) (h.backend.bsize - 32)) s.pool.mem s'.pool.mem := by
    rw [stored]
    exact ChangedIn.write _ _ _ _ (span_subset (by omega) (by omega))
  have flch : flch64 s'.pool.mem obj = flch64 s.pool.mem obj := behind.word_apart (by omega)
  have val : valLen s'.pool.mem obj = valLen s.pool.mem obj := behind.word_apart (by omega)
  have changed : ChangedIn (h.blockAt id) s.pool.mem s'.pool.mem :=
    behind.mono (span_blockAt direct (by omega) (by omega))
  have elements := added_lengths (s := { s with pool := s'.pool }) inv.holds safe direct
    (fun fresh => show valLen s'.pool.mem obj = v.len by rw [val]; exact length fresh)
    (fun k below named => inv.lengths k below v (by rw [named]; exact object)) added
  refine ⟨sealed, inv.held.block rooms alone (changed.mono Set.subset_union_left) ?_ fun j _ ready before =>
    ready (mem_addUpdated.mpr (Or.inl before)), fun k below w found => ?_⟩
  · have start := valueAddr_data (h := h) s.pool.mem obj data
    have before := holds.room
    have value := holds.value
    rw [start] at before value
    refine ⟨obj, ⟨backendGet_ok.mpr ⟨positive, direct, by rw [flch]; exact live⟩, ?_, ?_⟩,
      fun waits => absurd (mem_addUpdated.mpr (Or.inr rfl)) waits⟩
    · rw [valueAddr_data _ _ data, stored]
      exact value.write offset payload
    · rw [valueAddr_data _ _ data, PartialBytes.overlay_len]
      omega
  · rcases elements k below with ⟨same, grown⟩ | ⟨other, before, element⟩
    · rw [same, Function.update_self] at found
      cases found
      rw [grown, PartialBytes.overlay_len]
    · rw [Function.update_of_ne other, element] at found
      rw [element]
      exact inv.lengths k before w found

-- an in-place update stays in its block, which is one of the named ones
def RecordFits (h : Handle) (named : Finset Nat) (r : LogRecord) : Prop :=
  InPlace r → r.entry.blkId1 ∈ named ∧ 32 + h.maxKeyLen + (r.entry.offset + r.payload.length) ≤ h.backend.bsize

theorem Executing.record (rooms : h.Rooms) (inv : Executing h named txId updated s objects) (few : named.card ≤ 128)
    (data : ∀ id ∈ named, id < h.totalObjsCount) {r : LogRecord} (fits : RecordFits h named r)
    (plain : Zeroes r.entry → r.entry.blkId1 ∉ named) (alive : ∀ id ∈ named, objects id ≠ none)
    (done : executeRecord h txId s r = some s') :
    ∃ updated', Executing h named txId updated' s' (r.change.apply objects) := by
  unfold executeRecord at done
  unfold LogRecord.change
  split at done
  · next in_place =>
    obtain ⟨member, room⟩ := fits in_place
    have other : ¬(r.entry.type = TxOp.update.code ∨ r.entry.type = TxOp.remove.code) := fun zeroes =>
      zeroes_not_updinplace zeroes in_place
    obtain ⟨v, object⟩ := Option.ne_none_iff_exists'.mp (alive _ member)
    simp only [if_neg other, if_pos in_place, Change.apply, object, Option.map_some]
    exact ⟨_, inv.update rooms few member (data _ member) room object done⟩
  · next other =>
    unfold executeEntry at done
    split at done
    · next zeroes =>
      rw [if_pos zeroes]
      refine ⟨updated, ?_⟩
      split at done
      · next missing =>
        -- a block that is not found has no object
        cases done
        have none_there : objects r.entry.blkId1 = none := by
          cases object : objects r.entry.blkId1 with
          | none => rfl
          | some v =>
            obtain ⟨obj, holds, -⟩ := inv.held.value object
            rw [holds.live] at missing
            cases missing
        rw [Change.apply, ← none_there, Function.update_eq_self]
        exact inv
      · next obj found =>
        cases done
        exact inv.zero rooms (plain zeroes) found
    · next kept =>
      rw [if_neg kept, if_neg other]
      cases done
      exact ⟨updated, inv⟩

theorem change_keeps {id : Nat} {r : LogRecord} (plain : Zeroes r.entry → r.entry.blkId1 ≠ id)
    (alive : objects id ≠ none) : r.change.apply objects id ≠ none := by
  unfold LogRecord.change
  split
  · next zeroes =>
    rw [Change.apply, Function.update_of_ne (plain zeroes).symm]
    exact alive
  · split
    · by_cases here : id = r.entry.blkId1
      · subst here
        simp only [Change.apply, Function.update_self]
        exact fun none_left => alive (Option.map_eq_none_iff.mp none_left)
      · rw [Change.apply, Function.update_of_ne here]
        exact alive
    · exact alive

theorem Executing.run (rooms : h.Rooms) (few : named.card ≤ 128) {records : List LogRecord}
    (data : ∀ id ∈ named, id < h.totalObjsCount) (fits : ∀ r ∈ records, RecordFits h named r)
    (plain : ∀ r ∈ records, Zeroes r.entry → r.entry.blkId1 ∉ named) (inv : Executing h named txId updated s objects)
    (alive : ∀ id ∈ named, objects id ≠ none) (done : records.foldlM (executeRecord h txId) s = some s') :
    (∃ updated', Executing h named txId updated' s' (applyAll (records.map LogRecord.change) objects)) ∧
      ∀ id ∈ named, applyAll (records.map LogRecord.change) objects id ≠ none := by
  induction records generalizing s updated objects with
  | nil =>
    cases done
    exact ⟨⟨updated, inv⟩, alive⟩
  | cons r rest ih =>
    rw [List.foldlM_cons] at done
    obtain ⟨next, first, later⟩ := Option.bind_eq_some_iff.mp done
    have here := plain r List.mem_cons_self
    obtain ⟨updated', inv'⟩ := inv.record rooms few data (fits r List.mem_cons_self) here alive first
    refine ih (fun r' member => fits r' (List.mem_cons_of_mem _ member))
      (fun r' member => plain r' (List.mem_cons_of_mem _ member)) inv' (fun id member => ?_) later
    exact change_keeps (fun zeroes same => here zeroes (same ▸ member)) (alive id member)

end Steps

section Executions

variable {h : Handle} {s s' : Store} {txId : Nat} {named : Finset Nat} {objects base : Objects}
  {records : List LogRecord}

theorem executeRecord_eq {r : LogRecord} {m : Mem} {pos : Nat} (met : recordAt m pos = r)
    (same : ∀ x, pos ≤ x → x < pos + r.entry.span → s.pool.mem x = m x) :
    executeEntry h s txId pos r.entry = executeRecord h txId s r := by
  subst met
  unfold executeRecord
  split
  · next in_place =>
    have other : ¬((recordAt m pos).entry.type = TxOp.update.code ∨ (recordAt m pos).entry.type = TxOp.remove.code) :=
      fun zeroes => zeroes_not_updinplace zeroes in_place
    have span : (recordAt m pos).entry.span = sizeofTxEntry + (recordAt m pos).entry.size := if_pos in_place
    rw [span] at same
    unfold executeEntry
    rw [if_neg other, if_pos in_place]
    have payload : (recordAt m pos).payload = m.read (pos + sizeofTxEntry) (recordAt m pos).entry.size := by
      change m.read _ ((recordAt m pos).entry.span - sizeofTxEntry) = _
      rw [span, Nat.add_sub_cancel_left]
    rw [payload, read_congr m s.pool.mem _ _ fun x lower upper => same x (by omega) (by omega)]
  · next other =>
    unfold executeEntry
    split <;> rfl

theorem logWalk_executes (layout : h.LogLayout) {m : Mem} {pos stop : Nat} (log : LogAt m pos records stop)
    (below : stop ≤ h.logEnd) (fuel : Nat) (enough : stop - pos ≤ fuel)
    (same : ∀ x < h.logEnd, s.pool.mem x = m x) :
    (logWalk m stop fuel pos).foldlM (fun s r => executeEntry h s txId r.1 r.2) s =
      records.foldlM (executeRecord h txId) s := by
  -- the walk over the entries of a log is the walk over its records
  induction records generalizing s pos fuel with
  | nil =>
    cases log
    cases fuel with
    | zero => rfl
    | succ fuel => simp [logWalk]
  | cons r rest ih =>
    obtain ⟨first, later⟩ := log
    have bound := later.le
    have room := span_ge r.entry
    obtain ⟨more, rfl⟩ : ∃ more, fuel = more + 1 := ⟨fuel - 1, by omega⟩
    have entry : readEntry m pos = r.entry := by rw [← recordAt_entry, first]
    have again : pos < stop := by omega
    have step : executeEntry h s txId pos r.entry = executeRecord h txId s r :=
      executeRecord_eq first fun x _ upper => same x (by omega)
    unfold logWalk
    rw [if_pos again, entry, List.foldlM_cons, List.foldlM_cons, ← step]
    cases executed : executeEntry h s txId pos r.entry with
    | none => rfl
    | some next =>
      refine ih later more (by omega) fun x lower => ?_
      rw [(executeEntry_blocksOnly layout executed).changed x (by simpa [Handle.blockArea] using lower)]
      exact same x lower

theorem txSlotExecute_commited (layout : h.LogLayout) {i : Nat} (known : i < h.txSlotsCount)
    (done : txSlotExecute h s (i + 1) = some (s', .ok)) : h.status s i = TxStatus.commited.code := by
  unfold txSlotExecute at done
  rw [layout.txDirect_eq (by omega) (by omega)] at done
  simp only [Nat.add_sub_cancel] at done
  split at done
  · cases done
  · next commited => exact not_not.mp commited

theorem txSlotExecute_records (layout : h.LogLayout) {i : Nat} (known : i < h.txSlotsCount)
    (commited : h.status s i = TxStatus.commited.code) (log : SlotRecords s.pool.mem (h.slotAddr i) records)
    (fits : h.size s i ≤ h.backend.txSlotSize) :
    txSlotExecute h s (i + 1) = (records.foldlM (executeRecord h i) s).bind fun next =>
      (txSlotMetaUpdProcess h next i).map fun done =>
        ({ done with pool := backendTxSetZero h done.pool (h.slotAddr i) }, .ok) := by
  have below := Handle.slot_below known
  have small := layout.end_lt
  have size : slotSize s.pool.mem (h.slotAddr i) = h.size s i := rfl
  have inside : h.slotAddr i + slotSize s.pool.mem (h.slotAddr i) ≤ h.logEnd := by omega
  have status : slotStatus s.pool.mem (h.slotAddr i) = TxStatus.commited.code := commited
  obtain ⟨-, entries⟩ := log.entries (by omega)
  have walked : executeLog h s i (h.slotAddr i) = records.foldlM (executeRecord h i) s := by
    rw [executeLog_eq layout i (h.slotAddr i) s fun r member => (entries r member).trans inside, slotLog,
      u64_of_lt (by omega), logWalk_executes layout log inside _ (le_refl _) fun _ _ => rfl]
  unfold txSlotExecute
  rw [layout.txDirect_eq (by omega) (by omega), layout.txIndex_eq (by omega) (by omega)]
  simp only [Nat.add_sub_cancel, status, ne_eq, not_true_eq_false, if_false, walked]

theorem metaProcess_holds (rooms : h.Rooms) (nonzero : ∀ bytes, h.checksum bytes ≠ 0) {list : Nat → TxMeta}
    {count i : Nat} {p q : Pool} (held : HoldsBut h p.mem objects (waitingFrom list i count))
    (elements : ∀ k, i ≤ k → k < i + count → (list k).id < h.totalObjsCount ∧ h.Alone (list k).id ∧
      ∃ v, objects (list k).id = some v ∧ (list k).valLen = v.len)
    (done : metaProcess h list count i p = some q) : HoldsBut h q.mem objects ∅ := by
  -- rewriting its header gives an updated block the length of its value
  have hdr : sizeofDataHdr = 32 := rfl
  induction count generalizing i p with
  | zero =>
    cases done
    refine fun id => (held id).untouched (rooms.room id) (Untouched.refl id _) fun _ waits => ?_
    obtain ⟨k, lower, upper, -⟩ := waits
    omega
  | succ count ih =>
    unfold metaProcess at done
    split at done
    · cases done
    · next obj direct =>
      obtain ⟨data, alone, v, object, length⟩ := elements i (le_refl i) (by omega)
      refine ih ?_ (fun k lower upper => elements k (by omega) (by omega)) done
      generalize written_eq : (p.setVersion obj (list i).version).setValLen obj (list i).valLen = written
      obtain ⟨obj', holds, -⟩ := held.value object
      have same : obj' = obj := Option.some.inj (holds.direct.symm.trans direct)
      subst same
      have size := blockSize_data data
      have room := rooms.room (list i).id
      have small := rooms.blockSize_lt (list i).id
      have start := valueAddr_data (h := h) p.mem obj' data
      have value := holds.value
      have fits := holds.room
      rw [start] at value fits
      -- the header, and nothing behind it
      have behind : ∀ x, obj' + 32 ≤ x → written.mem x = p.mem x := by
        intro x lower
        rw [← written_eq]
        simp only [Pool.store_mem]
        rw [write_outside _ _ _ _ (by rw [length_encode]; omega), write_outside _ _ _ _ (by rw [length_encode]; omega)]
      have header : ChangedIn (span obj' 32) p.mem written.mem := by
        rw [← written_eq]
        simp only [Pool.store_mem]
        exact ((ChangedIn.refl _ _).thenEncode _ _ _ (by omega) (by omega)).thenEncode _ _ _ (by omega) (by omega)
      have val : valLen written.mem obj' = v.len := by
        rw [← written_eq, ← length]
        simp only [valLen, Pool.store_mem]
        rw [word_write_same]
        exact Nat.mod_eq_of_lt (show (list i).valLen < 256 ^ 4 by omega)
      generalize len_eq : sizeofDataHdr + h.maxKeyLen + valLen written.mem obj' = len
      have beyond : ∀ x, obj' + 8 ≤ x → (utilChecksumInsert h written obj' len).mem x = written.mem x :=
        fun x lower => write_outside _ _ _ _ (by rw [length_encode]; omega)
      have changed : ChangedIn (span obj' 32) p.mem (utilChecksumInsert h written obj' len).mem :=
        header.thenEncode _ _ _ (by omega) (by omega)
      have after : h.Holds (utilChecksumInsert h written obj' len).mem (waitingFrom list (i + 1) count) (list i).id
          (some v) := by
        refine ⟨obj', ⟨backendGet_ok.mpr ⟨(backendGet_ok.mp holds.live).1, direct, ?_⟩, ?_, ?_⟩, fun _ => ?_⟩
        · rw [utilChecksumInsert_flch]
          exact checksumOf_ne nonzero _ _ _
        · rw [valueAddr_data _ _ data]
          refine value.congr fun k _ => ?_
          rw [beyond _ (by omega), behind _ (by omega)]
        · rw [valueAddr_data _ _ data]
          exact fits
        · rw [← val]
          exact word_congr _ _ _ _ fun x lower _ => beyond x (by omega)
      have next := held.block rooms alone ((changed.mono (span_blockAt direct (le_refl _) (by omega))).mono
        Set.subset_union_left) after fun j other ready waits => ?_
      · rwa [← object, Function.update_eq_self] at next
      · obtain ⟨k, lower, upper, named⟩ := waits
        refine ready ⟨k, ?_, by omega, named⟩
        by_contra first
        have here : k = i := by omega
        exact other (by rw [← named, here])

theorem execute_holds (rooms : h.Rooms) (nonzero : ∀ bytes, h.checksum bytes ≠ 0)
    (blocks : SealedBut h s.pool.mem ∅) {i : Nat} (known : i < h.txSlotsCount) (clean : CleanList (s.updIdList i))
    (few : named.card ≤ 128) (held : HoldsBut h s.pool.mem base ∅)
    (log : SlotRecords s.pool.mem (h.slotAddr i) records) (fits : h.size s i ≤ h.backend.txSlotSize)
    (data : ∀ id ∈ named, id < h.totalObjsCount) (in_place : ∀ r ∈ records, RecordFits h named r)
    (alive : ∀ id ∈ named, applyAll (records.map LogRecord.change) base id ≠ none)
    (done : txSlotExecute h s (i + 1) = some (s', .ok)) :
    HoldsBut h s'.pool.mem (applyAll (records.map LogRecord.change) base) ∅ := by
  -- a successful execution applies the changes of the records to the objects
  rw [txSlotExecute_records rooms.toLogLayout known (txSlotExecute_commited rooms.toLogLayout known done) log fits] at done
  obtain ⟨walked, walk, rest⟩ := Option.bind_eq_some_iff.mp done
  obtain ⟨processed, process, finish⟩ := Option.map_eq_some_iff.mp rest
  cases finish
  have start : Executing h named i [] s base := by
    refine ⟨ExecuteSealed.start named blocks clean, fun id => ?_, fun k within => ?_⟩
    · exact (held id).untouched (rooms.room id) (Untouched.refl id _) fun _ => Set.notMem_empty id
    · have none_used := clean.empty
      omega
  -- a block that a record zeroes has no object in the end
  have plain : ∀ r ∈ records, Zeroes r.entry → r.entry.blkId1 ∉ named := by
    intro r member zeroes named_there
    exact alive _ named_there (applyAll_removed (List.mem_map.mpr ⟨r, member, if_pos zeroes⟩))
  obtain ⟨⟨updated, inv⟩, alive'⟩ := start.run rooms few data in_place plain
    (fun id member missing => alive id member (applyAll_none missing)) walk
  unfold txSlotMetaUpdProcess at process
  obtain ⟨pool, rewritten, rfl⟩ := Option.map_eq_some_iff.mp process
  have cleared := (setZeroSlot_changed rooms.toLogLayout { walked with pool := pool } i).mono (slotArea_log known)
  refine HoldsBut.log rooms (metaProcess_holds rooms nonzero (fun id => (inv.held id).untouched (rooms.room id)
    (Untouched.refl id _) fun ready listed => ready ?_) (fun k _ upper => ?_) rewritten) cleared
  · obtain ⟨k, within, same⟩ := inv.holds.mem_iff.mp listed
    exact ⟨k, Nat.zero_le k, by omega, same⟩
  · have within : k < (walked.updIdList i).count := by omega
    have member := inv.named _ (inv.holds.mem_iff.mpr ⟨k, within, rfl⟩)
    obtain ⟨v, object⟩ := Option.ne_none_iff_exists'.mp (alive' _ member)
    obtain ⟨obj, holds, -⟩ := inv.held.value object
    obtain ⟨-, direct, live⟩ := backendGet_ok.mp holds.live
    exact ⟨data _ member, (inv.blocks.contained _ obj direct).alone live, v, object, inv.lengths k within v object⟩

end Executions

end PmBackend
