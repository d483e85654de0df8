import PmBackend.Blocks
import PmBackend.Stores

set_option autoImplicit false

namespace PmBackend

open ByteMemory

-- a call of one of the `tx_slot_op_*` functions
inductive LogOp where
  | write (blkId : Nat)
  | update (oldBlkId newBlkId : Nat)
  | smallUpdate (blkId : Nat) (data : List UInt8) (offset : Nat)
  | remove (blkId : Nat)

def LogOp.run (h : Handle) (s : Store) (txSlotId : Nat) : LogOp → Store × Status
  | .write blkId => txSlotOpWrite h s txSlotId blkId
  | .update oldBlkId newBlkId => txSlotOpUpdate h s txSlotId oldBlkId newBlkId
  | .smallUpdate blkId data offset => txSlotOpSmallUpdate h s txSlotId blkId data offset
  | .remove blkId => txSlotOpRemove h s txSlotId blkId

-- the bytes from the start of the entry to the last one that is stored; WRITE and REMOVE leave
-- `blk_id2` as it is
def LogOp.stored : LogOp → Nat
  | .write _ => 16
  | .update _ _ => 24
  | .smallUpdate _ data _ => 24 + data.length
  | .remove _ => 16

-- the bytes by which the size of the slot grows
def LogOp.len : LogOp → Nat
  | .smallUpdate _ data _ => sizeofTxEntry + data.length
  | _ => sizeofTxEntry

def LogOp.fill (h : Handle) : LogOp → Pool → Nat → Pool
  | .write blkId => fun p entry => (p.setType entry .write).setBlkId1 entry blkId
  | .update oldBlkId newBlkId => fun p entry =>
    ((p.setType entry .update).setBlkId1 entry oldBlkId).setBlkId2 entry newBlkId
  | .smallUpdate blkId data offset => fun p entry =>
    backendMemcpy h (((p.setType entry .updinplace).setBlkId1 entry blkId).setBlkId2 entry
      (data.length * 2 ^ 32 + offset)) (entry + sizeofTxEntry) data
  | .remove blkId => fun p entry => (p.setType entry .remove).setBlkId1 entry blkId

def newBlockOp (oldBlkId newBlkId : Nat) : LogOp :=
  if oldBlkId ≠ 0 then .update oldBlkId newBlkId else .write newBlkId

theorem newBlockOp_len (oldBlkId newBlkId : Nat) : (newBlockOp oldBlkId newBlkId).len = sizeofTxEntry := by
  unfold newBlockOp
  split <;> rfl

-- the slot that a call logs to, and how
def callOp (h : Handle) (s : Store) : Call → Option (Nat × LogOp)
  | .tput txSlot kv =>
    some (txSlot,
      if kv.blkId ≠ 0 ∧ kv.valLen < h.maxValLen / 2 then .smallUpdate kv.blkId kv.valBytes kv.offset
      else newBlockOp kv.blkId (caslistPop s.freeList 0).val)
  | .tputMeta txSlot kv => some (txSlot, newBlockOp kv.blkId (caslistPop s.metaFreeList 0).val)
  | .tdel txSlot blkId => some (txSlot, .remove blkId)
  | _ => none

section Ops

variable {h : Handle} {s s' : Store}

theorem LogOp.run_eq (op : LogOp) (txSlotId : Nat) :
    op.run h s txSlotId = txSlotAppend h s txSlotId (op.fill h) op.len := by
  cases op <;> rfl

theorem logNewBlock_op (txSlot oldBlkId newBlkId : Nat) :
    logNewBlock h s txSlot oldBlkId newBlkId = (newBlockOp oldBlkId newBlkId).run h s txSlot := by
  unfold logNewBlock newBlockOp
  split <;> rfl

theorem LogOp.run_pool (op : LogOp) (txSlotId : Nat) (t : Store) (same : t.pool = s.pool) :
    (op.run h t txSlotId).1.pool = (op.run h s txSlotId).1.pool ∧
      (op.run h t txSlotId).2 = (op.run h s txSlotId).2 := by
  -- an entry depends on the pool only
  simp only [LogOp.run_eq, txSlotAppend, same]
  cases backendTxDirect h.backend (txIndex txSlotId) with
  | none => exact ⟨same, rfl⟩
  | some slot =>
    simp only
    split
    · exact ⟨same, rfl⟩
    · exact ⟨rfl, rfl⟩

theorem runCall_logs {call : Call} {ret : Return} {txSlot : Nat} {op : LogOp}
    (run : runCall h s call = some (s', ret)) (success : ret.status = .ok)
    (logs : callOp h s call = some (txSlot, op)) :
    (op.run h s txSlot).2 = .ok ∧
      (s'.pool = (op.run h s txSlot).1.pool ∨
        ∃ obj old kv, s'.pool = tputBlock h (op.run h s txSlot).1.pool obj old kv ∨
          s'.pool = tputMetaBlock h (op.run h s txSlot).1.pool obj old kv) := by
  -- a call that succeeds has logged its operation, and then written a new block or nothing
  cases call with
  | tput txSlot' kv =>
    cases logs
    cases run
    obtain ⟨-, ⟨small, logged, -⟩ | ⟨large, old, -, put⟩⟩ := pmbTput_ok (Prod.ext rfl (Prod.ext success rfl))
    · have same : (kv.blkId ≠ 0 ∧ kv.valLen < h.maxValLen / 2) := small
      rw [if_pos same]
      exact ⟨congrArg Prod.snd logged, Or.inl (congrArg (fun done => done.1.pool) logged).symm⟩
    · have other : ¬(kv.blkId ≠ 0 ∧ kv.valLen < h.maxValLen / 2) := large
      obtain ⟨-, obj, logged, -, entry, written, -⟩ := tputNewBlock_ok put
      rw [logNewBlock_op] at entry
      obtain ⟨pool, status⟩ := (newBlockOp kv.blkId (caslistPop s.freeList 0).val).run_pool (h := h) txSlot
        (s := s) { s with freeList := (caslistPop s.freeList 0).list } rfl
      rw [entry] at pool status
      have put_pool := congrArg Store.pool written
      rw [if_neg other, ← pool]
      exact ⟨status.symm, Or.inr ⟨obj, old, kv, Or.inl put_pool⟩⟩
  | tputMeta txSlot' kv =>
    cases logs
    cases run
    obtain ⟨-, old, -, put⟩ := pmbTputMeta_ok (Prod.ext rfl (Prod.ext success rfl))
    obtain ⟨-, obj, logged, -, entry, written, -⟩ := tputMetaNewBlock_ok put
    rw [logNewBlock_op] at entry
    obtain ⟨pool, status⟩ := (newBlockOp kv.blkId (caslistPop s.metaFreeList 0).val).run_pool (h := h) txSlot
      (s := s) { s with metaFreeList := (caslistPop s.metaFreeList 0).list } rfl
    rw [entry] at pool status
    have put_pool := congrArg Store.pool written
    rw [← pool]
    exact ⟨status.symm, Or.inr ⟨obj, old, kv, Or.inr put_pool⟩⟩
  | tdel txSlot' blkId =>
    cases logs
    cases run
    obtain ⟨-, -, logged⟩ := pmbTdel_ok (Prod.ext rfl success)
    exact ⟨congrArg Prod.snd logged, Or.inl (congrArg (fun done => done.1.pool) logged).symm⟩
  | txBegin => cases logs
  | txCommit _ => cases logs
  | txExecute _ => cases logs
  | txAbort _ => cases logs
  | resolveConflict _ _ => cases logs

theorem LogOp.fill_writes_iff {p q : Pool} (op : LogOp) (follows : p.Follows q) (entry start size : Nat) :
    WritesIn (span start size) p (op.fill h q entry) ↔
      WritesIn (span start size) p q ∧ start ≤ entry ∧ entry + op.stored ≤ start + size := by
  have bytes : sizeofTxEntry = 24 := rfl
  have type := fun value => follows.store entry (encode 4 value)
  have blkId1 := fun value id => (type value).store (entry + 8) (encode 8 id)
  have blkId2 := fun value id id' => (blkId1 value id).store (entry + 16) (encode 8 id')
  cases op with
  | write blkId =>
    rw [LogOp.fill, writesIn_store (type _), writesIn_store follows]
    simp only [length_encode, span_subset_iff, LogOp.stored, and_assoc]
    apply and_congr_right
    omega
  | update oldBlkId newBlkId =>
    rw [LogOp.fill, writesIn_store (blkId1 _ _), writesIn_store (type _), writesIn_store follows]
    simp only [length_encode, span_subset_iff, LogOp.stored, and_assoc]
    apply and_congr_right
    omega
  | smallUpdate blkId data offset =>
    rw [LogOp.fill, writesIn_memcpy (blkId2 _ _ _), writesIn_store (blkId1 _ _), writesIn_store (type _),
      writesIn_store follows]
    simp only [length_encode, span_subset_iff, LogOp.stored, and_assoc]
    apply and_congr_right
    omega
  | remove blkId =>
    rw [LogOp.fill, writesIn_store (type _), writesIn_store follows]
    simp only [length_encode, span_subset_iff, LogOp.stored, and_assoc]
    apply and_congr_right
    omega

theorem LogOp.fill_follows {p q : Pool} (op : LogOp) (follows : p.Follows q) (entry : Nat) :
    p.Follows (op.fill h q entry) := by
  cases op with
  | write blkId => exact (follows.store _ _).store _ _
  | update oldBlkId newBlkId => exact ((follows.store _ _).store _ _).store _ _
  | smallUpdate blkId data offset => exact (((follows.store _ _).store _ _).store _ _).memcpy h _ _
  | remove blkId => exact (follows.store _ _).store _ _

theorem LogOp.fills (op : LogOp) : FillsEntry (op.fill h) op.stored := by
  have bytes : sizeofTxEntry = 24 := rfl
  cases op with
  | write blkId =>
    exact ⟨fun p entry =>
      ((ChangedIn.refl (span entry 16) p.mem).thenEncode _ 4 _ (by omega) (by omega)).thenEncode _ 8 _
        (by omega) (by omega)⟩
  | update oldBlkId newBlkId => exact fillsEntry_update oldBlkId newBlkId
  | smallUpdate blkId data offset => exact fillsEntry_smallUpdate h blkId data offset
  | remove blkId =>
    exact ⟨fun p entry =>
      ((ChangedIn.refl (span entry 16) p.mem).thenEncode _ 4 _ (by omega) (by omega)).thenEncode _ 8 _
        (by omega) (by omega)⟩

theorem LogOp.run_ok (layout : h.LogLayout) {i : Nat} (known : i < h.txSlotsCount) (op : LogOp)
    (logged : (op.run h s (i + 1)).2 = .ok) :
    h.status s i = TxStatus.processing.code ∧ (op.run h s (i + 1)).1.pool =
      (op.fill h s.pool (u64 (h.slotAddr i + h.size s i))).setSize (h.slotAddr i)
        (slotSize (op.fill h s.pool (u64 (h.slotAddr i + h.size s i))).mem (h.slotAddr i) + op.len) := by
  rw [LogOp.run_eq, txSlotAppend_eq layout s known] at logged ⊢
  split at logged
  · next processing =>
    rw [if_pos processing]
    exact ⟨processing, rfl⟩
  · cases logged

end Ops

-- the bytes that an operation writes lie in its slot, and no other byte changes
def StaysInSlot (h : Handle) (i : Nat) (s : Store) (op : LogOp) : Prop :=
  WritesIn (h.slotArea i) s.pool (op.run h s (i + 1)).1.pool ∧
    ChangedIn (h.slotArea i) s.pool.mem (op.run h s (i + 1)).1.pool.mem

def FitsInSlot (h : Handle) (i : Nat) (s : Store) (op : LogOp) : Prop :=
  h.size s i + op.stored ≤ h.backend.txSlotSize

-- `P` holds of every operation that a sequence of calls logs, at the store where it is logged
def EachLogged (h : Handle) (P : Store → LogOp → Prop) : List Call → Store → Prop
  | [], _ => True
  | call :: rest, s =>
    ∀ s' ret, runCall h s call = some (s', ret) →
      (ret.status = .ok → ∀ txSlot op, callOp h s call = some (txSlot, op) → P s op) ∧
        EachLogged h P rest s'

def OnSlot (i : Nat) : Call → Prop
  | .tput txSlot _ => txSlot = i + 1
  | .tputMeta txSlot _ => txSlot = i + 1
  | .tdel txSlot _ => txSlot = i + 1
  | _ => False

section Calls

variable {h : Handle} {s s' : Store} {i : Nat}

theorem callOp_slot {call : Call} {txSlot : Nat} {op : LogOp} (on_slot : OnSlot i call)
    (logs : callOp h s call = some (txSlot, op)) : txSlot = i + 1 := by
  cases call with
  | tput txSlot' kv =>
    cases logs
    exact on_slot
  | tputMeta txSlot' kv =>
    cases logs
    exact on_slot
  | tdel txSlot' blkId =>
    cases logs
    exact on_slot
  | txBegin => cases on_slot
  | txCommit _ => cases on_slot
  | txExecute _ => cases on_slot
  | txAbort _ => cases on_slot
  | resolveConflict _ _ => cases on_slot

theorem stays_in_slot_iff (layout : h.LogLayout) (known : i < h.txSlotsCount) (op : LogOp)
    (logged : (op.run h s (i + 1)).2 = .ok) : StaysInSlot h i s op ↔ FitsInSlot h i s op := by
  -- the address of an entry wraps below its slot when it does not fit in 64 bits
  have below := Handle.slot_below known
  have small := layout.end_lt
  have size_lt : h.size s i < 2 ^ 64 := word_lt s.pool.mem (h.slotAddr i + 16) 8
  have some_bytes : 16 ≤ op.stored := by
    cases op <;> simp only [LogOp.stored] <;> omega
  obtain ⟨-, pool⟩ := op.run_ok layout known logged
  unfold StaysInSlot FitsInSlot
  rw [pool]
  have header : span (h.slotAddr i + 16) (encode 8 (slotSize
      (op.fill h s.pool (u64 (h.slotAddr i + h.size s i))).mem (h.slotAddr i) + op.len)).length ⊆ h.slotArea i := by
    rw [length_encode]
    exact slotHeader_area layout i 16 8 (by omega)
  constructor
  · rintro ⟨writes, -⟩
    have filled := ((writesIn_store (op.fill_follows (Pool.Follows.refl _) _) _ _).mp writes).1
    obtain ⟨-, start, stop⟩ := (op.fill_writes_iff (Pool.Follows.refl _) _ _ _).mp filled
    unfold u64 at start stop
    omega
  · intro fits
    rw [u64_of_lt (by omega)] at header ⊢
    refine ⟨(writesIn_store (op.fill_follows (Pool.Follows.refl _) _) _ _).mpr ⟨?_, header⟩, ?_⟩
    · exact (op.fill_writes_iff (Pool.Follows.refl _) _ _ _).mpr ⟨WritesIn.refl _ _, by omega, by omega⟩
    · refine ChangedIn.thenWrite ((op.fills.changed _ _).mono ?_) _ _ header
      exact span_subset (by omega) (by omega)

theorem eachLogged_congr {P Q : Store → LogOp → Prop}
    (same : ∀ s op, (op.run h s (i + 1)).2 = .ok → (P s op ↔ Q s op)) (calls : List Call)
    (on_slot : ∀ call ∈ calls, OnSlot i call) (s : Store) :
    EachLogged h P calls s ↔ EachLogged h Q calls s := by
  induction calls generalizing s with
  | nil => exact Iff.rfl
  | cons call rest ih =>
    unfold EachLogged
    refine forall_congr' fun s' => forall_congr' fun ret => imp_congr_right fun run => ?_
    have here : ret.status = .ok → ∀ txSlot op, callOp h s call = some (txSlot, op) → (P s op ↔ Q s op) := by
      intro success txSlot op logs
      have logged := (runCall_logs run success logs).1
      rw [callOp_slot (on_slot call List.mem_cons_self) logs] at logged
      exact same s op logged
    have later := ih (fun call' member => on_slot call' (List.mem_cons_of_mem _ member)) s'
    refine and_congr ?_ later
    refine imp_congr_right fun success => forall_congr' fun txSlot => forall_congr' fun op => ?_
    exact imp_congr_right fun logs => here success txSlot op logs

end Calls

-- the log of a slot stays inside the slot exactly when each entry that is logged fits behind the entries before it
theorem log_stays_iff {h : Handle} (layout : h.LogLayout) {i : Nat} (known : i < h.txSlotsCount)
    (s : Store) (calls : List Call) (on_slot : ∀ call ∈ calls, OnSlot i call) :
    EachLogged h (StaysInSlot h i) calls s ↔ EachLogged h (FitsInSlot h i) calls s :=
  eachLogged_congr (fun _ op logged => stays_in_slot_iff layout known op logged) calls on_slot s

-- a new object, a change of one byte of it and its deletion
def payloadCalls : List Call := [.tput 1 (onePair 0), .tput 1 (onePair 1), .tdel 1 1]

theorem log_stays_iff_sample :
    (runCalls flatHandle (begunStore flatHandle) payloadCalls).map
        (fun done => (flatHandle.size done.1 0, done.2.map Return.status)) = some (97, List.replicate 3 .ok) ∧
      EachLogged flatHandle (StaysInSlot flatHandle 0) payloadCalls (begunStore flatHandle) := by
  refine ⟨by decide +kernel, (log_stays_iff flatHandle_layout.toLogLayout (i := 0) (by decide) (begunStore flatHandle)
    payloadCalls (by simp [OnSlot, payloadCalls])).mpr ?_⟩
  have fits : ∀ s op, FitsInSlot flatHandle 0 s op ↔
    flatHandle.size s 0 + op.stored ≤ flatHandle.backend.txSlotSize := fun _ _ => Iff.rfl
  intro s₁ ret₁ run₁
  cases run₁
  refine ⟨fun _ txSlot op logs => ?_, fun s₂ ret₂ run₂ => ?_⟩
  · cases logs
    rw [fits]
    decide +kernel
  · cases run₂
    refine ⟨fun _ txSlot op logs => ?_, fun s₃ ret₃ run₃ => ?_⟩
    · cases logs
      rw [fits]
      decide +kernel
    · refine ⟨fun _ txSlot op logs => ?_, trivial⟩
      cases logs
      rw [fits]
      decide +kernel

section Overflow

variable {h : Handle} {i : Nat}

theorem tdel_grows (layout : h.LogLayout) (known : i < h.txSlotsCount) {s : Store} {blkId : Nat}
    (block : blkId ≠ 0) (processing : h.status s i = TxStatus.processing.code) (started : 24 ≤ h.size s i)
    (fits : h.size s i + 24 ≤ h.backend.txSlotSize) :
    ∃ s', runCall h s (.tdel (i + 1) blkId) = some (s', ⟨.ok, i + 1, blkId⟩) ∧
      h.status s' i = TxStatus.processing.code ∧ h.size s' i = h.size s i + 24 := by
  obtain ⟨done, -, status, size⟩ :=
    txSlotAppend_spec layout s known (fillsEntry_remove blkId) processing started fits
  have valid : ¬(i + 1 = 0 ∨ i + 1 > h.txSlotsCount ∨ blkId = 0) := by omega
  refine ⟨_, ?_, status, size⟩
  simp only [runCall, pmbTdel, if_neg valid, txSlotOpRemove, Option.some.injEq, Prod.mk.injEq, Return.mk.injEq,
    and_true, true_and]
  rw [done]

theorem tdels_fill (layout : h.LogLayout) (known : i < h.txSlotsCount) {blkId : Nat} (block : blkId ≠ 0)
    (n : Nat) (s : Store) (processing : h.status s i = TxStatus.processing.code) (started : 24 ≤ h.size s i)
    (fits : h.size s i + 24 * n ≤ h.backend.txSlotSize) :
    ∃ s' rets, runCalls h s (List.replicate n (.tdel (i + 1) blkId)) = some (s', rets) ∧
      h.status s' i = TxStatus.processing.code ∧ h.size s' i = h.size s i + 24 * n := by
  induction n generalizing s with
  | zero =>
    refine ⟨s, [], rfl, processing, ?_⟩
    rw [Nat.mul_zero, Nat.add_zero]
  | succ n ih =>
    obtain ⟨next, call, status, size⟩ := tdel_grows layout known block processing started (by omega)
    obtain ⟨s', rets, rest, status', size'⟩ := ih next status (by omega) (by omega)
    refine ⟨s', ⟨.ok, i + 1, blkId⟩ :: rets, ?_, status', by omega⟩
    simp only [List.replicate_succ, runCalls, call, rest, Option.bind_some, Option.map_some]

theorem eachLogged_append {P : Store → LogOp → Prop} {first rest : List Call} {s s' : Store}
    {rets : List Return} (each : EachLogged h P (first ++ rest) s)
    (run : runCalls h s first = some (s', rets)) : EachLogged h P rest s' := by
  induction first generalizing s rets with
  | nil =>
    cases run
    exact each
  | cons call calls ih =>
    obtain ⟨⟨next, ret⟩, step, later⟩ := Option.bind_eq_some_iff.mp run
    obtain ⟨⟨last, more⟩, tail, same⟩ := Option.map_eq_some_iff.mp later
    cases same
    exact ih (each next ret step).2 tail

end Overflow

-- 5592404 entries leave 8 bytes of the only slot of the flat pool; one more `pmb_tdel` succeeds and writes beyond it
theorem log_outgrows_slot :
    (∀ call ∈ List.replicate 5592404 (Call.tdel 1 1) ++ [.tdel 1 1], OnSlot 0 call) ∧
      flatHandle.status (begunStore flatHandle) 0 = TxStatus.processing.code ∧
      ¬EachLogged flatHandle (StaysInSlot flatHandle 0)
        (List.replicate 5592404 (.tdel 1 1) ++ [.tdel 1 1]) (begunStore flatHandle) := by
  have layout := flatHandle_layout.toLogLayout
  have known : 0 < flatHandle.txSlotsCount := by decide
  have processing : flatHandle.status (begunStore flatHandle) 0 = TxStatus.processing.code := by decide +kernel
  have size : flatHandle.size (begunStore flatHandle) 0 = 24 := by decide +kernel
  have room : flatHandle.backend.txSlotSize = 134217728 := rfl
  obtain ⟨s', rets, run, status, full⟩ := tdels_fill layout known (show 1 ≠ 0 by decide) 5592404
    (begunStore flatHandle) processing (by omega) (by omega)
  have on_slot : ∀ call ∈ List.replicate 5592404 (Call.tdel 1 1) ++ [.tdel 1 1], OnSlot 0 call := by
    intro call member
    rcases List.mem_append.mp member with before | last
    · rw [List.eq_of_mem_replicate before]
      rfl
    · rw [List.mem_singleton.mp last]
      rfl
  refine ⟨on_slot, processing, fun each => ?_⟩
  obtain ⟨last, -⟩ := eachLogged_append each run _ _ rfl
  have accepted : (pmbTdel flatHandle s' 1 1).2 = .ok := by
    have valid : ¬(1 = 0 ∨ 1 > flatHandle.txSlotsCount ∨ 1 = 0) := by decide
    rw [pmbTdel, if_neg valid, txSlotOpRemove, txSlotAppend_eq layout s' known, if_pos status]
  have logged : ((LogOp.remove 1).run flatHandle s' 1).2 = .ok :=
    congrArg Prod.snd (pmbTdel_ok (Prod.ext rfl accepted)).2.2
  have stays : StaysInSlot flatHandle 0 s' (.remove 1) := last accepted _ _ rfl
  have fits : flatHandle.size s' 0 + 16 ≤ flatHandle.backend.txSlotSize :=
    (stays_in_slot_iff layout known (.remove 1) logged).mp stays
  omega

end PmBackend
