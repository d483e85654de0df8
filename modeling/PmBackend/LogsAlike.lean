import PmBackend.LogDecoding

set_option autoImplicit false

namespace PmBackend

open ByteMemory

-- the same operation, with as many bytes in place
def LogOp.Alike : LogOp → LogOp → Prop
  | .smallUpdate blkId data offset, op => ∃ data', op = .smallUpdate blkId data' offset ∧ data'.length = data.length
  | op, op' => op' = op

-- the operations that a slot has logged, read along its entries
def slotOps (m : Mem) (slot : Nat) : List LogOp := (slotLog m slot).filterMap fun r => (recordAt m r.1).op

def HoldsOps (m : Mem) (slot : Nat) (ops : List LogOp) : Prop :=
  ∃ records, SlotRecords m slot records ∧ records.map LogRecord.op = ops.map some

-- a slot that logs the same operations in two memories while it is in use, up to the bytes of updates
structure SlotAlike (h : Handle) (m m' : Mem) (i : Nat) : Prop where
  status : slotStatus m' (h.slotAddr i) = slotStatus m (h.slotAddr i)
  log : slotStatus m (h.slotAddr i) = TxStatus.processing.code ∨ slotStatus m (h.slotAddr i) = TxStatus.commited.code →
    (slotSize m' (h.slotAddr i) = slotSize m (h.slotAddr i) ∧ slotSize m (h.slotAddr i) ≤ h.backend.txSlotSize) ∧
      ∃ ops ops', HoldsOps m (h.slotAddr i) ops ∧ HoldsOps m' (h.slotAddr i) ops' ∧ List.Forall₂ LogOp.Alike ops ops'

def SlotsAlike (h : Handle) (m m' : Mem) : Prop := ∀ i < h.txSlotsCount, SlotAlike h m m' i

section Slots

variable {h : Handle} {m m' n n' : Mem} {slot i j : Nat} {ops : List LogOp} {op op' : LogOp}

theorem LogOp.Alike.refl (op : LogOp) : op.Alike op := by
  cases op with
  | smallUpdate blkId data offset => exact ⟨data, rfl, rfl⟩
  | write blkId => rfl
  | update oldBlkId newBlkId => rfl
  | remove blkId => rfl

theorem LogOp.Alike.symm (alike : op.Alike op') : op'.Alike op := by
  cases op with
  | smallUpdate blkId data offset =>
    obtain ⟨data', rfl, length⟩ := alike
    exact ⟨data, rfl, length.symm⟩
  | write blkId =>
    cases alike
    rfl
  | update oldBlkId newBlkId =>
    cases alike
    rfl
  | remove blkId =>
    cases alike
    rfl

theorem LogOp.Alike.len (alike : op.Alike op') : op'.len = op.len := by
  cases op with
  | smallUpdate blkId data offset =>
    obtain ⟨data', rfl, length⟩ := alike
    simp only [LogOp.len, length]
  | write blkId => rw [show op' = _ from alike]
  | update oldBlkId newBlkId => rw [show op' = _ from alike]
  | remove blkId => rw [show op' = _ from alike]

theorem LogOp.Alike.mem {ops ops' : List LogOp} (all : List.Forall₂ LogOp.Alike ops ops') :
    (∀ op ∈ ops, ∃ op' ∈ ops', op.Alike op') ∧ ∀ op' ∈ ops', ∃ op ∈ ops, op.Alike op' := by
  induction all with
  | nil => exact ⟨fun _ member => absurd member List.not_mem_nil, fun _ member => absurd member List.not_mem_nil⟩
  | cons pair _ ih =>
    refine ⟨fun op member => ?_, fun op' member => ?_⟩
    · rcases List.mem_cons.mp member with rfl | later
      · exact ⟨_, List.mem_cons_self, pair⟩
      · obtain ⟨op', inside, alike⟩ := ih.1 op later
        exact ⟨op', List.mem_cons_of_mem _ inside, alike⟩
    · rcases List.mem_cons.mp member with rfl | later
      · exact ⟨_, List.mem_cons_self, pair⟩
      · obtain ⟨op, inside, alike⟩ := ih.2 op' later
        exact ⟨op, List.mem_cons_of_mem _ inside, alike⟩

theorem HoldsOps.congr (holds : HoldsOps m slot ops)
    (same : ∀ x, slot + 16 ≤ x → x < slot + slotSize m slot → n x = m x) : HoldsOps n slot ops := by
  obtain ⟨records, log, decoded⟩ := holds
  exact ⟨records, log.congr same, decoded⟩

theorem HoldsOps.slotOps (holds : HoldsOps m slot ops) (small : slot + slotSize m slot < 2 ^ 64) :
    PmBackend.slotOps m slot = ops := by
  obtain ⟨records, log, decoded⟩ := holds
  calc PmBackend.slotOps m slot
      = ((slotLog m slot).map fun r => recordAt m r.1).filterMap LogRecord.op := by
        rw [List.filterMap_map]
        rfl
    _ = records.filterMap LogRecord.op := by rw [log.walked small]
    _ = (records.map LogRecord.op).filterMap id := by
        rw [List.filterMap_map]
        rfl
    _ = ops := by
        rw [decoded, List.filterMap_map]
        simp

theorem SlotAlike.marked (layout : h.LogLayout) (alike : SlotAlike h m m' i) (rest : ∀ x, h.slotAddr i + 16 ≤ x →
      x < h.slotAddr i + h.backend.txSlotSize → n x = m x ∧ n' x = m' x)
    (status : slotStatus n' (h.slotAddr i) = slotStatus n (h.slotAddr i))
    (open_ : slotStatus n (h.slotAddr i) = TxStatus.processing.code ∨
        slotStatus n (h.slotAddr i) = TxStatus.commited.code →
      slotStatus m (h.slotAddr i) = TxStatus.processing.code ∨ slotStatus m (h.slotAddr i) = TxStatus.commited.code) :
    SlotAlike h n n' i := by
  have room := layout.slot_room
  have size : slotSize n (h.slotAddr i) = slotSize m (h.slotAddr i) :=
    word_congr _ _ _ _ fun x lower upper => (rest x lower (by omega)).1
  have size' : slotSize n' (h.slotAddr i) = slotSize m' (h.slotAddr i) :=
    word_congr _ _ _ _ fun x lower upper => (rest x lower (by omega)).2
  refine ⟨status, fun opened => ?_⟩
  obtain ⟨⟨same_size, fits⟩, ops, ops', holds, holds', same⟩ := alike.log (open_ opened)
  exact ⟨⟨by rw [size, size', same_size], by rw [size]; exact fits⟩, ops, ops',
    holds.congr fun x lower upper => (rest x lower (by omega)).1,
    holds'.congr fun x lower upper => (rest x lower (by omega)).2, same⟩

theorem SlotAlike.frame (layout : h.LogLayout) (alike : SlotAlike h m m' i)
    (same : ∀ x ∈ h.slotArea i, n x = m x ∧ n' x = m' x) : SlotAlike h n n' i := by
  have room := layout.slot_room
  have status : slotStatus n (h.slotAddr i) = slotStatus m (h.slotAddr i) :=
    word_congr _ _ _ _ fun x lower upper => (same x ⟨by omega, by omega⟩).1
  have status' : slotStatus n' (h.slotAddr i) = slotStatus m' (h.slotAddr i) :=
    word_congr _ _ _ _ fun x lower upper => (same x ⟨by omega, by omega⟩).2
  refine alike.marked layout (fun x lower upper => same x ⟨by omega, by omega⟩) (by rw [status, status', alike.status]) ?_
  rw [status]
  exact id

theorem slotArea_apart (known : i < h.txSlotsCount) (other : i ≠ j) {x : Nat} (inside : x ∈ h.slotArea i) :
    x ∉ h.slotArea j ∪ h.blockArea := by
  have below := Handle.slot_below known
  simp only [Handle.slotArea, mem_span] at inside
  rintro (slot | block)
  · simp only [Handle.slotArea, mem_span] at slot
    rcases Nat.lt_or_gt_of_ne other with less | greater
    · have step := Handle.slot_step (h := h) less
      omega
    · have step := Handle.slot_step (h := h) greater
      omega
  · simp only [Handle.blockArea, Set.mem_ofPred_eq] at block
    omega

theorem SlotsAlike.others (layout : h.LogLayout) (alike : SlotsAlike h m m')
    (changed : ChangedIn (h.slotArea j ∪ h.blockArea) m n) (changed' : ChangedIn (h.slotArea j ∪ h.blockArea) m' n')
    (here : j < h.txSlotsCount → SlotAlike h n n' j) : SlotsAlike h n n' := by
  intro i known
  by_cases same : i = j
  · subst same
    exact here known
  · exact (alike i known).frame layout fun x inside =>
      ⟨changed x (slotArea_apart known same inside), changed' x (slotArea_apart known same inside)⟩

theorem SlotsAlike.blocks (layout : h.LogLayout) (alike : SlotsAlike h m m') (changed : ChangedIn h.blockArea m n)
    (changed' : ChangedIn h.blockArea m' n') : SlotsAlike h n n' := by
  intro i known
  have outside : ∀ x ∈ h.slotArea i, x ∉ h.blockArea := fun x inside block =>
    slotArea_apart (j := i + 1) known (by omega) inside (Or.inr block)
  exact (alike i known).frame layout fun x inside => ⟨changed x (outside x inside), changed' x (outside x inside)⟩

end Slots

section Calls

variable {h : Handle} {s s' : Store} {i : Nat} {op op' : LogOp}

theorem SlotsAlike.append (layout : h.LogLayout) (alike : SlotsAlike h s.pool.mem s'.pool.mem) (known : i < h.txSlotsCount)
    (ops : op.Alike op') (words : op.Words) (words' : op'.Words) (processing : h.status s i = TxStatus.processing.code)
    (fits : h.size s i + op.len ≤ h.backend.txSlotSize) :
    SlotOnly h i s (op.run h s (i + 1)).1 ∧ SlotOnly h i s' (op'.run h s' (i + 1)).1 ∧
      SlotsAlike h (op.run h s (i + 1)).1.pool.mem (op'.run h s' (i + 1)).1.pool.mem := by
  obtain ⟨status, log⟩ := alike i known
  obtain ⟨⟨size, -⟩, before, before', ⟨records, log, decoded⟩, ⟨records', log', decoded'⟩, all⟩ := log (Or.inl processing)
  have len := ops.len
  obtain ⟨⟨-, only⟩, ⟨now, grown⟩, r, read, held⟩ := LogOp.run_records layout known words log processing fits
  have sum : h.size s' i + op'.len = h.size s i + op.len := by
    rw [len, show h.size s' i = h.size s i from size]
  obtain ⟨⟨-, only'⟩, ⟨now', grown'⟩, r', read', held'⟩ := LogOp.run_records layout known words' log'
    (status.trans processing) (by omega)
  refine ⟨only, only', alike.others layout only.slotChanged only'.slotChanged fun _ => ⟨now'.trans now.symm, fun _ =>
    ⟨⟨?_, grown.trans_le fits⟩, before ++ [op], before' ++ [op'], ⟨_, held, ?_⟩, ⟨_, held', ?_⟩, ?_⟩⟩⟩
  · exact (grown'.trans sum).trans grown.symm
  · simp only [List.map_append, decoded, List.map_cons, read, List.map_nil]
  · simp only [List.map_append, decoded', List.map_cons, read', List.map_nil]
  · exact List.rel_append all (List.Forall₂.cons ops List.Forall₂.nil)

theorem SlotsAlike.emptied (layout : h.LogLayout) (alike : SlotsAlike h s.pool.mem s'.pool.mem) {t t' : Store}
    (changed : SlotChanged h i s t) (changed' : SlotChanged h i s' t') (empty : h.status t i = TxStatus.empty.code)
    (empty' : h.status t' i = TxStatus.empty.code) : SlotsAlike h t.pool.mem t'.pool.mem := by
  refine alike.others layout changed changed' fun _ => ⟨empty'.trans empty.symm, fun opened => ?_⟩
  have code : slotStatus t.pool.mem (h.slotAddr i) = 0 := empty
  rw [code] at opened
  simp [TxStatus.code] at opened

theorem SlotsAlike.init (layout : h.LogLayout) (alike : SlotsAlike h s.pool.mem s'.pool.mem) (known : i < h.txSlotsCount) :
    SlotsAlike h (txSlotInit h s (i + 1)).1.pool.mem (txSlotInit h s' (i + 1)).1.pool.mem := by
  have room := layout.slot_room
  obtain ⟨only, status, size⟩ := txSlotInit_spec layout s known
  obtain ⟨only', status', size'⟩ := txSlotInit_spec layout s' known
  exact alike.others layout only.slotChanged only'.slotChanged fun _ => ⟨status'.trans status.symm, fun _ =>
    ⟨⟨size'.trans size.symm, size.trans_le room⟩, [], [], ⟨[], slotRecords_nil size, rfl⟩, ⟨[], slotRecords_nil size', rfl⟩,
      List.Forall₂.nil⟩⟩

theorem SlotsAlike.commit (layout : h.LogLayout) (alike : SlotsAlike h s.pool.mem s'.pool.mem) (known : i < h.txSlotsCount)
    (processing : h.status s i = TxStatus.processing.code) :
    SlotsAlike h (txSlotCommit h s (i + 1)).1.pool.mem (txSlotCommit h s' (i + 1)).1.pool.mem := by
  have now : h.status s' i = TxStatus.processing.code := (alike i known).status.trans processing
  obtain ⟨-, only, status, -⟩ := txSlotCommit_spec layout s known processing
  obtain ⟨-, only', status', -⟩ := txSlotCommit_spec layout s' known now
  refine alike.others layout only.slotChanged only'.slotChanged fun _ => (alike i known).marked layout (fun x lower _ => ?_)
    (status'.trans status.symm) fun _ => Or.inl processing
  rw [txSlotCommit_eq layout s known, if_pos processing, txSlotCommit_eq layout s' known, if_pos now]
  exact ⟨header_frame (statusChecksum_header h s.pool (h.slotAddr i) i .commited) x lower,
    header_frame (statusChecksum_header h s'.pool (h.slotAddr i) i .commited) x lower⟩

end Calls

end PmBackend
