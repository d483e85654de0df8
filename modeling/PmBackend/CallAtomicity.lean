import PmBackend.BlockCrashes

set_option autoImplicit false

namespace PmBackend

open ByteMemory DeferredLog

-- what recovery needs to take a call that was cut off for done, or for not begun
def StopSafe (h : Handle) (t : Ledger) (ret : Return) : Call → Prop
  -- no entry of the transaction before is left in the slot
  | .txBegin => ret.txSlot - 1 ∈ replaySlots h → h.size t.store (ret.txSlot - 1) ≤ sizeofTxSlot
  -- the length of the key is stored before that of the value
  | .tputMeta _ kv => ∀ obj, backendDirect h.backend ret.blkId = some obj →
      32 + kv.keyLen + valLen t.store.pool.mem obj ≤ h.backend.blockSize ret.blkId
  -- what was zeroed is zeroed again
  | .txExecute txSlot => (∀ id f, Change.modify id f ∉ t.map.pendingOf (txSlot - 1)) ∧
      ((∀ id, Change.remove id ∉ t.map.pendingOf (txSlot - 1)) ∨
        txSlot - 1 ∈ replaySlots h ∧ replayStands h t.store.pool.mem (txSlot - 1) = true)
  | .txAbort txSlot => txSlot - 1 ∈ replaySlots h ∨ ∀ id, t.map.madeBy (txSlot - 1) id = none
  | _ => True

section Calls

variable {h : Handle} {t t' : Ledger} {call : Call} {ret : Return} {m : Mem} {i : Nat} {heap : Nat → Nat → TxMeta}

theorem LedgerInv.append_torn (rooms : h.Rooms) (inv : LedgerInv h t) (safe : t.RecoverySafe h) (inv' : LedgerInv h t')
    (safe' : t'.RecoverySafe h) (known : i < h.txSlotsCount) {op : LogOp} (entry : EntryFits h t.store (i + 1) op.len)
    (done : op.run h t.store (i + 1) = (t'.store, .ok)) : Keeps h.headers (Torn h t t') t.store.pool t'.store.pool := by
  refine (inv.append_keeps rooms safe known rfl entry done).mono fun m => ?_
  rintro (image | rfl)
  · exact Or.inl image
  · exact Torn.of_next ((inv'.crashImage rooms.toLogLayout safe').congr rfl)

theorem LedgerInv.commit_torn (rooms : h.Rooms) (nonzero : ∀ bytes, h.checksum bytes ≠ 0) (inv : LedgerInv h t)
    (safe : t.RecoverySafe h) (inv' : LedgerInv h t') (safe' : t'.RecoverySafe h) {txSlot : Nat}
    (done : pmbTxCommit h t.store txSlot = (t'.store, .ok)) (map : t'.map = t.map.next (.commit (txSlot - 1))) :
    Keeps h.headers (Torn h t t') t.store.pool t'.store.pool := by
  have layout := rooms.toLogLayout
  obtain ⟨i, known, rfl⟩ := pmbTxCommit_known done
  simp only [Nat.add_sub_cancel] at map
  have result := done
  unfold pmbTxCommit at result
  rw [if_neg (show ¬(i + 1 = 0 ∨ i + 1 > h.txSlotsCount) by omega)] at result
  have processing : h.status t.store i = TxStatus.processing.code := by
    by_contra other
    rw [txSlotCommit_eq layout _ known, if_neg other] at result
    cases congrArg Prod.snd result
  obtain ⟨-, -, status, size⟩ := txSlotCommit_spec layout t.store known processing
  rw [result] at status size
  obtain ⟨tx, here, -⟩ := processing_open inv known processing
  have room : i ∈ replaySlots h → sizeofTxSlot + h.size t.store i ≤ h.backend.txSlotSize := by
    intro member
    rw [← size]
    refine (safe' i member ?_).room status
    rw [map]
    simp [TxMap.next, TxMap.edit, TxMap.set, here]
  refine (inv.commit_keeps rooms nonzero safe known done room).mono fun m => ?_
  rintro (image | rfl)
  · exact Or.inl image
  · exact Torn.of_next ((inv'.crashImage layout safe').congr rfl)

theorem LedgerInv.call_keeps (rooms : h.Rooms) (nonzero : ∀ bytes, h.checksum bytes ≠ 0) (inv : LedgerInv h t)
    (safe : t.RecoverySafe h) (step : LedgerCall h t call ret t') (safe' : t'.RecoverySafe h)
    (stop : ret.status = .ok → StopSafe h t ret call) : Keeps h.headers (Torn h t t') t.store.pool t'.store.pool := by
  have layout := rooms.toLogLayout
  have inv' := inv.step rooms nonzero ⟨call, ret, step⟩
  obtain ⟨run, -, within, map⟩ := step
  by_cases success : ret.status = .ok
  · rw [if_pos success] at map
    replace within := within success
    replace stop := stop success
    cases call with
    | txBegin =>
      simp only [runCall, Option.some.injEq, Prod.mk.injEq] at run
      obtain ⟨store, rfl⟩ := run
      exact inv.begin_keeps rooms safe inv' safe' (Prod.ext store (Prod.ext success rfl)) map stop
    | tput txSlot kv =>
      simp only [runCall, Option.some.injEq, Prod.mk.injEq] at run
      obtain ⟨store, rfl⟩ := run
      obtain ⟨args, cases⟩ := pmbTput_ok (Prod.ext store (Prod.ext success rfl))
      obtain ⟨i, known, rfl⟩ : ∃ i < h.txSlotsCount, txSlot = i + 1 :=
        knownSlot (by have := args.slot_positive; have := args.slot_known; omega)
      rcases cases with ⟨small, append, -⟩ | ⟨large, old, found, put⟩
      · have entry := within.1
        have len : tputEntryLen h kv = (LogOp.smallUpdate kv.blkId kv.valBytes kv.offset).len := if_pos small
        rw [len] at entry
        exact inv.append_torn rooms safe inv' safe' known entry append
      · have fills : ¬(kv.blkId ≠ 0 ∧ kv.valLen < h.maxValLen / 2) := large
        simp only [Call.action, Nat.add_sub_cancel, if_neg fills] at map
        exact inv.tputNew_keeps rooms safe inv' safe' known args large within found put map
    | tputMeta txSlot kv =>
      simp only [runCall, Option.some.injEq, Prod.mk.injEq] at run
      obtain ⟨store, rfl⟩ := run
      have done : pmbTputMeta h t.store txSlot kv = (t'.store, .ok, (pmbTputMeta h t.store txSlot kv).2.2) :=
        Prod.ext store (Prod.ext success rfl)
      obtain ⟨args, -⟩ := pmbTputMeta_ok done
      obtain ⟨i, known, rfl⟩ : ∃ i < h.txSlotsCount, txSlot = i + 1 :=
        knownSlot (by have := args.slot_positive; have := args.slot_known; omega)
      exact inv.tputMeta_keeps rooms safe inv' safe' known within done stop map
    | tdel txSlot blkId =>
      simp only [runCall, Option.some.injEq, Prod.mk.injEq] at run
      obtain ⟨store, rfl⟩ := run
      obtain ⟨⟨positive, bound⟩, -, append⟩ := pmbTdel_ok (Prod.ext store success)
      obtain ⟨i, known, rfl⟩ : ∃ i < h.txSlotsCount, txSlot = i + 1 := knownSlot (by omega)
      exact inv.append_torn rooms safe inv' safe' known (show EntryFits h t.store (i + 1) (LogOp.remove blkId).len from within.1)
        append
    | txCommit txSlot =>
      simp only [runCall, Option.some.injEq, Prod.mk.injEq] at run
      obtain ⟨store, rfl⟩ := run
      exact inv.commit_torn rooms nonzero safe inv' safe' (Prod.ext store success) map
    | txExecute txSlot =>
      obtain ⟨⟨executed, status⟩, done, finish⟩ := Option.map_eq_some_iff.mp run
      simp only [Prod.mk.injEq] at finish
      obtain ⟨store, rfl⟩ := finish
      rw [store, show status = .ok from success] at done
      exact inv.execute_keeps rooms safe inv' safe' done stop.1 stop.2
    | txAbort txSlot =>
      simp only [runCall, Option.some.injEq, Prod.mk.injEq] at run
      obtain ⟨store, rfl⟩ := run
      exact inv.abort_keeps rooms safe inv' safe' within (Prod.ext store success) map stop
    | resolveConflict blkId1 blkId2 =>
      simp only [runCall, Option.some.injEq, Prod.mk.injEq] at run
      obtain ⟨store, rfl⟩ := run
      exact inv.resolve_keeps rooms safe inv' safe' success store map
  · obtain ⟨⟨pool, -⟩, -⟩ := runCall_failed rooms.toIds run success inv.free
    rw [pool]
    exact Keeps.refl (Or.inl ((inv.crashImage layout safe).congr rfl))

end Calls

end PmBackend
