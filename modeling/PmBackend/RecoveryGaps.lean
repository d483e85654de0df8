import PmBackend.CrashRuns

set_option autoImplicit false

namespace PmBackend

open ByteMemory DeferredLog

-- the log of a transaction that has ended, in a slot that is free again: `backend_tx_set_zero` leaves the size and
-- the entries
structure Stale (h : Handle) (t : Ledger) (i : Nat) (tx : Tx Nat PartialBytes) : Prop where
  ended : t.map.txs i = none
  steps : NoPayload t.store.pool.mem (h.slotAddr i)
  log : ∃ ops, LoggedBy h tx ops ∧ ∃ records, Logged h t.store i records ∧ records.map LogRecord.op = ops.map some

-- calls that do not begin a transaction in the slot
def StepBeside (h : Handle) (i : Nat) (t t' : Ledger) : Prop := LedgerStep h t t' ∧ t'.map.txs i = none

section Frames

variable {h : Handle} {s s' : Store} {t t' : Ledger} {call : Call} {ret : Return} {i : Nat} {tx : Tx Nat PartialBytes}

theorem LogOp.run_slotOnly (layout : h.LogLayout) (known : i < h.txSlotsCount) {op : LogOp}
    (entry : EntryFits h s (i + 1) op.len) (done : op.run h s (i + 1) = (s', .ok)) : SlotOnly h i s s' := by
  rw [LogOp.run_eq] at done
  obtain ⟨processing, -⟩ := txSlotAppend_ok layout known done
  have fills : FillsEntry (op.fill h) op.len :=
    ⟨fun p entry => (op.fills.changed p entry).mono (span_subset (le_refl _) (by have := op.stored_le; omega))⟩
  have room := entry processing
  rw [Nat.add_sub_cancel] at room
  exact txSlotAppend_only layout known fills room done

theorem pmbResolveConflict_blocksOnly (layout : h.LogLayout) (s : Store) (blkId1 blkId2 : Nat) :
    ChangedIn h.blockArea s.pool.mem (pmbResolveConflict h s blkId1 blkId2).1.pool.mem := by
  have zeroed : ∀ id obj, backendGet h s.pool.mem id = .ok obj →
      ChangedIn h.blockArea s.pool.mem (s.setZero (some obj)).pool.mem := by
    intro id obj found
    rw [← (backendGet_ok.mp found).2.1]
    exact (setZero_blocksOnly layout s id).changed
  unfold pmbResolveConflict
  split
  · exact ChangedIn.refl _ _
  · next obj1 found1 =>
    split
    · exact ChangedIn.refl _ _
    · next obj2 found2 =>
      simp only
      split
      · exact zeroed blkId1 obj1 found1
      · exact zeroed blkId2 obj2 found2

theorem LedgerInv.beside (rooms : h.Rooms) (nonzero : ∀ bytes, h.checksum bytes ≠ 0) (inv : LedgerInv h t)
    (safe : LedgerSafe h t call) (run : runCall h t.store call = some (s', ret)) (success : ret.status = .ok)
    (known : i < h.txSlotsCount) (before : t.map.txs i = none)
    (after : (t.map.next (call.action h t.map.objects ret)).txs i = none) :
    ∀ x, h.slotAddr i ≤ x → x < h.slotAddr i + h.backend.txSlotSize → s'.pool.mem x = t.store.pool.mem x := by
  have layout := rooms.toLogLayout
  have allowed := (inv.succeeds rooms nonzero safe run success).1
  -- the slot of the call has an open transaction, before it or after it
  have other : ∀ j, SlotChanged h j t.store s' → (t.map.txs j ≠ none ∨
      (t.map.next (call.action h t.map.objects ret)).txs j ≠ none) →
      ∀ x, h.slotAddr i ≤ x → x < h.slotAddr i + h.backend.txSlotSize → s'.pool.mem x = t.store.pool.mem x := by
    intro j changed opened
    refine changed.slot_bytes known ?_
    rintro rfl
    exact opened.elim (absurd before) (absurd after)
  cases call with
  | txBegin =>
    cases run
    obtain ⟨-, -, j, -, slot, only, -, -⟩ := pmbTxBegin_ok layout (Prod.ext rfl (Prod.ext success rfl))
    refine other j only.slotChanged (Or.inr ?_)
    simp [Call.action, slot, TxMap.next, TxMap.set]
  | tput txSlot kv =>
    simp only [runCall, Option.some.injEq, Prod.mk.injEq] at run
    obtain ⟨store, rfl⟩ := run
    obtain ⟨args, cases⟩ := pmbTput_ok (Prod.ext store (Prod.ext success rfl))
    obtain ⟨j, slot_known, rfl⟩ : ∃ j < h.txSlotsCount, txSlot = j + 1 :=
      knownSlot (by have := args.slot_positive; have := args.slot_known; omega)
    have opened : t.map.txs j ≠ none := by
      simp only [Call.action, Nat.add_sub_cancel] at allowed
      split at allowed
      · obtain ⟨tx, here, -⟩ := allowed
        rw [here]
        exact Option.some_ne_none tx
      · obtain ⟨⟨tx, here, -⟩, -⟩ := allowed
        rw [here]
        exact Option.some_ne_none tx
    refine other j ?_ (Or.inl opened)
    have entry := safe.1
    rcases cases with ⟨small, append, -⟩ | ⟨large, old, -, put⟩
    · have len : tputEntryLen h kv = (LogOp.smallUpdate kv.blkId kv.valBytes kv.offset).len := if_pos small
      rw [len] at entry
      exact (LogOp.run_slotOnly layout slot_known entry append).slotChanged
    · have len : tputEntryLen h kv = sizeofTxEntry := if_neg large
      rw [len] at entry
      obtain ⟨-, obj, logged, direct, log, same, -⟩ := tputNewBlock_ok put
      rw [same]
      have only := (logNewBlock_slotOnly layout slot_known
        (s := { t.store with freeList := (caslistPop t.store.freeList 0).list }) entry log).1
      have logs : SlotChanged h j t.store logged := only.slotChanged
      exact logs.trans ((tputBlock_blocksOnly layout logged direct old kv).slotChanged j)
  | tputMeta txSlot kv =>
    simp only [runCall, Option.some.injEq, Prod.mk.injEq] at run
    obtain ⟨store, rfl⟩ := run
    obtain ⟨args, old, -, put⟩ := pmbTputMeta_ok (Prod.ext store (Prod.ext success rfl))
    obtain ⟨j, slot_known, rfl⟩ : ∃ j < h.txSlotsCount, txSlot = j + 1 :=
      knownSlot (by have := args.slot_positive; have := args.slot_known; omega)
    obtain ⟨⟨tx, here, -⟩, -⟩ := allowed
    refine other j ?_ (Or.inl (by rw [← Nat.add_sub_cancel j 1, here]; exact Option.some_ne_none tx))
    obtain ⟨-, obj, logged, direct, log, same, -⟩ := tputMetaNewBlock_ok put
    rw [same]
    have only := (logNewBlock_slotOnly layout slot_known
      (s := { t.store with metaFreeList := (caslistPop t.store.metaFreeList 0).list }) safe.1 log).1
    have logs : SlotChanged h j t.store logged := only.slotChanged
    exact logs.trans ((tputMetaBlock_blocksOnly layout logged direct old kv).slotChanged j)
  | tdel txSlot blkId =>
    cases run
    obtain ⟨⟨positive, bound⟩, -, append⟩ := pmbTdel_ok (Prod.ext rfl success)
    obtain ⟨j, slot_known, rfl⟩ : ∃ j < h.txSlotsCount, txSlot = j + 1 := knownSlot (by omega)
    obtain ⟨tx, here, -⟩ := allowed
    have append : (LogOp.remove blkId).run h t.store (j + 1) = _ := append
    exact other j (LogOp.run_slotOnly layout slot_known safe.1 append).slotChanged
      (Or.inl (by rw [← Nat.add_sub_cancel j 1, here]; exact Option.some_ne_none tx))
  | txCommit txSlot =>
    cases run
    obtain ⟨j, slot_known, rfl⟩ := pmbTxCommit_known (Prod.ext rfl success)
    obtain ⟨tx, here, -⟩ := allowed
    exact other j (pmbTxCommit_ok layout slot_known (Prod.ext rfl success)).1.slotChanged
      (Or.inl (by rw [← Nat.add_sub_cancel j 1, here]; exact Option.some_ne_none tx))
  | txExecute txSlot =>
    obtain ⟨⟨executed, status⟩, done, finish⟩ := Option.map_eq_some_iff.mp run
    cases finish
    cases success
    obtain ⟨j, slot_known, rfl⟩ := pmbTxExecute_known done
    obtain ⟨tx, here, -⟩ := allowed
    refine other j ?_ (Or.inl (by rw [← Nat.add_sub_cancel j 1, here]; exact Option.some_ne_none tx))
    unfold pmbTxExecute at done
    rw [if_neg (show ¬(j + 1 = 0 ∨ j + 1 > h.txSlotsCount) by omega)] at done
    obtain ⟨⟨ended, status⟩, execute, finish⟩ := Option.map_eq_some_iff.mp done
    cases finish
    obtain ⟨-, -, failed⟩ | ⟨-, -, changed, -⟩ := txSlotExecute_spec layout slot_known execute
    · cases failed
    · exact changed
  | txAbort txSlot =>
    cases run
    obtain ⟨j, slot_known, rfl⟩ := pmbTxAbort_known (Prod.ext rfl success)
    obtain ⟨tx, here⟩ := allowed
    refine other j ?_ (Or.inl (by rw [← Nat.add_sub_cancel j 1, here]; exact Option.some_ne_none tx))
    simp only at success ⊢
    unfold pmbTxAbort at success ⊢
    rw [if_neg (show ¬(j + 1 = 0 ∨ j + 1 > h.txSlotsCount) by omega)] at success ⊢
    obtain ⟨-, -, failed⟩ | ⟨-, -, changed, -⟩ := txSlotAbort_spec layout t.store slot_known
    · rw [failed] at success
      cases success
    · exact changed
  | resolveConflict blkId1 blkId2 =>
    cases run
    exact fun x _ upper => blocks_slot_bytes (pmbResolveConflict_blocksOnly layout t.store blkId1 blkId2) known x upper

theorem Stale.of_same (layout : h.LogLayout) (known : i < h.txSlotsCount) (ended : t'.map.txs i = none)
    (steps : NoPayload t.store.pool.mem (h.slotAddr i)) {ops : List LogOp} (does : LoggedBy h tx ops)
    {records : List LogRecord} (logged : Logged h t.store i records) (decoded : records.map LogRecord.op = ops.map some)
    (same : ∀ x, h.slotAddr i + 16 ≤ x → x < h.slotAddr i + h.backend.txSlotSize →
      t'.store.pool.mem x = t.store.pool.mem x) : Stale h t' i tx := by
  have logged' := logged.congr same
  exact ⟨ended, steps.entries (logged.slotEntries_same layout known logged'), ops, does, records, logged', decoded⟩

theorem Stale.step (rooms : h.Rooms) (nonzero : ∀ bytes, h.checksum bytes ≠ 0) (inv : LedgerInv h t)
    (known : i < h.txSlotsCount) (stale : Stale h t i tx) (step : StepBeside h i t t') : Stale h t' i tx := by
  obtain ⟨⟨call, ret, done⟩, after⟩ := step
  obtain ⟨before, steps, ops, does, records, logged, decoded⟩ := stale
  refine .of_same rooms.toLogLayout known after steps does logged decoded fun x lower upper => ?_
  by_cases success : ret.status = .ok
  · rw [done.map, if_pos success] at after
    exact inv.beside rooms nonzero (done.safe success) done.run success known before after x (by omega) upper
  · rw [(runCall_failed rooms.toIds done.run success inv.free).1.1]

theorem Stale.run (rooms : h.Rooms) (nonzero : ∀ bytes, h.checksum bytes ≠ 0) (inv : LedgerInv h t)
    (known : i < h.txSlotsCount) (stale : Stale h t i tx) (run : Relation.ReflTransGen (StepBeside h i) t t') :
    LedgerInv h t' ∧ Stale h t' i tx := by
  induction run with
  | refl => exact ⟨inv, stale⟩
  | tail _ step ih => exact ⟨ih.1.step rooms nonzero step.1, ih.2.step rooms nonzero ih.1 known step⟩

theorem txSlotExecute_header (layout : h.LogLayout) (known : i < h.txSlotsCount)
    (done : txSlotExecute h s (i + 1) = some (s', .ok)) :
    ChangedIn (span (h.slotAddr i) 12 ∪ h.blockArea) s.pool.mem s'.pool.mem := by
  unfold txSlotExecute at done
  rw [layout.txDirect_eq (by omega) (by omega)] at done
  simp only [Nat.add_sub_cancel] at done
  split at done
  · cases done
  · obtain ⟨walked, walk, rest⟩ := Option.bind_eq_some_iff.mp done
    obtain ⟨processed, process, finish⟩ := Option.map_eq_some_iff.mp rest
    cases finish
    have blocks := (executeWalk_blocksOnly layout walk).trans (txSlotMetaUpdProcess_blocksOnly layout process)
    rw [backendTxSetZero_mem]
    refine (blocks.changed.mono Set.subset_union_right).thenWrite _ _ ?_
    rw [List.length_replicate]
    exact Set.subset_union_left

theorem LedgerCall.leaves (rooms : h.Rooms) (inv : LedgerInv h t) (known : i < h.txSlotsCount)
    (here : t.map.txs i = some tx) (steps : NoPayload t.store.pool.mem (h.slotAddr i))
    (done : LedgerCall h t (.txExecute (i + 1)) ret t') (success : ret.status = .ok) : Stale h t' i tx := by
  have layout := rooms.toLogLayout
  have log := inv.logs i known
  rw [here] at log
  obtain ⟨-, ops, does, records, logged, decoded⟩ := log
  obtain ⟨run, -, -, map⟩ := done
  obtain ⟨⟨executed, status⟩, execute, finish⟩ := Option.map_eq_some_iff.mp run
  cases finish
  cases success
  unfold pmbTxExecute at execute
  rw [if_neg (show ¬(i + 1 = 0 ∨ i + 1 > h.txSlotsCount) by omega)] at execute
  obtain ⟨⟨ended, status⟩, execute, freed⟩ := Option.map_eq_some_iff.mp execute
  simp only [Prod.mk.injEq] at freed
  obtain ⟨store, rfl⟩ := freed
  have changed := txSlotExecute_header layout known execute
  refine .of_same layout known ?_ steps does logged decoded fun x lower upper => ?_
  · rw [map]
    simp [Call.action, TxMap.next, TxMap.finish, here]
  · have pool : t'.store.pool = ended.pool := (congrArg Store.pool store).symm
    rw [pool]
    refine changed x ?_
    have below := Handle.slot_below known
    rintro (header | block)
    · rw [mem_span] at header
      omega
    · change h.logEnd ≤ x at block
      omega

end Frames

section Begins

variable {h : Handle} {t t' : Ledger} {i : Nat} {tx : Tx Nat PartialBytes} {m : Mem}

theorem LedgerInv.stale_image (rooms : h.Rooms) (inv : LedgerInv h t) (safe : t.RecoverySafe h)
    (changed : ChangedIn (h.slotArea i) t.store.pool.mem m)
    (here : SlotHolds h (t.store.crashed m) i (some tx))
    (replay : ReplaySafe h (t.store.crashed m) (t.map.set i (some tx)) i) (known : i < h.txSlotsCount) :
    CrashImage h (t.store.crashed m) (t.map.set i (some tx)) := by
  have layout := rooms.toLogLayout
  have same : ∀ id, Untouched h id t.store.pool.mem m := log_untouched rooms known changed (subset_refl _)
  have slot : ∀ j ∈ replaySlots h, SlotHolds h (t.store.crashed m) j ((t.map.set i (some tx)).txs j) ∧
      ((t.map.set i (some tx)).txs j ≠ none → ReplaySafe h (t.store.crashed m) (t.map.set i (some tx)) j) := by
    intro j member
    by_cases there : j = i
    · subst there
      have state : (t.map.set j (some tx)).txs j = some tx := Function.update_self _ _ _
      rw [state]
      exact ⟨here, fun _ => replay⟩
    · have only : SlotOnly h i t.store (t.store.crashed m) := changed
      have bytes := only.slotChanged.slot_bytes ((mem_replaySlots layout).mp member).2 there
      have state : (t.map.set i (some tx)).txs j = t.map.txs j := Function.update_of_ne there _ _
      obtain ⟨holds, safe_there⟩ := slot_same layout inv safe member fun x inside => bytes x inside.1 inside.2
      rw [state]
      refine ⟨holds, fun opened => ?_⟩
      obtain ⟨steps, plain, alone, room⟩ := safe_there opened
      have pending : (t.map.set i (some tx)).pendingOf j = t.map.pendingOf j := pendingOf_set_other t.map _ there
      rw [← pending] at plain alone
      exact ⟨steps, plain, alone, room⟩
  refine ⟨fun j member => (slot j member).1, fun j member => (slot j member).2, fun id obj direct => ?_,
    fun id _ => ?_, fun id obj _ direct => ?_⟩
  · obtain ⟨key_fits, fits, -⟩ := (same id).contained direct (rooms.room id) (inv.blocks.contained id obj direct)
    exact ⟨key_fits, fits⟩
  · exact (inv.held id).untouched (rooms.room id) (same id) fun ready => ready
  · have contained := inv.blocks.contained id obj direct
    exact ⟨(same id).contained direct (rooms.room id) contained, (same id).sealed direct (rooms.room id) contained
      (inv.blocks.sealed id obj direct (Set.notMem_empty id))⟩

theorem Stale.marked (rooms : h.Rooms) (inv : LedgerInv h t) (safe : t.RecoverySafe h) (stale : Stale h t i tx)
    (known : i < h.txSlotsCount) : replayStands h (h.markSlot t.store.pool i).mem i = false ∧
      CrashImage h (t.store.crashed (h.markSlot t.store.pool i).mem) (t.map.set i (some tx)) := by
  have layout := rooms.toLogLayout
  have inside := slotHeader_area layout i
  obtain ⟨-, steps, ops, does, records, logged, decoded⟩ := stale
  have header : ChangedIn (span (h.slotAddr i) 12) t.store.pool.mem (h.markSlot t.store.pool i).mem := by
    refine ((ChangedIn.refl _ _).thenWrite _ _ ?_).thenWrite _ _ ?_
    · rw [length_encode]
      exact span_subset (by omega) (by omega)
    · rw [length_encode]
      exact span_subset (by omega) (by omega)
  have status : slotStatus (h.markSlot t.store.pool i).mem (h.slotAddr i) = TxStatus.processing.code := by
    rw [Handle.markSlot, Pool.setStatus, slotStatus, Pool.store_mem, word_write_same]
    decide
  generalize (h.markSlot t.store.pool i).mem = m at header status ⊢
  have area : span (h.slotAddr i) 12 ⊆ h.slotArea i := by simpa using inside 0 12 (by omega)
  have logged' : Logged h (t.store.crashed m) i records := by
    refine logged.congr fun x lower _ => header x fun there => ?_
    rw [mem_span] at there
    omega
  have refused : replayStands h m i ≠ true := not_stands (by rw [status]; decide)
  refine ⟨Bool.eq_false_iff.mpr refused, inv.stale_image rooms safe (header.mono area)
    ⟨?_, ⟨_, status⟩, ops, does, ?_⟩ ⟨?_, ?_, ?_, ?_⟩ known⟩
  · change slotStatus m (h.slotAddr i) ≠ TxStatus.empty.code
    rw [status]
    decide
  · exact logged'.lists layout known decoded
  · exact steps.entries (logged.slotEntries_same layout known logged')
  · exact fun stands => absurd stands refused
  · exact fun stands => absurd stands refused
  · exact fun commited => absurd (status.symm.trans commited) (by decide)

end Begins

-- begins that are killed undo what was executed. Any number of calls after the execution of a transaction, a
-- `pmb_tx_begin` that takes its slot again and is killed before its last store leaves the old log in use: `pmb_open`
-- deletes every object that the executed transaction had made, and what has since been put in their blocks
theorem killed_begin_undoes {h : Handle} (rooms : h.Rooms) (nonzero : ∀ bytes, h.checksum bytes ≠ 0) {s : Store}
    (ready : Recoverable h s) {t t₁ t₂ t₃ : Ledger}
    (run : Relation.ReflTransGen (LifeStep h (LedgerStep h)) (Ledger.start h s) t) {i : Nat}
    (member : i ∈ replaySlots h) {tx : Tx Nat PartialBytes} (here : t.map.txs i = some tx)
    (steps : NoPayload t.store.pool.mem (h.slotAddr i))
    {ret ret' : Return} (executes : LedgerCall h t (.txExecute (i + 1)) ret t₁) (success : ret.status = .ok)
    (later : Relation.ReflTransGen (StepBeside h i) t₁ t₂) (safe : t₂.RecoverySafe h)
    (begins : LedgerCall h t₂ .txBegin ret' t₃) (again : ret'.status = .ok ∧ ret'.txSlot = i + 1) :
    ∃ m, h.StopsDuring t₂.store.pool t₃.store.pool m ∧ ∀ m' heap, Relation.ReflTransGen (KilledOpen h) m m' →
      (∃ s', Reopens h heap (t₂.store.crashed m') s') ∧ ∀ s', Reopens h heap (t₂.store.crashed m') s' →
        ∀ id, tx.made id ≠ none → pmbGet h s'.pool.mem id = .error .enoent := by
  have layout := rooms.toLogLayout
  have known := ((mem_replaySlots layout).mp member).2
  have inv := (LedgerInv.start ready).lives rooms nonzero run
  have left := executes.leaves rooms inv known here steps success
  obtain ⟨inv₂, stale⟩ := left.run rooms nonzero (inv.step rooms nonzero ⟨_, _, executes⟩) known later
  obtain ⟨run, -, -, -⟩ := begins
  simp only [runCall, Option.some.injEq, Prod.mk.injEq] at run
  obtain ⟨store, rfl⟩ := run
  have stores := pmbTxBegin_stores layout known (Prod.ext store (Prod.ext again.1 again.2))
  obtain ⟨refused, image⟩ := stale.marked rooms inv₂ safe known
  refine ⟨(h.markSlot t₂.store.pool i).mem, ?_, fun m' heap kills => ?_⟩
  · rw [stores]
    exact ⟨[_, _, _], rfl, mem_stopsDuring_drop _ _ [_, _, _] 1⟩
  · generalize (h.markSlot t₂.store.pool i).mem = m at refused image kills
    obtain ⟨opens, recovers⟩ := image.reopened rooms kills heap
    refine ⟨opens, fun s' reopens id made => ?_⟩
    have gone : (recoveredMap h m (t₂.map.set i (some tx))).objects id = none := by
      refine settle_dropped member ?_
      rw [refused, drops_made, madeBy_set_self]
      exact made
    exact (recovers s' reopens).shows.means.absent gone

section FirstSlot

variable {h : Handle} {t : Ledger} {id : Nat}

-- no open transaction but that of the first slot names the block
def FirstOnly (map : TxMap Nat PartialBytes) (id : Nat) : Prop :=
  ∀ j, j ≠ 0 → map.madeBy j id = none ∧ ∀ c ∈ map.pendingOf j, ¬c.Names id

theorem FirstOnly.recovered (layout : h.LogLayout) {map : TxMap Nat PartialBytes} (first : FirstOnly map id)
    (m : Mem) : (recoveredMap h m map).objects id = map.objects id := by
  have others : ∀ j ∈ replaySlots h, j ≠ 0 := fun j member => by
    have positive := ((mem_replaySlots layout).mp member).1
    omega
  refine settle_kept (fun j member drops => ?_) fun j member _ f listed => ?_
  · obtain ⟨unmade, unnamed⟩ := first j (others j member)
    cases stands : replayStands h m j with
    | true =>
      rw [stands, drops_pending] at drops
      exact unnamed _ drops rfl
    | false =>
      rw [stands, drops_made] at drops
      exact drops unmade
  · exact (first j (others j member)).2 _ listed rfl

theorem FirstOnly.of_made {start : Objects} (serial : Serial start t.map) (made : t.map.madeBy 0 id ≠ none) :
    FirstOnly t.map id := by
  refine fun j other => ⟨serial.apart 0 j other.symm id made, fun c listed named => made ?_⟩
  exact serial.unshared j c listed id named 0 fun same => other (Option.some.inj same).symm

end FirstSlot

-- recovery passes over the first slot: whether its transaction was committed or not, what it has put stays, and what
-- it was to change or to delete is as before
theorem first_slot_stays {h : Handle} (rooms : h.Rooms) (nonzero : ∀ bytes, h.checksum bytes ≠ 0) {s : Store}
    (ready : Recoverable h s) {t : Ledger}
    (run : Relation.ReflTransGen (LifeStep h (IsolatedStep h)) (Ledger.start h s) t) (safe : t.RecoverySafe h)
    {tx : Tx Nat PartialBytes} (here : t.map.txs 0 = some tx) {m : Mem}
    (kills : Relation.ReflTransGen (KilledOpen h) t.store.pool.mem m) (heap : Nat → Nat → TxMeta) :
    (∃ s', Reopens h heap (t.store.crashed m) s') ∧ ∀ s', Reopens h heap (t.store.crashed m) s' →
      (∀ id v, tx.made id = some v → ∃ object, pmbGet h s'.pool.mem id = .ok object ∧ object.Shows v) ∧
        ∀ id v, t.map.objects id = some v → FirstOnly t.map id →
          ∃ object, pmbGet h s'.pool.mem id = .ok object ∧ object.Shows v := by
  have layout := rooms.toLogLayout
  obtain ⟨inv, serial⟩ := isolated_lives rooms nonzero ready run
  obtain ⟨opens, recovers⟩ := (inv.crashImage layout safe).reopened rooms kills heap
  have stays : ∀ s', Reopens h heap (t.store.crashed m) s' → ∀ id v, t.map.objects id = some v → FirstOnly t.map id →
      ∃ object, pmbGet h s'.pool.mem id = .ok object ∧ object.Shows v := by
    intro s' reopens id v object first
    exact (recovers s' reopens).shows.means.present ((first.recovered layout _).trans object)
  refine ⟨opens, fun s' reopens => ⟨fun id v made => ?_, stays s' reopens⟩⟩
  have there : t.map.madeBy 0 id = some v := (madeBy_eq here id).trans made
  have first : FirstOnly t.map id := .of_made serial (by rw [there]; exact Option.some_ne_none v)
  exact stays s' reopens id v (serial.made 0 id v there).1 first

theorem first_slot_stays_sample : ∃ s', Reopens twoSlotHandle (fun _ _ => ⟨0, 0, 0⟩)
      (bothPut.store.crashed bothPut.store.pool.mem) s' ∧
    ∃ object, pmbGet twoSlotHandle s'.pool.mem 1 = .ok object := by
  obtain ⟨tx, v, here, made⟩ : ∃ tx v, bothPut.map.txs 0 = some tx ∧ tx.made 1 = some v := ⟨_, _, rfl, rfl⟩
  have log : slotLog bothPut.store.pool.mem (twoSlotHandle.slotAddr 1) =
      [(twoSlotHandle.slotAddr 1 + 24, ⟨0, 2, 0⟩)] := by decide +kernel
  have safe : bothPut.RecoverySafe twoSlotHandle := newObjects_safe (noPayload_of_log log (by decide))
    (fun c listed => List.mem_singleton.mp listed) (by decide +kernel)
  obtain ⟨⟨s', reopens⟩, stays⟩ := first_slot_stays twoSlotHandle_layout.rooms twoSlotHandle_nonzero
    twoSlotStore_recoverable (LifeStep.calls bothPut_run) safe here .refl fun _ _ => ⟨0, 0, 0⟩
  obtain ⟨object, get, -⟩ := (stays s' reopens).1 1 v made
  exact ⟨s', reopens, object, get⟩

def secondSealed : Ledger := secondPut.after twoSlotHandle (.txCommit 2) ⟨.ok, 2, 0⟩

def secondExecuted : Ledger := secondSealed.after twoSlotHandle (.txExecute 2) ⟨.ok, 2, 0⟩

-- the first slot is still in use
def secondAgain : Ledger := secondExecuted.after twoSlotHandle .txBegin ⟨.ok, 2, 0⟩

theorem secondSealed_run :
    Relation.ReflTransGen (LedgerStep twoSlotHandle) (.start twoSlotHandle twoSlotStore) secondSealed := by
  have puts : LedgerCall twoSlotHandle bothBegun (.tput 2 (onePair 0)) ⟨.ok, 2, 1⟩ secondPut :=
    put_called 2 1 (by decide +kernel) (by decide +kernel)
  have commits : LedgerCall twoSlotHandle secondPut (.txCommit 2) ⟨.ok, 2, 0⟩ secondSealed :=
    .after _ _ (by decide +kernel) rfl trivial trivial
  exact ((Relation.ReflTransGen.mono (fun _ _ => IsolatedStep.ledgerStep) _ _ bothBegun_run).tail ⟨_, _, puts⟩).tail
    ⟨_, _, commits⟩

theorem secondSealed_executes : LedgerCall twoSlotHandle secondSealed (.txExecute 2) ⟨.ok, 2, 0⟩ secondExecuted := by
  have commited : twoSlotHandle.status secondSealed.store 1 = TxStatus.commited.code := by decide +kernel
  have pending : secondSealed.map.pendingOf 1 = [.keep] := rfl
  refine .after _ _ (by decide +kernel) rfl ?_ ⟨∅, Nat.zero_le _, fun id member => absurd member ?_, fun id f listed => ?_⟩
  · change twoSlotHandle.status secondSealed.store 1 ≠ TxStatus.processing.code
    rw [commited]
    decide
  · exact Finset.notMem_empty id
  · change Change.modify id f ∈ secondSealed.map.pendingOf 1 at listed
    rw [pending] at listed
    cases List.mem_singleton.mp listed

theorem secondSealed_steps : NoPayload secondSealed.store.pool.mem (twoSlotHandle.slotAddr 1) := by
  have log : slotLog secondSealed.store.pool.mem (twoSlotHandle.slotAddr 1) =
      [(twoSlotHandle.slotAddr 1 + 24, ⟨0, 1, 0⟩)] := by decide +kernel
  exact noPayload_of_log log (by decide)

-- replay finds no transaction
theorem onlyFirst_safe {t : Ledger} (closed : t.map.txs 1 = none) : t.RecoverySafe twoSlotHandle := by
  intro i member opened
  obtain ⟨positive, known⟩ := (mem_replaySlots twoSlotHandle_layout.toLogLayout).mp member
  have slots : twoSlotHandle.txSlotsCount = 2 := rfl
  obtain rfl : i = 1 := by omega
  exact absurd closed opened

theorem killed_begin_undoes_sample : ∃ m,
    twoSlotHandle.StopsDuring secondExecuted.store.pool secondAgain.store.pool m ∧
      ∃ s', Reopens twoSlotHandle (fun _ _ => ⟨0, 0, 0⟩) (secondExecuted.store.crashed m) s' ∧
        pmbGet twoSlotHandle s'.pool.mem 1 = .error .enoent := by
  obtain ⟨tx, here, made⟩ : ∃ tx, secondSealed.map.txs 1 = some tx ∧ tx.made 1 ≠ none :=
    ⟨_, rfl, Option.some_ne_none _⟩
  have begins : LedgerCall twoSlotHandle secondExecuted .txBegin ⟨.ok, 2, 0⟩ secondAgain :=
    .after _ _ (by decide +kernel) rfl trivial trivial
  obtain ⟨m, stops, undone⟩ := killed_begin_undoes twoSlotHandle_layout.rooms twoSlotHandle_nonzero
    twoSlotStore_recoverable (LifeStep.calls secondSealed_run)
    ((mem_replaySlots twoSlotHandle_layout.toLogLayout).mpr ⟨le_refl 1, by decide⟩) here secondSealed_steps
    secondSealed_executes rfl .refl (onlyFirst_safe rfl) begins ⟨rfl, rfl⟩
  obtain ⟨⟨s', reopens⟩, gone⟩ := undone m (fun _ _ => ⟨0, 0, 0⟩) .refl
  exact ⟨m, stops, s', reopens, gone s' reopens 1 made⟩

end PmBackend
