import PmBackend.LedgerCalls
import PmBackend.ReplayAgreement

set_option autoImplicit false

namespace PmBackend

open ByteMemory DeferredLog

-- a call on no block that another open transaction has made, for itself or to be changed later
def IsolatedStep (h : Handle) (t t' : Ledger) : Prop :=
  ∃ call ret, LedgerCall h t call ret t' ∧ (ret.status = .ok → t.map.Isolates (call.action h t.map.objects ret))

section Runs

variable {h : Handle} {t t' : Ledger} {call : Call} {ret : Return} {s s' : Store}

theorem LedgerInv.sealSafe (rooms : h.Rooms) (nonzero : ∀ bytes, h.checksum bytes ≠ 0) (inv : LedgerInv h t)
    (safe : LedgerSafe h t call) (run : runCall h t.store call = some (s', ret)) (success : ret.status = .ok) :
    SealSafe h t.store call := by
  have layout := rooms.toLogLayout
  have fit := rooms.fit
  cases call with
  | tput txSlot kv =>
    obtain ⟨entry, no_wrap, data, alone⟩ := safe
    refine ⟨entry, fun large => ?_⟩
    cases run
    obtain ⟨-, ⟨small, -⟩ | ⟨-, old, found, put⟩⟩ := pmbTput_ok (Prod.ext rfl (Prod.ext success rfl))
    · exact absurd small large
    · obtain ⟨popped, -⟩ := tputNewBlock_ok put
      obtain ⟨⟨range, -⟩, -⟩ := inv.free.data.pop (by omega) popped
      refine ⟨no_wrap, range.2, alone large, fun _ oldObj get _ => ?_⟩
      have fits := (inv.blocks.contained kv.blkId oldObj (backendGet_ok.mp get).2.1).fits
      rwa [h.objectLen_data data, blockSize_data data] at fits
  | tputMeta txSlot kv =>
    obtain ⟨entry, no_wrap, alone⟩ := safe
    cases run
    obtain ⟨-, old, -, put⟩ := pmbTputMeta_ok (Prod.ext rfl (Prod.ext success rfl))
    obtain ⟨popped, -⟩ := tputMetaNewBlock_ok put
    exact ⟨entry, no_wrap, (inv.free.metadata.pop fit popped).1.1.1, alone⟩
  | tdel txSlot blkId => exact safe.1
  | txExecute txSlot =>
    obtain ⟨⟨executed, status⟩, done, finish⟩ := Option.map_eq_some_iff.mp run
    cases finish
    cases success
    obtain ⟨i, known, rfl⟩ := pmbTxExecute_known done
    obtain ⟨⟨tx, here, -⟩, -⟩ := inv.txExecute rooms nonzero safe done
    exact inv.updatesFit rooms known here safe
  | txAbort txSlot =>
    cases run
    obtain ⟨i, known, rfl⟩ := pmbTxAbort_known (Prod.ext rfl success)
    refine ⟨safe.inside, fun r member id names => ?_⟩
    have listed : id ∈ abortedIds t.store.pool.mem (h.slotAddr i) := List.mem_filterMap.mpr ⟨r, member, names⟩
    have made : t.map.madeBy i id ≠ none := (safe.ids id).mp listed
    have log := inv.logs i known
    cases here : t.map.txs i with
    | none =>
      unfold TxMap.madeBy at made
      rw [here] at made
      exact absurd rfl made
    | some tx =>
      rw [here] at log
      obtain ⟨-, ops, does, -⟩ := log
      rw [madeBy_eq here] at made
      exact (does.usable made).alone
  | _ => trivial

theorem LedgerInv.succeeds (rooms : h.Rooms) (nonzero : ∀ bytes, h.checksum bytes ≠ 0) (inv : LedgerInv h t)
    (safe : LedgerSafe h t call) (run : runCall h t.store call = some (s', ret)) (success : ret.status = .ok) :
    t.map.Allows (call.action h t.map.objects ret) ∧
      Represents h s' (t.map.next (call.action h t.map.objects ret)) := by
  cases call with
  | txBegin =>
    cases run
    exact inv.txBegin rooms (Prod.ext rfl (Prod.ext success rfl))
  | tput txSlot kv =>
    cases run
    obtain ⟨args, cases⟩ := pmbTput_ok (Prod.ext rfl (Prod.ext success rfl))
    obtain ⟨i, known, rfl⟩ : ∃ i < h.txSlotsCount, txSlot = i + 1 :=
      knownSlot (by have := args.slot_positive; have := args.slot_known; omega)
    rcases cases with ⟨small, append, -⟩ | ⟨large, old, found, put⟩
    · obtain ⟨entry, no_wrap, data, -⟩ := safe
      have data_room := rooms.data_room
      have value := args.value_fits
      rw [u32_of_lt no_wrap] at value
      have bytes := valBytes_eq args.val
      have len : tputEntryLen h kv = (LogOp.smallUpdate kv.blkId kv.valBytes kv.offset).len := if_pos small
      rw [len] at entry
      have logs : kv.blkId ≠ 0 ∧ kv.valLen < h.maxValLen / 2 := small
      simp only [Call.action, Nat.add_sub_cancel, if_pos logs]
      have fits : (LogOp.smallUpdate kv.blkId kv.valBytes kv.offset).Fits h := ⟨⟨small.1, data⟩, by omega⟩
      exact inv.defer rooms known fits rfl entry append
    · have fills : ¬(kv.blkId ≠ 0 ∧ kv.valLen < h.maxValLen / 2) := large
      simp only [Call.action, Nat.add_sub_cancel, if_neg fills]
      exact inv.tputNew rooms nonzero known args large safe found put
  | tputMeta txSlot kv =>
    cases run
    obtain ⟨args, -⟩ := pmbTputMeta_ok (Prod.ext rfl (Prod.ext success rfl))
    obtain ⟨i, known, rfl⟩ : ∃ i < h.txSlotsCount, txSlot = i + 1 :=
      knownSlot (by have := args.slot_positive; have := args.slot_known; omega)
    exact inv.tputMeta rooms nonzero known safe (Prod.ext rfl (Prod.ext success rfl))
  | tdel txSlot blkId =>
    cases run
    obtain ⟨⟨positive, bound⟩, nonzero_id, append⟩ := pmbTdel_ok (Prod.ext rfl success)
    obtain ⟨i, known, rfl⟩ : ∃ i < h.txSlotsCount, txSlot = i + 1 := knownSlot (by omega)
    have fits : (LogOp.remove blkId).Fits h := ⟨nonzero_id, safe.2⟩
    exact inv.defer rooms known fits rfl safe.1 append
  | txCommit txSlot =>
    cases run
    exact inv.txCommit rooms (Prod.ext rfl success)
  | txExecute txSlot =>
    obtain ⟨⟨executed, status⟩, done, finish⟩ := Option.map_eq_some_iff.mp run
    cases finish
    cases success
    exact inv.txExecute rooms nonzero safe done
  | txAbort txSlot =>
    cases run
    exact inv.txAbort rooms safe (Prod.ext rfl success)
  | resolveConflict blkId1 blkId2 =>
    cases run
    exact ⟨trivial, inv.resolveConflict rooms safe success⟩

theorem runCall_begins (layout : h.LogLayout) (run : runCall h s call = some (s', ret)) (success : ret.status = .ok)
    {objects : Objects} {i : Nat} (begins : call.action h objects ret = .begin i) : i < h.txSlotsCount := by
  cases call with
  | txBegin =>
    cases run
    obtain ⟨-, -, j, known, slot, -⟩ := pmbTxBegin_ok layout (Prod.ext rfl (Prod.ext success rfl))
    cases begins
    simp only [slot, Nat.add_sub_cancel]
    exact known
  | tput txSlot kv =>
    simp only [Call.action] at begins
    split at begins
    · cases begins
    · cases begins
  | _ => cases begins

theorem LedgerInv.step (rooms : h.Rooms) (nonzero : ∀ bytes, h.checksum bytes ≠ 0) (inv : LedgerInv h t)
    (step : LedgerStep h t t') : LedgerInv h t' := by
  obtain ⟨call, ret, run, slot, safe, map⟩ := step
  have slots := inv.slots.step rooms.toLogLayout ⟨call, ret, slot, run⟩
  by_cases success : ret.status = .ok
  · rw [if_pos success] at map
    have represents := (inv.succeeds rooms nonzero (safe success) run success).2
    rw [← map] at represents
    obtain ⟨blocks, lists⟩ := runCall_seals rooms inv.blocks inv.lists
      (inv.sealSafe rooms nonzero (safe success) run success) run success
    refine ⟨represents, blocks, lists, slots, fun i beyond => ?_⟩
    rw [map]
    refine next_closed (inv.closed i beyond) fun j begins => ?_
    have known := runCall_begins rooms.toLogLayout run success begins
    omega
  · rw [if_neg success] at map
    obtain ⟨⟨pool, lists⟩, free⟩ := runCall_failed rooms.toIds run success inv.free
    rw [← map] at free
    refine ⟨⟨?_, free, fun i known => ?_⟩, ?_, ?_, slots, by rw [map]; exact inv.closed⟩
    · rw [pool, map]
      exact inv.held
    · rw [map]
      exact (inv.logs i known).congr rooms.toLogLayout fun x _ _ => by rw [pool]
    · rw [pool]
      exact inv.blocks
    · rw [lists]
      exact inv.lists

theorem LedgerInv.start (ready : Recoverable h s) : LedgerInv h (Ledger.start h s) := by
  have held := (means_shown h s.pool.mem).held fun id obj found =>
    ready.blocks.contained id obj (backendGet_ok.mp found).2.1
  exact ⟨⟨held, ready.free, ready.empty⟩, ready.blocks, ready.lists, SlotInvariant.of_empty ready.slots ready.empty,
    fun _ _ => rfl⟩

theorem LedgerInv.run (rooms : h.Rooms) (nonzero : ∀ bytes, h.checksum bytes ≠ 0) (inv : LedgerInv h t)
    (run : Relation.ReflTransGen (LedgerStep h) t t') : LedgerInv h t' := by
  induction run with
  | refl => exact inv
  | tail _ step ih => exact ih.step rooms nonzero step

theorem IsolatedStep.ledgerStep (step : IsolatedStep h t t') : LedgerStep h t t' := by
  obtain ⟨call, ret, done, -⟩ := step
  exact ⟨call, ret, done⟩

theorem IsolatedStep.serial (rooms : h.Rooms) (nonzero : ∀ bytes, h.checksum bytes ≠ 0) {start : Objects}
    (inv : LedgerInv h t) (before : Serial start t.map) (step : IsolatedStep h t t') : Serial start t'.map := by
  obtain ⟨call, ret, done, isolated⟩ := step
  rw [done.map]
  split
  · next success =>
    exact before.next (inv.succeeds rooms nonzero (done.safe success) done.run success).1 (isolated success)
  · exact before

end Runs

-- what `pmb_get` shows at any moment, and what the logs hold, is the map of the calls so far; and every call that
-- succeeds is an action that the transactions of the map allow
theorem calls_follow_map {h : Handle} (rooms : h.Rooms) (nonzero : ∀ bytes, h.checksum bytes ≠ 0) {s : Store}
    (ready : Recoverable h s) {t : Ledger} (run : Relation.ReflTransGen (LedgerStep h) (Ledger.start h s) t) :
    Means h t.store.pool.mem t.map.objects ∧ (∀ i < h.txSlotsCount, TxLogged h t.store i (t.map.txs i)) ∧
      ∀ call ret s', LedgerSafe h t call → runCall h t.store call = some (s', ret) → ret.status = .ok →
        t.map.Allows (call.action h t.map.objects ret) := by
  have inv := (LedgerInv.start ready).run rooms nonzero run
  exact ⟨inv.held.means, inv.logs, fun call ret s' safe run success => (inv.succeeds rooms nonzero safe run success).1⟩

theorem twoSlotHandle_nonzero (bytes : List UInt8) : twoSlotHandle.checksum bytes ≠ 0 := show (1 : UInt64) ≠ 0 by decide

theorem twoSlotStore_recoverable : Recoverable twoSlotHandle twoSlotStore := by
  have rooms := twoSlotHandle_layout.rooms
  have zero : ∀ addr width, twoSlotStore.pool.mem.word addr width = 0 := fun addr width =>
    word_of_zeros _ addr width fun _ _ _ => rfl
  have slots : caslistNew 1 2 = twoSlotStore.txSlotsList := by decide +kernel
  have dead : ∀ id, shownObjects twoSlotHandle twoSlotStore.pool.mem id = none := by
    intro id
    have missing : pmbGet twoSlotHandle twoSlotStore.pool.mem id = .error .enoent := by
      refine pmbGet_dead ?_
      rintro ⟨_, _, live⟩
      exact live (zero _ _)
    rw [shownObjects, missing]
  refine ⟨⟨⟨fun id obj _ => (contained_of_zeros rooms id (zero _ _) (zero _ _) (zero _ _)).1,
    fun id obj _ _ => (contained_of_zeros rooms id (zero _ _) (zero _ _) (zero _ _)).2⟩,
    fun _ _ => ⟨rfl, fun _ _ => rfl⟩, ?_, fun _ _ => zero _ _⟩, ⟨_, flatStore_free, fun id inside => ⟨?_, dead id⟩⟩,
    ⟨_, flatStore_metaFree, fun id inside => absurd inside (Finset.notMem_empty id)⟩⟩
  · rw [← slots]
    exact caslistNew_spec (le_refl 1) (by decide) (by decide)
  · exact (Finset.mem_Icc.mp inside).imp_right Nat.lt_succ_of_le

-- the ledger after a call that succeeds
def Ledger.after (h : Handle) (t : Ledger) (call : Call) (ret : Return) : Ledger :=
  ⟨((runCall h t.store call).map Prod.fst).getD t.store, t.map.next (call.action h t.map.objects ret)⟩

theorem LedgerCall.after {h : Handle} {t : Ledger} (call : Call) (ret : Return)
    (ran : (runCall h t.store call).map Prod.snd = some ret) (success : ret.status = .ok)
    (slot : SlotSafe h t.store call) (safe : LedgerSafe h t call) : LedgerCall h t call ret (t.after h call ret) := by
  obtain ⟨⟨s', same⟩, done, rfl⟩ := Option.map_eq_some_iff.mp ran
  refine ⟨?_, slot, fun _ => safe, by rw [if_pos success]; rfl⟩
  rw [done, Ledger.after, done]
  rfl

theorem IsolatedStep.after {h : Handle} {t : Ledger} (call : Call) (ret : Return)
    (ran : (runCall h t.store call).map Prod.snd = some ret) (success : ret.status = .ok)
    (slot : SlotSafe h t.store call) (safe : LedgerSafe h t call)
    (isolated : t.map.Isolates (call.action h t.map.objects ret)) : IsolatedStep h t (t.after h call ret) :=
  ⟨call, ret, .after call ret ran success slot safe, fun _ => isolated⟩

-- each of two transactions puts an object
def bothBegun : Ledger :=
  ((Ledger.start twoSlotHandle twoSlotStore).after twoSlotHandle .txBegin ⟨.ok, 1, 0⟩).after twoSlotHandle .txBegin
    ⟨.ok, 2, 0⟩

def firstPut : Ledger := bothBegun.after twoSlotHandle (.tput 1 (onePair 0)) ⟨.ok, 1, 1⟩

def bothPut : Ledger := firstPut.after twoSlotHandle (.tput 2 (onePair 0)) ⟨.ok, 2, 2⟩

theorem put_called {t : Ledger} (slot blkId : Nat)
    (ran : (runCall twoSlotHandle t.store (.tput slot (onePair 0))).map Prod.snd = some ⟨.ok, slot, blkId⟩)
    (fits : twoSlotHandle.size t.store (slot - 1) + 24 ≤ twoSlotHandle.backend.txSlotSize) :
    LedgerCall twoSlotHandle t (.tput slot (onePair 0)) ⟨.ok, slot, blkId⟩
      (t.after twoSlotHandle (.tput slot (onePair 0)) ⟨.ok, slot, blkId⟩) := by
  have alone : ∀ id, twoSlotHandle.Alone id := fun id j other => twoSlotHandle_layout.blocks_apart j id other
  have large : ¬SmallUpdate twoSlotHandle (onePair 0) := fun small => small.1 rfl
  have len : tputEntryLen twoSlotHandle (onePair 0) = 24 := if_neg large
  refine .after _ _ ran rfl (fun _ => ?_) ⟨fun _ => ?_, by decide, by decide, fun _ => alone _⟩
  · rwa [len]
  · rwa [len]

theorem put_isolated {t : Ledger} (slot blkId : Nat)
    (ran : (runCall twoSlotHandle t.store (.tput slot (onePair 0))).map Prod.snd = some ⟨.ok, slot, blkId⟩)
    (fits : twoSlotHandle.size t.store (slot - 1) + 24 ≤ twoSlotHandle.backend.txSlotSize)
    (unnamed : ∀ j, j ≠ slot - 1 → ∀ c ∈ t.map.pendingOf j, ¬c.Names blkId) :
    IsolatedStep twoSlotHandle t (t.after twoSlotHandle (.tput slot (onePair 0)) ⟨.ok, slot, blkId⟩) :=
  ⟨_, _, put_called slot blkId ran fits, fun _ => ⟨fun _ named => absurd named id, unnamed⟩⟩

theorem bothBegun_run :
    Relation.ReflTransGen (IsolatedStep twoSlotHandle) (Ledger.start twoSlotHandle twoSlotStore) bothBegun := by
  have begins : IsolatedStep twoSlotHandle (Ledger.start twoSlotHandle twoSlotStore) _ :=
    .after .txBegin ⟨.ok, 1, 0⟩ (by decide +kernel) rfl trivial trivial trivial
  exact (Relation.ReflTransGen.single begins).tail
    (.after .txBegin ⟨.ok, 2, 0⟩ (by decide +kernel) rfl trivial trivial trivial)

theorem bothBegun_pending (i : Nat) : bothBegun.map.pendingOf i = [] := by rcases i with _ | _ | i <;> rfl

theorem bothPut_run :
    Relation.ReflTransGen (IsolatedStep twoSlotHandle) (Ledger.start twoSlotHandle twoSlotStore) bothPut := by
  have puts : IsolatedStep twoSlotHandle bothBegun firstPut := by
    refine put_isolated 1 1 (by decide +kernel) (by decide +kernel) fun j other c member => ?_
    rw [bothBegun_pending] at member
    cases member
  have last : IsolatedStep twoSlotHandle firstPut bothPut := by
    refine put_isolated 2 2 (by decide +kernel) (by decide +kernel) fun j other c member => ?_
    have pending : firstPut.map.pendingOf j = if j = 0 then [.keep] else [] := by rcases j with _ | _ | j <;> rfl
    rw [pending] at member
    split at member
    · rw [List.mem_singleton.mp member]
      exact id
    · cases member
  exact (bothBegun_run.tail puts).tail last

theorem calls_follow_map_sample : Means twoSlotHandle bothPut.store.pool.mem bothPut.map.objects :=
  (calls_follow_map twoSlotHandle_layout.rooms twoSlotHandle_nonzero twoSlotStore_recoverable
    (Relation.ReflTransGen.mono (fun _ _ => IsolatedStep.ledgerStep) _ _ bothPut_run)).1

end PmBackend
