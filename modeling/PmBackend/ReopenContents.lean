import PmBackend.SealedCalls

set_option autoImplicit false

namespace PmBackend

open ByteMemory Interleaving

-- what keeps every block under the checksum that recovery computes
def SealSafe (h : Handle) (s : Store) : Call → Prop
  | .tput txSlot kv => EntryFits h s txSlot (tputEntryLen h kv) ∧ (¬SmallUpdate h kv → PutSeals h s kv)
  | .tputMeta txSlot kv => EntryFits h s txSlot sizeofTxEntry ∧ PutMetaSeals h s kv
  | .tdel txSlot _ => EntryFits h s txSlot sizeofTxEntry
  | .txExecute txSlot => UpdatesFit h s (txSlot - 1)
  | .txAbort txSlot => AbortsAlone h s (txSlot - 1)
  | _ => True

structure Session where
  store : Store
  started : Finset Nat

def Session.next (t : Session) (ret : Return) : Call → Finset Nat
  | .txBegin => insert ret.txSlot t.started
  | .txExecute txSlot => t.started.erase txSlot
  | .txAbort txSlot => t.started.erase txSlot
  | _ => t.started

def SessionStep (h : Handle) (t t' : Session) : Prop :=
  ∃ call ret, runCall h t.store call = some (t'.store, ret) ∧ ret.status = .ok ∧ SealSafe h t.store call ∧
    t'.started = t.next ret call

-- between calls; the ids of the slots that are not free belong to started transactions
structure SessionSealed (h : Handle) (t : Session) : Prop where
  blocks : SealedBut h t.store.pool.mem ∅
  lists : ∀ i < h.txSlotsCount, CleanList (t.store.updIdList i)
  slots : SlotInvariant h t.store
  started : ∀ ids, ListOf t.store.txSlotsList ids → ∀ id, 1 ≤ id → id ≤ h.txSlotsCount → id ∉ ids → id ∈ t.started

-- a transaction takes its slot from the list of free slots, and gives it back when it ends
def SlotsMove (h : Handle) (s s' : Store) (ret : Return) : Call → Prop
  | .txBegin => (caslistPop s.txSlotsList 0).ret = 0 ∧ ret.txSlot = (caslistPop s.txSlotsList 0).val ∧
    s'.txSlotsList = (caslistPop s.txSlotsList 0).list
  | .txExecute txSlot => (txSlot ≠ 0 ∧ txSlot ≤ h.txSlotsCount) ∧ s'.txSlotsList = caslistPush s.txSlotsList txSlot
  | .txAbort txSlot => (txSlot ≠ 0 ∧ txSlot ≤ h.txSlotsCount) ∧ s'.txSlotsList = caslistPush s.txSlotsList txSlot
  | _ => s'.txSlotsList = s.txSlotsList

section Sessions

variable {h : Handle} {s s' : Store} {t t' : Session} {call : Call} {ret : Return}

theorem SealSafe.slotSafe (layout : h.LogLayout) (safe : SealSafe h s call) (run : runCall h s call = some (s', ret))
    (success : ret.status = .ok) : SlotSafe h s call := by
  cases call with
  | tput txSlot kv => exact safe.1
  | tputMeta txSlot kv => exact safe.1
  | tdel txSlot blkId => exact safe
  | txExecute txSlot =>
    obtain ⟨⟨executed, status⟩, execute, same⟩ := Option.map_eq_some_iff.mp run
    cases same
    unfold pmbTxExecute at execute
    split at execute
    · cases execute
      cases success
    · obtain ⟨i, rfl⟩ : ∃ i, txSlot = i + 1 := ⟨txSlot - 1, by omega⟩
      obtain ⟨⟨finished, status'⟩, done, same⟩ := Option.map_eq_some_iff.mp execute
      cases same
      cases success
      -- only a committed slot is executed
      rcases txSlotExecute_spec layout (by omega) done with ⟨-, -, failed⟩ | ⟨commited, -⟩
      · cases failed
      · change h.status s (i + 1 - 1) ≠ _
        rw [Nat.add_sub_cancel, commited]
        decide
  | txBegin => trivial
  | txCommit txSlot => trivial
  | txAbort txSlot => trivial
  | resolveConflict blkId1 blkId2 => trivial

theorem runCall_seals (rooms : h.Rooms) (blocks : SealedBut h s.pool.mem ∅)
    (lists : ∀ i < h.txSlotsCount, CleanList (s.updIdList i)) (safe : SealSafe h s call)
    (run : runCall h s call = some (s', ret)) (success : ret.status = .ok) :
    SealedBut h s'.pool.mem ∅ ∧ ∀ i < h.txSlotsCount, CleanList (s'.updIdList i) := by
  have untouched : SealedBut h s'.pool.mem ∅ ∧ s'.updIdList = s.updIdList →
      SealedBut h s'.pool.mem ∅ ∧ ∀ i < h.txSlotsCount, CleanList (s'.updIdList i) := fun ⟨after, same⟩ =>
    ⟨after, fun i known => by rw [same]; exact lists i known⟩
  cases call with
  | txBegin =>
    cases run
    obtain ⟨changed, only⟩ := pmbTxBegin_only rooms.toLogLayout success
    have same := congrArg Store.updIdList only
    exact untouched ⟨blocks.log rooms changed, same⟩
  | tput txSlot kv =>
    cases run
    obtain ⟨entry, new_block⟩ := safe
    refine untouched ?_
    obtain ⟨args, ⟨small, append, -⟩ | ⟨large, old, found, new⟩⟩ := pmbTput_ok (Prod.ext rfl (Prod.ext success rfl))
    · unfold SmallUpdate at small
      rw [tputEntryLen, if_pos small] at entry
      exact append_seals rooms blocks args.slot_positive args.slot_known
        (fillsEntry_smallUpdate h kv.blkId kv.valBytes kv.offset) entry append
    · have room := new_block large
      unfold SmallUpdate at large
      rw [tputEntryLen, if_neg large] at entry
      exact tputNewBlock_seals rooms blocks args entry room found new
  | tputMeta txSlot kv =>
    cases run
    obtain ⟨args, old, -, new⟩ := pmbTputMeta_ok (Prod.ext rfl (Prod.ext success rfl))
    exact untouched (tputMetaNewBlock_seals rooms blocks args safe.1 safe.2 new)
  | tdel txSlot blkId =>
    cases run
    obtain ⟨⟨positive, known⟩, -, append⟩ := pmbTdel_ok (Prod.ext rfl success)
    exact untouched (append_seals rooms blocks positive known (fillsEntry_remove blkId) safe append)
  | txCommit txSlot =>
    cases run
    obtain ⟨changed, only⟩ := pmbTxCommit_only rooms.toLogLayout s txSlot
    have same := congrArg Store.updIdList only
    exact untouched ⟨blocks.log rooms changed, same⟩
  | txExecute txSlot =>
    obtain ⟨⟨executed, status⟩, execute, same⟩ := Option.map_eq_some_iff.mp run
    cases same
    unfold pmbTxExecute at execute
    split at execute
    · cases execute
      cases success
    · obtain ⟨i, rfl⟩ : ∃ i, txSlot = i + 1 := ⟨txSlot - 1, by omega⟩
      obtain ⟨⟨finished, status'⟩, done, same⟩ := Option.map_eq_some_iff.mp execute
      cases same
      cases success
      have known : i < h.txSlotsCount := by omega
      obtain ⟨after, clean, others⟩ := execute_seals rooms blocks known (lists i known) safe done
      refine ⟨after, fun j inside => ?_⟩
      change CleanList (finished.updIdList j)
      by_cases here : j = i
      · rw [here]
        exact clean
      · rw [others j here]
        exact lists j inside
  | txAbort txSlot =>
    cases run
    refine untouched ?_
    simp only at success
    unfold pmbTxAbort at success ⊢
    split at success
    · cases success
    · next valid =>
      rw [if_neg valid]
      obtain ⟨i, rfl⟩ : ∃ i, txSlot = i + 1 := ⟨txSlot - 1, by omega⟩
      have done : txSlotAbort h s (i + 1) = ((txSlotAbort h s (i + 1)).1, .ok) := Prod.ext rfl success
      have alone : AbortsAlone h s i := safe
      have both := abort_seals rooms blocks (show i < h.txSlotsCount by omega) alone done
      exact ⟨both.1, both.2⟩
  | resolveConflict blkId1 blkId2 =>
    cases run
    exact untouched (resolveConflict_seals rooms blocks blkId1 blkId2)

theorem logNewBlock_slots (txSlot oldBlkId newBlkId : Nat) :
    (logNewBlock h s txSlot oldBlkId newBlkId).1.txSlotsList = s.txSlotsList := by
  obtain ⟨fill, -, append⟩ := logNewBlock_append h s txSlot oldBlkId newBlkId
  rw [append]
  exact txSlotAppend_slots h s txSlot fill _

theorem runCall_slots (layout : h.LogLayout) (run : runCall h s call = some (s', ret)) (success : ret.status = .ok) :
    SlotsMove h s s' ret call := by
  cases call with
  | txBegin =>
    cases run
    have only := congrArg Store.txSlotsList (pmbTxBegin_only layout success).2
    refine ⟨?_, ?_, only⟩
    · by_contra failed
      simp only [pmbTxBegin, if_pos failed] at success
      cases success
    · simp only [pmbTxBegin]
      split <;> rfl
  | tput txSlot kv =>
    cases run
    obtain ⟨-, ⟨-, append, -⟩ | ⟨-, old, -, new⟩⟩ := pmbTput_ok (Prod.ext rfl (Prod.ext success rfl))
    · have slots := txSlotAppend_slots h s txSlot (fun p entry => backendMemcpy h (((p.setType entry
        .updinplace).setBlkId1 entry kv.blkId).setBlkId2 entry (kv.valBytes.length * 2 ^ 32 + kv.offset))
          (entry + sizeofTxEntry) kv.valBytes) (sizeofTxEntry + kv.valBytes.length)
      unfold txSlotOpSmallUpdate at append
      rw [append] at slots
      exact slots
    · obtain ⟨-, obj, logged, -, log, written, -⟩ := tputNewBlock_ok new
      have slots := logNewBlock_slots (h := h) (s := { s with freeList := (caslistPop s.freeList 0).list }) txSlot
        kv.blkId (caslistPop s.freeList 0).val
      rw [log] at slots
      exact (congrArg Store.txSlotsList written).trans slots
  | tputMeta txSlot kv =>
    cases run
    obtain ⟨-, old, -, new⟩ := pmbTputMeta_ok (Prod.ext rfl (Prod.ext success rfl))
    obtain ⟨-, obj, logged, -, log, written, -⟩ := tputMetaNewBlock_ok new
    have slots := logNewBlock_slots (h := h) (s := { s with metaFreeList := (caslistPop s.metaFreeList 0).list })
      txSlot kv.blkId (caslistPop s.metaFreeList 0).val
    rw [log] at slots
    exact (congrArg Store.txSlotsList written).trans slots
  | tdel txSlot blkId =>
    cases run
    obtain ⟨-, -, append⟩ := pmbTdel_ok (Prod.ext rfl success)
    have slots := txSlotAppend_slots h s txSlot (fun p entry => (p.setType entry .remove).setBlkId1 entry blkId)
      sizeofTxEntry
    unfold txSlotOpRemove at append
    rw [append] at slots
    exact slots
  | txCommit txSlot =>
    cases run
    have only := congrArg Store.txSlotsList (pmbTxCommit_only layout s txSlot).2
    exact only
  | txExecute txSlot =>
    obtain ⟨⟨executed, status⟩, execute, same⟩ := Option.map_eq_some_iff.mp run
    cases same
    unfold pmbTxExecute at execute
    split at execute
    · cases execute
      cases success
    · obtain ⟨i, rfl⟩ : ∃ i, txSlot = i + 1 := ⟨txSlot - 1, by omega⟩
      obtain ⟨⟨finished, status'⟩, done, same⟩ := Option.map_eq_some_iff.mp execute
      cases same
      cases success
      refine ⟨⟨by omega, by omega⟩, ?_⟩
      rcases txSlotExecute_spec layout (by omega) done with ⟨-, -, failed⟩ | ⟨-, -, -, -, slots⟩
      · cases failed
      · exact congrArg (fun list => caslistPush list (i + 1)) slots
  | txAbort txSlot =>
    cases run
    simp only at success
    unfold SlotsMove
    unfold pmbTxAbort at success ⊢
    split at success
    · cases success
    · next valid =>
      rw [if_neg valid]
      obtain ⟨i, rfl⟩ : ∃ i, txSlot = i + 1 := ⟨txSlot - 1, by omega⟩
      refine ⟨⟨by omega, by omega⟩, ?_⟩
      rcases txSlotAbort_spec layout s (show i < h.txSlotsCount by omega) with ⟨-, -, failed⟩ | ⟨-, -, -, -, slots⟩
      · rw [failed] at success
        cases success
      · exact congrArg (fun list => caslistPush list (i + 1)) slots
  | resolveConflict blkId1 blkId2 =>
    cases run
    change (pmbResolveConflict h s blkId1 blkId2).1.txSlotsList = s.txSlotsList
    unfold pmbResolveConflict
    split
    · rfl
    · split <;> rfl

theorem SessionSealed.step (rooms : h.Rooms) (inv : SessionSealed h t) (step : SessionStep h t t') :
    SessionSealed h t' := by
  obtain ⟨call, ret, run, success, safe, started⟩ := step
  have few := rooms.few_slots
  obtain ⟨blocks, lists⟩ := runCall_seals rooms inv.blocks inv.lists safe run success
  refine ⟨blocks, lists, inv.slots.step rooms.toLogLayout
    ⟨call, ret, safe.slotSafe rooms.toLogLayout run success, run⟩, fun ids' free' id positive known missing => ?_⟩
  obtain ⟨ids, free, iff⟩ := inv.slots.owned
  have before := inv.started ids free id positive known
  have moved := runCall_slots rooms.toLogLayout run success
  have gone : ∀ txSlot, (txSlot ≠ 0 ∧ txSlot ≤ h.txSlotsCount) →
      t'.store.txSlotsList = caslistPush t.store.txSlotsList txSlot → id ∈ t.started.erase txSlot := by
    rintro txSlot ⟨nonzero, bound⟩ pushed
    rw [pushed] at free'
    rw [free'.same_ids (free.push_pos nonzero (by omega)), Finset.mem_insert, not_or] at missing
    exact Finset.mem_erase.mpr ⟨missing.1, before missing.2⟩
  have kept : t'.store.txSlotsList = t.store.txSlotsList → id ∈ t.started := by
    intro same
    rw [same] at free'
    rw [free'.same_ids free] at missing
    exact before missing
  rw [started]
  cases call with
  | txBegin =>
    obtain ⟨popped, taken, rest⟩ := moved
    obtain ⟨-, left⟩ := listed_pop free
      (fun id inside => by have bounds := ((iff id).mp inside).1; omega) popped
    rw [rest] at free'
    rw [free'.same_ids left, Finset.mem_erase] at missing
    change id ∈ insert ret.txSlot t.started
    rw [Finset.mem_insert, taken]
    by_cases here : id = (caslistPop t.store.txSlotsList 0).val
    · exact Or.inl here
    · exact Or.inr (before fun inside => missing ⟨here, inside⟩)
  | txExecute txSlot => exact gone txSlot moved.1 moved.2
  | txAbort txSlot => exact gone txSlot moved.1 moved.2
  | tput txSlot kv => exact kept moved
  | tputMeta txSlot kv => exact kept moved
  | tdel txSlot blkId => exact kept moved
  | txCommit txSlot => exact kept moved
  | resolveConflict blkId1 blkId2 => exact kept moved

theorem SessionSealed.finished (inv : SessionSealed h t) (none_started : t.started = ∅) :
    ∀ i < h.txSlotsCount, h.status t.store i = TxStatus.empty.code := by
  intro i known
  obtain ⟨ids, free, iff⟩ := inv.slots.owned
  by_contra used
  have busy := inv.started ids free (i + 1) (by omega) (by omega) fun inside => used ((iff (i + 1)).mp inside).2
  rw [none_started] at busy
  exact absurd busy (Finset.notMem_empty _)

end Sessions

-- `pmb_open` of a pool that `pmb_close` left as it was; only its bytes are in the file
def Reopens (h : Handle) (heap : Nat → Nat → TxMeta) (s s' : Store) : Prop :=
  ∃ mapped initial, mapped.pool.mem = s.pool.mem ∧ txLogInit h mapped heap = some initial ∧
    OpenExisting h initial s'

-- the objects are what they were, and in the list of their region
structure ReopensExact (h : Handle) (s s' : Store) : Prop where
  gets : ∀ id, pmbGet h s'.pool.mem id = pmbGet h s.pool.mem id
  objs : ∀ id, Listed s'.objsList id ↔ id < h.totalObjsCount ∧ ∃ object, pmbGet h s'.pool.mem id = .ok object
  metaObjs : ∀ id, Listed s'.metaObjsList id ↔
    h.totalObjsCount ≤ id ∧ ∃ object, pmbGet h s'.pool.mem id = .ok object

-- a store without a transaction whose objects recovery recognizes, as one that was just made
structure Settled (h : Handle) (s : Store) : Prop where
  blocks : SealedBut h s.pool.mem ∅
  lists : ∀ i < h.txSlotsCount, CleanList (s.updIdList i)
  slots : ListOf s.txSlotsList (Finset.Icc 1 h.txSlotsCount)
  empty : ∀ i < h.txSlotsCount, h.status s i = TxStatus.empty.code

section Reopening

variable {h : Handle} {s s' : Store} {heap : Nat → Nat → TxMeta}

theorem Settled.session (settled : Settled h s) : SessionSealed h ⟨s, ∅⟩ := by
  refine ⟨settled.blocks, settled.lists, SlotInvariant.of_empty settled.slots settled.empty,
    fun ids free id positive known missing => ?_⟩
  rw [free.same_ids settled.slots, Finset.mem_Icc] at missing
  omega

theorem checkSlots_empty (layout : h.LogLayout) (empty : ∀ i < h.txSlotsCount, h.status s i = TxStatus.empty.code)
    (rounds i : Nat) (bound : i ≤ h.txSlotsCount + 1) (enough : h.txSlotsCount + 1 - i < rounds) :
    checkSlots h rounds i s = some s := by
  have few := layout.few_slots
  induction rounds generalizing i with
  | zero => omega
  | succ rounds ih =>
    unfold checkSlots
    by_cases round : i ≤ h.txSlotsCount
    · have skipped : checkSlot h s i = some s := by
        unfold checkSlot
        by_cases known : i < h.txSlotsCount
        · rw [layout.slot_eq known]
          exact if_pos (empty i known)
        · rw [layout.slot_none (by omega)]
      rw [if_pos round, skipped, Option.bind_some, Nat.mod_eq_of_lt (show i + 1 < 2 ^ 8 by omega)]
      exact ih (i + 1) (by omega) (by omega)
    · rw [if_neg round]

theorem slotIdsLoop_ends (few : h.txSlotsCount < 255) (rounds i : Nat) (bound : i ≤ h.txSlotsCount + 1)
    (enough : h.txSlotsCount + 1 - i < rounds) (list : Option Caslist) :
    ∃ list', slotIdsLoop h rounds i list = some list' := by
  induction rounds generalizing i list with
  | zero => omega
  | succ rounds ih =>
    unfold slotIdsLoop
    by_cases round : i ≤ h.txSlotsCount
    · rw [if_pos round, Nat.mod_eq_of_lt (show i + 1 < 2 ^ 8 by omega)]
      exact ih (i + 1) (by omega) (by omega) _
    · rw [if_neg round]
      exact ⟨list, rfl⟩

theorem txLogInit_idle (layout : h.LogLayout) (empty : ∀ i < h.txSlotsCount, h.status s i = TxStatus.empty.code)
    {mapped initial : Store} (bytes : mapped.pool.mem = s.pool.mem) (init : txLogInit h mapped heap = some initial) :
    txLogCheck h initial = some initial := by
  have few := layout.few_slots
  obtain ⟨pool, -⟩ := txLogInit_spec layout init
  refine checkSlots_empty layout (fun i known => ?_) _ 1 (by omega) (by omega)
  unfold Handle.status
  rw [pool, bytes]
  exact empty i known

theorem reopens_spec (layout : h.LogLayout) (ids : h.Ids) (heap : Nat → Nat → TxMeta)
    (empty : ∀ i < h.txSlotsCount, h.status s i = TxStatus.empty.code) :
    (∃ s', Reopens h heap s s') ∧ ∀ s', Reopens h heap s s' → s'.pool.mem = s.pool.mem ∧
      s'.updIdList = (fun i => ⟨0, heap i⟩) ∧ ListOf s'.txSlotsList (Finset.Icc 1 h.txSlotsCount) ∧
      ∀ kind id, Listed (s'.recovered kind) id ↔
        id ≠ 0 ∧ id < h.totalObjsCount + h.metaObjsCount ∧ kind = recoveryList h s.pool.mem id := by
  -- without a transaction under way `pmb_open` succeeds, and only sorts the blocks into its lists
  have few := layout.few_slots
  constructor
  · obtain ⟨list, loop⟩ := slotIdsLoop_ends few (2 ^ 8) 1 (by omega) (by omega) (caslistNew 1 h.txSlotsCount)
    have init : txLogInit h s heap = some { s with txSlotsList := list, updIdList := fun i => ⟨0, heap i⟩ } := by
      simp only [txLogInit, loop, Option.map_some]
    exact ⟨_, s, _, rfl, init, _, txLogInit_idle layout empty rfl init, _, interleaves_flatten _, rfl⟩
  · rintro s' ⟨mapped, initial, bytes, init, checked, check, recovered⟩
    rw [txLogInit_idle layout empty bytes init] at check
    cases check
    obtain ⟨pool, slots⟩ := txLogInit_spec layout init
    have listed := recovered_listed ids recovered
    rw [pool, bytes] at listed
    obtain ⟨pushes, -, rfl⟩ := recovered
    refine ⟨?_, ?_, ?_, listed⟩
    · rw [foldl_recoveryPush_pool]
      exact (congrArg Pool.mem pool).trans bytes
    · rw [foldl_recoveryPush_lists]
      obtain ⟨list, -, rfl⟩ := Option.map_eq_some_iff.mp init
      rfl
    · rw [foldl_recoveryPush_txSlotsList]
      exact slots

theorem SealedBut.valid_iff (blocks : SealedBut h s.pool.mem ∅) (id : Nat) :
    (∃ object, pmbGet h s.pool.mem id = .ok object) ↔ id ≠ 0 ∧ h.ValidObject s.pool.mem id := by
  -- an object that `pmb_get` finds is one that recovery recognizes, and no other block is
  constructor
  · rintro ⟨object, found⟩
    cases get : backendGet h s.pool.mem id with
    | error e =>
      simp only [pmbGet, get] at found
      cases found
    | ok obj =>
      obtain ⟨positive, direct, live⟩ := backendGet_ok.mp get
      refine ⟨positive, obj, direct, live, ?_⟩
      have sealed := blocks.sealed id obj direct (Set.notMem_empty id) live
      simp only [utilChecksumVerify, beq_iff_eq]
      exact sealed
  · exact fun both => pmbGet_valid both.1 both.2

theorem SealedBut.reopens_exact (rooms : h.Rooms) (blocks : SealedBut h s.pool.mem ∅)
    (empty : ∀ i < h.txSlotsCount, h.status s i = TxStatus.empty.code) (reopened : Reopens h heap s s') :
    ReopensExact h s s' := by
  obtain ⟨bytes, -, -, listed⟩ := (reopens_spec rooms.toLogLayout rooms.toIds heap empty).2 s' reopened
  have known : ∀ id, h.ValidObject s.pool.mem id → id < h.totalObjsCount + h.metaObjsCount := by
    rintro id ⟨obj, direct, -⟩
    exact (backendDirect_known rooms.fit id).mp ⟨obj, direct⟩
  refine ⟨fun id => by rw [bytes], fun id => ?_, fun id => ?_⟩
  · have sorted := listed .objs id
    have decided := @recoveryList_eq h rooms.toIds s.pool.mem id
    rw [bytes, blocks.valid_iff]
    change Listed (s'.recovered .objs) id ↔ _
    rw [sorted]
    constructor
    · rintro ⟨positive, below, kind⟩
      have valid := (decided positive below .objs).mp kind
      exact ⟨valid.1, positive, valid.2⟩
    · rintro ⟨data, positive, valid⟩
      exact ⟨positive, known id valid, (decided positive (known id valid) .objs).mpr ⟨data, valid⟩⟩
  · have sorted := listed .metaObjs id
    have decided := @recoveryList_eq h rooms.toIds s.pool.mem id
    rw [bytes, blocks.valid_iff]
    change Listed (s'.recovered .metaObjs) id ↔ _
    rw [sorted]
    constructor
    · rintro ⟨positive, below, kind⟩
      have valid := (decided positive below .metaObjs).mp kind
      exact ⟨valid.1, positive, valid.2⟩
    · rintro ⟨metadata, positive, valid⟩
      exact ⟨positive, known id valid, (decided positive (known id valid) .metaObjs).mpr ⟨metadata, valid⟩⟩

theorem settled_created (rooms : h.Rooms) {initial : Store} (zeros : ∀ x, h.backend.txLog ≤ x → s.pool.mem x = 0)
    (clean : ∀ i < h.txSlotsCount, ∀ k < 128, (heap i k).id = 0) (init : txLogInit h s heap = some initial) :
    Settled h (openEmpty h initial) := by
  have opened : Opened h (openEmpty h initial) := Opened.created s initial heap (fun x lower _ => zeros x lower) init
  have lists : (openEmpty h initial).updIdList = fun i => ⟨0, heap i⟩ :=
    (ListsOpened.created s initial init).lists rooms.toLogLayout
  obtain ⟨pool, slots⟩ := txLogInit_spec rooms.toLogLayout init
  obtain ⟨pool', slots'⟩ := populateLoop_frame h (sub64 (u64 (h.totalObjsCount + h.metaObjsCount)) 1)
    { initial with
      freeList := caslistNew 1 h.totalObjsCount
      metaFreeList := caslistNew 1 h.metaObjsCount
      objsList := none
      metaObjsList := none }
  have bytes : (openEmpty h initial).pool.mem = s.pool.mem := congrArg Pool.mem (pool'.trans pool)
  have free : ListOf (openEmpty h initial).txSlotsList (Finset.Icc 1 h.txSlotsCount) := by
    rw [← slots'] at slots
    exact slots
  refine ⟨?_, fun i known => ?_, free, fun i known => ?_⟩
  · have zeroed : ∀ id obj, backendDirect h.backend id = some obj →
        h.Contained (openEmpty h initial).pool.mem id obj ∧ h.Sealed (openEmpty h initial).pool.mem id obj := by
      intro id obj direct
      have above := rooms.blocks_above id obj direct
      have start : h.backend.txLog ≤ obj := (Nat.le_add_right _ _).trans above
      rw [bytes]
      exact contained_of_zeros rooms id (word_of_zeros _ _ _ fun x lower _ => zeros x (by omega))
        (word_of_zeros _ _ _ fun x lower _ => zeros x (by omega)) (word_of_zeros _ _ _ fun x lower _ => zeros x (by omega))
    exact ⟨fun id obj direct => (zeroed id obj direct).1, fun id obj direct _ => (zeroed id obj direct).2⟩
  · rw [lists]
    exact ⟨rfl, clean i known⟩
  · obtain ⟨ids, owned, iff⟩ := (opened.slotInvariant rooms.toLogLayout).owned
    have member : i + 1 ∈ ids := by
      rw [owned.same_ids free, Finset.mem_Icc]
      omega
    exact ((iff (i + 1)).mp member).2

end Reopening

-- in a run of successful calls that meet the condition, and that leaves no transaction unfinished, closing and
-- opening the pool again shows the same objects, each in the list of its region; the reopened pool is one to start
-- from again when the memory of its update lists was zero
theorem reopened_exact {h : Handle} (rooms : h.Rooms) {s : Store} (settled : Settled h s) {t : Session}
    (run : Relation.ReflTransGen (SessionStep h) ⟨s, ∅⟩ t) (finished : t.started = ∅) (heap : Nat → Nat → TxMeta) :
    (∃ s', Reopens h heap t.store s') ∧ ∀ s', Reopens h heap t.store s' → ReopensExact h t.store s' ∧
      ((∀ i < h.txSlotsCount, ∀ k < 128, (heap i k).id = 0) → Settled h s') := by
  have inv : SessionSealed h t := by
    clear finished
    induction run with
    | refl => exact settled.session
    | tail _ step ih => exact ih.step rooms step
  have empty := inv.finished finished
  obtain ⟨opens, reopened⟩ := reopens_spec rooms.toLogLayout rooms.toIds heap empty
  refine ⟨opens, fun s' again => ⟨inv.blocks.reopens_exact rooms empty again, fun clean => ?_⟩⟩
  obtain ⟨bytes, lists, slots, -⟩ := reopened s' again
  refine ⟨by rw [bytes]; exact inv.blocks, fun i known => ?_, slots, fun i known => ?_⟩
  · rw [lists]
    exact ⟨rfl, clean i known⟩
  · unfold Handle.status
    rw [bytes]
    exact empty i known

theorem heapStore_settled : Settled flatHandle (heapStore 0) := by
  have loop : slotIdsLoop flatHandle (2 ^ 8) 1 (caslistNew 1 flatHandle.txSlotsCount) =
      some (some ⟨1, 1, 1, []⟩) := by decide +kernel
  have zeros : ∀ x, flatHandle.backend.txLog ≤ x → zeroStore.pool.mem x = 0 := fun _ _ => rfl
  have clean : ∀ i < flatHandle.txSlotsCount, ∀ k < 128, ((fun _ _ => ⟨0, 0, 0⟩ : Nat → Nat → TxMeta) i k).id = 0 :=
    fun _ _ _ _ => rfl
  refine settled_created flatHandle_layout.rooms zeros clean ?_
  simp only [txLogInit, loop, Option.map_some]

-- a transaction that puts an object into block 1 of the flat pool, up to its commit
def begunSession : Session := ⟨(pmbTxBegin flatHandle (heapStore 0)).1, {1}⟩

def putSession : Session := ⟨(pmbTput flatHandle begunSession.store 1 (onePair 0)).1, {1}⟩

def commitedSession : Session := ⟨(pmbTxCommit flatHandle putSession.store 1).1, {1}⟩

theorem commitedSession_run :
    Relation.ReflTransGen (SessionStep flatHandle) ⟨heapStore 0, ∅⟩ commitedSession := by
  have alone : ∀ id, flatHandle.Alone id := fun id j other => flatHandle_layout.blocks_apart j id other
  have begins : SessionStep flatHandle ⟨heapStore 0, ∅⟩ begunSession :=
    ⟨.txBegin, _, rfl, by decide +kernel, trivial, by decide +kernel⟩
  have puts : SessionStep flatHandle begunSession putSession := by
    refine ⟨.tput 1 (onePair 0), _, rfl, by decide +kernel, ⟨fun _ => by decide +kernel, fun _ =>
      ⟨by decide, by decide +kernel, alone _, fun _ old found => ?_⟩⟩, rfl⟩
    exact absurd rfl (backendGet_ok.mp found).1
  have commits : SessionStep flatHandle putSession commitedSession :=
    ⟨.txCommit 1, _, rfl, by decide +kernel, trivial, rfl⟩
  exact ((Relation.ReflTransGen.single begins).tail puts).tail commits

theorem reopened_exact_sample :
    ∃ t s', pmbTxExecute flatHandle commitedSession.store 1 = some (t, .ok) ∧
      Reopens flatHandle (fun _ _ => ⟨0, 0, 0⟩) t s' ∧ Listed s'.objsList 1 := by
  have executed : (pmbTxExecute flatHandle commitedSession.store 1).map (fun done =>
      (done.2, flch64 done.1.pool.mem 139638110957568 != 0)) = some (.ok, true) := by decide +kernel
  obtain ⟨⟨t, status⟩, done, values⟩ := Option.map_eq_some_iff.mp executed
  simp only [Prod.mk.injEq, bne_iff_ne] at values
  obtain ⟨rfl, live⟩ := values
  have log : slotLog commitedSession.store.pool.mem (flatHandle.slotAddr 0) =
      [(flatHandle.slotAddr 0 + 24, ⟨0, 1, 0⟩)] := by decide +kernel
  have none_updated : updatedIds commitedSession.store.pool.mem (flatHandle.slotAddr 0) = ∅ := by
    rw [updatedIds, log]
    rfl
  have ends : SessionStep flatHandle commitedSession ⟨t, ∅⟩ := by
    refine ⟨.txExecute 1, ⟨.ok, 1, 0⟩, by simp only [runCall, done, Option.map_some], rfl, ?_, rfl⟩
    refine ⟨fun r member => ?_, fun id member => ?_, fun r member in_place => ?_, ?_⟩
    · rw [log, List.mem_singleton] at member
      subst member
      decide
    · rw [none_updated] at member
      exact absurd member (Finset.notMem_empty _)
    · rw [log, List.mem_singleton] at member
      subst member
      exact absurd in_place (by decide)
    · rw [none_updated]
      exact Nat.zero_le _
  obtain ⟨⟨s', reopens⟩, exact⟩ := reopened_exact flatHandle_layout.rooms heapStore_settled
    (commitedSession_run.tail ends) rfl (fun _ _ => ⟨0, 0, 0⟩)
  have direct : backendDirect flatHandle.backend 1 = some 139638110957568 := by decide +kernel
  have found : backendGet flatHandle t.pool.mem 1 = .ok 139638110957568 :=
    backendGet_ok.mpr ⟨by decide, direct, live⟩
  have same := (exact s' reopens).1
  refine ⟨t, s', done, reopens, (same.objs 1).mpr ⟨by decide, ?_⟩⟩
  rw [same.gets, pmbGet, found]
  exact ⟨_, rfl⟩

def metaHandle : Handle := { sampleHandle with checksum := nonzeroFletcher64 }

def metaStore : Store := openEmpty metaHandle { zeroStore with txSlotsList := some ⟨1, 1, 1, []⟩ }

-- a new pool has its data blocks among the free meta blocks. The first `pmb_tput_meta` takes block 1 and checks it as
-- a meta block: `pmb_get` finds the object, and after a reopening its block is free
theorem meta_object_free :
    (∀ bytes, metaHandle.checksum bytes ≠ 0) ∧
      txLogInit metaHandle zeroStore (fun _ _ => ⟨0, 0, 0⟩) =
        some { zeroStore with txSlotsList := some ⟨1, 1, 1, []⟩ } ∧
      ∃ t rets, runCalls metaHandle metaStore [.txBegin, .tputMeta 1 (onePair 0), .txCommit 1, .txExecute 1] =
          some (t, rets) ∧ (∀ ret ∈ rets, ret.status = .ok) ∧
        ∀ heap, (∃ s', Reopens metaHandle heap t s') ∧ ∀ s', Reopens metaHandle heap t s' →
          (∃ object, pmbGet metaHandle s'.pool.mem 1 = .ok object) ∧ Listed s'.freeList 1 ∧
            ¬ReopensExact metaHandle t s' := by
  have layout : metaHandle.LogLayout := Backend.Mapped.logLayout samplePool_noWrap samplePool_mapped rfl
    (by decide) (by decide) (by decide +kernel) (by decide +kernel) (by decide)
  have ids : metaHandle.Ids := ⟨by decide, by decide⟩
  have loop : slotIdsLoop metaHandle (2 ^ 8) 1 (caslistNew 1 metaHandle.txSlotsCount) =
      some (some ⟨1, 1, 1, []⟩) := by decide +kernel
  refine ⟨flatHandle_nonzero, by simp only [txLogInit, loop, Option.map_some]; rfl, ?_⟩
  have ran : (runCalls metaHandle metaStore [.txBegin, .tputMeta 1 (onePair 0), .txCommit 1, .txExecute 1]).map
      (fun done => (metaHandle.status done.1 0, flch64 done.1.pool.mem 139638110957568 != 0,
        recoveryList metaHandle done.1.pool.mem 1, done.2.map Return.status)) =
      some (0, true, .free, [.ok, .ok, .ok, .ok]) := by decide +kernel
  obtain ⟨⟨t, rets⟩, run, values⟩ := Option.map_eq_some_iff.mp ran
  simp only [Prod.mk.injEq, bne_iff_ne] at values
  obtain ⟨empty, live, kind, statuses⟩ := values
  refine ⟨t, rets, run, fun ret member => ?_, fun heap => ?_⟩
  · have status := List.mem_map_of_mem (f := Return.status) member
    rw [statuses] at status
    simpa using status
  · have direct : backendDirect metaHandle.backend 1 = some 139638110957568 := by decide +kernel
    have found : backendGet metaHandle t.pool.mem 1 = .ok 139638110957568 :=
      backendGet_ok.mpr ⟨by decide, direct, live⟩
    have all_empty : ∀ i < metaHandle.txSlotsCount, metaHandle.status t i = TxStatus.empty.code := by
      intro i known
      have first : i = 0 := by
        have one : metaHandle.txSlotsCount = 1 := rfl
        omega
      rw [first]
      exact empty
    obtain ⟨opens, reopened⟩ := reopens_spec layout ids heap all_empty
    refine ⟨opens, fun s' again => ?_⟩
    obtain ⟨bytes, -, -, listed⟩ := reopened s' again
    have object : ∃ object, pmbGet metaHandle s'.pool.mem 1 = .ok object := by
      rw [bytes, pmbGet, found]
      exact ⟨_, rfl⟩
    refine ⟨object, (listed .free 1).mpr ⟨by decide, by decide, kind.symm⟩, fun exact => ?_⟩
    have sorted := (listed .objs 1).mp ((exact.objs 1).mpr ⟨by decide, object⟩)
    rw [kind] at sorted
    exact absurd sorted.2.2 (by decide)

end PmBackend
