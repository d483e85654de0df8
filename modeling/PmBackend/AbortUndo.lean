import PmBackend.FailedPuts
import PmBackend.SealedCalls

set_option autoImplicit false

namespace PmBackend

open ByteMemory

-- the calls that a transaction on a slot is made of
def Call.On (txSlot : Nat) : Call → Prop
  | .tput slot _ => slot = txSlot
  | .tputMeta slot _ => slot = txSlot
  | .tdel slot _ => slot = txSlot
  | _ => False

-- the blocks that a successful call has taken from the free lists
def allocatedBy (h : Handle) (call : Call) (ret : Return) : Finset Nat :=
  match call with
  | .tput _ kv => if kv.blkId ≠ 0 ∧ kv.valLen < h.maxValLen / 2 then ∅ else {ret.blkId}
  | .tputMeta _ _ => {ret.blkId}
  | _ => ∅

structure OpenTx where
  store : Store
  allocated : Finset Nat

def OpenCall (h : Handle) (txSlot : Nat) (call : Call) (tx tx' : OpenTx) : Prop :=
  ∃ ret, call.On txSlot ∧ runCall h tx.store call = some (tx'.store, ret) ∧ ret.status = .ok ∧
    BlockSafe h tx.store call ∧ tx'.allocated = tx.allocated ∪ allocatedBy h call ret

def OpenStep (h : Handle) (txSlot : Nat) (tx tx' : OpenTx) : Prop := ∃ call, OpenCall h txSlot call tx tx'

-- the observable state is the one of `s` again; slot `i` and the blocks of `allocated` may differ
structure Undone (h : Handle) (s s' : Store) (i : Nat) (allocated : Finset Nat) : Prop where
  free : ∀ id, Listed s'.freeList id ↔ Listed s.freeList id
  metaFree : ∀ id, Listed s'.metaFreeList id ↔ Listed s.metaFreeList id
  txSlots : ∀ id, Listed s'.txSlotsList id ↔ Listed s.txSlotsList id
  gets : ∀ id, pmbGet h s'.pool.mem id = pmbGet h s.pool.mem id
  gone : ∀ id ∈ allocated, pmbGet h s'.pool.mem id = .error .enoent
  blocks : ∀ id, id ∉ allocated → Untouched h id s.pool.mem s'.pool.mem
  slots : ∀ j < h.txSlotsCount, j ≠ i → ∀ x ∈ h.slotArea j, s'.pool.mem x = s.pool.mem x

-- the blocks of the WRITE and UPDATE records that `tx_slot_abort` meets, 24 bytes at a time
def abortedIds (m : Mem) (slot : Nat) : List Nat := (slotStrides m slot).filterMap fun r => abortedBlock r.2

-- the records name every block the transaction has allocated, and else only blocks whose header is zero
structure AbortExact (h : Handle) (s : Store) (i : Nat) (allocated : Finset Nat) : Prop where
  found : ∀ id ∈ allocated, id ∈ abortedIds s.pool.mem (h.slotAddr i)
  only : ∀ id ∈ abortedIds s.pool.mem (h.slotAddr i), id ∈ allocated ∨
    (id < h.totalObjsCount + h.metaObjsCount ∧
      ∀ obj, backendDirect h.backend id = some obj → ∀ x ∈ span obj sizeofDataHdr, s.pool.mem x = 0)

-- a free list of the dead blocks of its region, less those taken since
def FreeBut (h : Handle) (m : Mem) (list : Option Caslist) (low high : Nat) (taken : Finset Nat) : Prop :=
  ∃ ids, ListOf list ids ∧ ∀ id, id ∈ ids ↔ ((low ≤ id ∧ id < high) ∧ ¬h.Live m id) ∧ id ∉ taken

def Handle.blocksAt (h : Handle) (ids : Finset Nat) : Set Nat := {x | ∃ id ∈ ids, x ∈ h.blockAt id}

section Taking

variable {h : Handle} {m m' : Mem} {list : Option Caslist} {low high : Nat} {taken : Finset Nat}

theorem FreeBut.pop (lists : FreeBut h m list low high taken) (small : high < 2 ^ 64)
    (popped : (caslistPop list 0).ret = 0) :
    (low ≤ (caslistPop list 0).val ∧ (caslistPop list 0).val < high) ∧ ¬h.Live m (caslistPop list 0).val ∧
      (caslistPop list 0).val ∉ taken ∧
      FreeBut h m (caslistPop list 0).list low high (insert (caslistPop list 0).val taken) := by
  obtain ⟨ids, represents, iff⟩ := lists
  by_cases empty : ids = ∅
  · subst empty
    rw [represents.pop_empty 0] at popped
    cases popped
  · have below : ∀ id ∈ ids, id + 1 < 2 ^ 64 := by
      intro id inside
      have range := ((iff id).mp inside).1.1
      omega
    obtain ⟨least, member, -, -, val, rest⟩ := represents.pop (Finset.nonempty_iff_ne_empty.mpr empty) below 0
    rw [val]
    obtain ⟨⟨range, dead⟩, new⟩ := (iff least).mp member
    refine ⟨range, dead, new, _, rest, fun id => ?_⟩
    rw [Finset.mem_erase, iff, Finset.mem_insert]
    tauto

theorem FreeBut.other (lists : FreeBut h m list low high taken) {id : Nat} (outside : id < low ∨ high ≤ id) :
    FreeBut h m list low high (insert id taken) := by
  obtain ⟨ids, represents, iff⟩ := lists
  refine ⟨ids, represents, fun x => ?_⟩
  rw [iff, Finset.mem_insert]
  constructor
  · rintro ⟨⟨range, dead⟩, new⟩
    refine ⟨⟨range, dead⟩, ?_⟩
    rintro (rfl | again)
    · omega
    · exact new again
  · rintro ⟨free, new⟩
    exact ⟨free, fun again => new (Or.inr again)⟩

theorem Handle.blocksAt_mono {ids ids' : Finset Nat} (more : ids ⊆ ids') : h.blocksAt ids ⊆ h.blocksAt ids' := by
  rintro x ⟨id, member, inside⟩
  exact ⟨id, more member, inside⟩

theorem Handle.BlockLayout.others_untouched (layout : h.BlockLayout) {i : Nat} (known : i < h.txSlotsCount)
    {ids : Finset Nat} (changed : ChangedIn (h.slotArea i ∪ h.blocksAt ids) m m') :
    (∀ id, id ∉ ids → Untouched h id m m') ∧
      ∀ j < h.txSlotsCount, j ≠ i → ∀ x ∈ h.slotArea j, m' x = m x := by
  refine ⟨fun id outside x inside => changed x ?_, fun j bound other x inside => changed x ?_⟩
  · rintro (slot | ⟨id', member, inside'⟩)
    · have log := slotArea_log known slot
      obtain ⟨obj, direct, within⟩ := inside
      have above := layout.blocks_above id obj direct
      simp only [mem_span] at within
      simp only [Handle.logArea, Set.mem_ofPred_eq] at log
      omega
    · have different : id ≠ id' := fun same => outside (same ▸ member)
      obtain ⟨obj, direct, within⟩ := inside
      obtain ⟨obj', direct', within'⟩ := inside'
      exact Set.disjoint_left.mp (layout.blocks_apart id id' different obj obj' direct direct') within within'
  · simp only [Handle.slotArea, mem_span] at inside
    rintro (slot | ⟨id', -, obj', direct', within'⟩)
    · simp only [Handle.slotArea, mem_span] at slot
      rcases lt_or_gt_of_ne other with less | greater
      · have := Handle.slot_step (h := h) less
        omega
      · have := Handle.slot_step (h := h) greater
        omega
    · have above := layout.blocks_above id' obj' direct'
      have below := Handle.slot_below bound
      simp only [mem_span] at within'
      omega

end Taking

structure OpenInv (h : Handle) (s : Store) (i : Nat) (tx : OpenTx) : Prop where
  data : FreeBut h s.pool.mem tx.store.freeList 1 h.totalObjsCount tx.allocated
  metadata : FreeBut h s.pool.mem tx.store.metaFreeList h.totalObjsCount
    (h.totalObjsCount + h.metaObjsCount) tx.allocated
  slots : tx.store.txSlotsList = (caslistPop s.txSlotsList 0).list
  fresh : ∀ id ∈ tx.allocated, (id ≠ 0 ∧ id < h.totalObjsCount + h.metaObjsCount) ∧ ¬h.Live s.pool.mem id
  changed : ChangedIn (h.slotArea i ∪ h.blocksAt tx.allocated) s.pool.mem tx.store.pool.mem
  sane : ∀ id ∈ tx.allocated, h.Sane tx.store.pool.mem id

section Opens

variable {h : Handle} {s t : Store} {tx : OpenTx} {i : Nat}

theorem Handle.Contained.sane {m : Mem} {id obj : Nat} (direct : backendDirect h.backend id = some obj)
    (contained : h.Contained m id obj) : h.Sane m id := by
  intro obj' direct'
  rw [direct] at direct'
  cases direct'
  exact contained.zeroed

theorem OpenInv.logged (layout : h.BlockLayout) (known : i < h.txSlotsCount) (inv : OpenInv h s i tx)
    (only : SlotOnly h i tx.store t) (same : t = { tx.store with pool := t.pool }) :
    OpenInv h s i ⟨t, tx.allocated⟩ := by
  have log := only.mono (slotArea_log known)
  refine ⟨?_, ?_, ?_, inv.fresh, inv.changed.trans (only.mono Set.subset_union_left), fun id member => ?_⟩
  · rw [same]
    exact inv.data
  · rw [same]
    exact inv.metadata
  · rw [same]
    exact inv.slots
  · exact ((ChangedIn.log_untouched layout log id).sane layout).mpr (inv.sane id member)

theorem OpenInv.filled (layout : h.BlockLayout) (inv : OpenInv h s i tx) {id obj : Nat}
    (positive : id ≠ 0) (direct : backendDirect h.backend id = some obj) (dead : ¬h.Live s.pool.mem id)
    (data : FreeBut h s.pool.mem t.freeList 1 h.totalObjsCount (insert id tx.allocated))
    (metadata : FreeBut h s.pool.mem t.metaFreeList h.totalObjsCount (h.totalObjsCount + h.metaObjsCount)
      (insert id tx.allocated))
    (slots : t.txSlotsList = tx.store.txSlotsList)
    (changed : ChangedIn (h.blockAt id) tx.store.pool.mem t.pool.mem)
    (contained : h.Contained t.pool.mem id obj) : OpenInv h s i ⟨t, tx.allocated ∪ {id}⟩ := by
  rw [Finset.union_singleton]
  have one : h.blockAt id ⊆ h.blocksAt (insert id tx.allocated) := by
    intro x inside
    exact ⟨id, Finset.mem_insert_self _ _, inside⟩
  have before := inv.changed.mono (Set.union_subset_union_right (h.slotArea i)
    (Handle.blocksAt_mono (h := h) (Finset.subset_insert id tx.allocated)))
  refine ⟨data, metadata, slots.trans inv.slots, fun other member => ?_,
    before.trans (changed.mono (one.trans Set.subset_union_right)), fun other member => ?_⟩
  · rcases Finset.mem_insert.mp member with rfl | old
    · exact ⟨⟨positive, backendDirect_lt layout direct⟩, dead⟩
    · exact inv.fresh other old
  · by_cases same : other = id
    · subst same
      exact contained.sane direct
    · have old := (Finset.mem_insert.mp member).resolve_left same
      have untouched := ChangedIn.untouched layout (changed.mono Set.subset_union_left) same
      exact (untouched.sane layout).mpr (inv.sane other old)

theorem logNewBlock_slotOnly (layout : h.LogLayout) (known : i < h.txSlotsCount) {oldBlkId newBlkId : Nat}
    (fits : EntryFits h s (i + 1) sizeofTxEntry) (done : logNewBlock h s (i + 1) oldBlkId newBlkId = (t, .ok)) :
    SlotOnly h i s t ∧ t = { s with pool := t.pool } := by
  obtain ⟨fill, fills, append⟩ := logNewBlock_append h s (i + 1) oldBlkId newBlkId
  rw [append] at done
  obtain ⟨processing, same⟩ := txSlotAppend_ok layout known done
  exact ⟨txSlotAppend_only layout known fills (fits processing) done, same⟩

theorem OpenInv.append (layout : h.BlockLayout) (known : i < h.txSlotsCount) (inv : OpenInv h s i tx)
    {fill : Pool → Nat → Pool} {len : Nat} (fills : FillsEntry fill len) (fits : EntryFits h tx.store (i + 1) len)
    (done : txSlotAppend h tx.store (i + 1) fill len = (t, .ok)) : OpenInv h s i ⟨t, tx.allocated⟩ := by
  obtain ⟨processing, same⟩ := txSlotAppend_ok layout.toLogLayout known done
  exact inv.logged layout known (txSlotAppend_only layout.toLogLayout known fills (fits processing) done) same

theorem OpenInv.tput (layout : h.BlockLayout) (known : i < h.txSlotsCount) (inv : OpenInv h s i tx)
    {kv kv' : PmbPair} (safe : BlockSafe h tx.store (.tput (i + 1) kv))
    (done : pmbTput h tx.store (i + 1) kv = (t, .ok, kv')) :
    OpenInv h s i ⟨t, tx.allocated ∪ allocatedBy h (.tput (i + 1) kv) ⟨.ok, i + 1, kv'.blkId⟩⟩ := by
  obtain ⟨entry, exact⟩ := safe
  obtain ⟨args, ⟨small, append, -⟩ | ⟨large, old, found, new⟩⟩ := pmbTput_ok done
  · unfold SmallUpdate at small
    rw [tputEntryLen, if_pos small] at entry
    simp only [allocatedBy, if_pos small, Finset.union_empty]
    exact inv.append layout known (fillsEntry_smallUpdate h kv.blkId kv.valBytes kv.offset) entry append
  · obtain ⟨no_wrap, short⟩ := exact large
    have rooms := layout.rooms
    unfold SmallUpdate at large
    rw [tputEntryLen, if_neg large] at entry
    have value := args.value_fits
    rw [u32_of_lt no_wrap] at value
    obtain ⟨ret, obj, logged, direct, log, rfl, rfl⟩ := tputNewBlock_ok new
    simp only [allocatedBy, if_neg large]
    obtain ⟨range, dead, -, rest⟩ := inv.data.pop (by have := layout.fit; omega) ret
    generalize (caslistPop tx.store.freeList 0).val = id at *
    obtain ⟨only, same⟩ := logNewBlock_slotOnly layout.toLogLayout known
      (show EntryFits h { tx.store with freeList := (caslistPop tx.store.freeList 0).list } (i + 1) sizeofTxEntry
        from entry) log
    have alone : h.Alone id := fun j other => layout.blocks_apart j id other
    have kept : ∀ oldObj, backendGet h tx.store.pool.mem kv.blkId = .ok oldObj →
        kv.offset + kv.valLen < valLen tx.store.pool.mem oldObj →
        32 + h.maxKeyLen + valLen tx.store.pool.mem oldObj ≤ h.backend.bsize := by
      intro oldObj get _
      obtain ⟨positive, oldDirect, -⟩ := backendGet_ok.mp get
      have length := short oldObj positive oldDirect
      have room := layout.data_room
      omega
    have stays := found.stays layout.toLogLayout direct range.2 alone rooms.room
      (only.mono (slotArea_log known)) kept
    obtain ⟨block, contained, -⟩ := tputBlock_sealed rooms range.2 alone direct args.key_fits args.no_offset value
      old (fun _ => stays)
    have after := inv.logged layout known (t := { logged with freeList := tx.store.freeList }) only (by rw [same])
    have free : logged.freeList = (caslistPop tx.store.freeList 0).list := by rw [same]
    have lists : logged.metaFreeList = tx.store.metaFreeList := by rw [same]
    refine after.filled layout (by omega) direct dead ?_ ?_ rfl block contained
    · simp only [free]
      exact rest
    · simp only [lists]
      exact inv.metadata.other (Or.inl range.2)

theorem OpenInv.tputMeta (layout : h.BlockLayout) (known : i < h.txSlotsCount) (inv : OpenInv h s i tx)
    {kv kv' : PmbPair} (safe : BlockSafe h tx.store (.tputMeta (i + 1) kv))
    (done : pmbTputMeta h tx.store (i + 1) kv = (t, .ok, kv')) :
    OpenInv h s i ⟨t, tx.allocated ∪ {kv'.blkId}⟩ := by
  obtain ⟨entry, no_wrap⟩ := safe
  obtain ⟨args, old, found, new⟩ := pmbTputMeta_ok done
  have rooms := layout.rooms
  have room := layout.meta_room
  have small := layout.metaBsize_small
  have fits := args.fits
  rw [u32_of_lt no_wrap, u32_of_lt (by omega)] at fits
  obtain ⟨ret, obj, logged, direct, log, rfl, rfl⟩ := tputMetaNewBlock_ok new
  obtain ⟨range, dead, -, rest⟩ := inv.metadata.pop (by have := layout.fit; omega) ret
  simp only
  generalize (caslistPop tx.store.metaFreeList 0).val = id at *
  obtain ⟨only, same⟩ := logNewBlock_slotOnly layout.toLogLayout known
    (show EntryFits h { tx.store with metaFreeList := (caslistPop tx.store.metaFreeList 0).list } (i + 1)
      sizeofTxEntry from entry) log
  have alone : h.Alone id := fun j other => layout.blocks_apart j id other
  obtain ⟨block, contained, -⟩ := tputMetaBlock_sealed rooms range.1 alone direct fits old
  have after := inv.logged layout known (t := { logged with metaFreeList := tx.store.metaFreeList }) only (by rw [same])
  have free : logged.freeList = tx.store.freeList := by rw [same]
  have lists : logged.metaFreeList = (caslistPop tx.store.metaFreeList 0).list := by rw [same]
  refine after.filled layout (by have := layout.null_block; omega) direct dead ?_ ?_ rfl block contained
  · simp only [free]
    exact inv.data.other (Or.inr range.1)
  · simp only [lists]
    exact rest

theorem OpenInv.step (layout : h.BlockLayout) (known : i < h.txSlotsCount) (inv : OpenInv h s i tx) {tx' : OpenTx}
    (step : OpenStep h (i + 1) tx tx') : OpenInv h s i tx' := by
  obtain ⟨call, ret, on, run, success, safe, allocated⟩ := step
  obtain ⟨t, _⟩ := tx'
  simp only at allocated run
  subst allocated
  cases call with
  | tput txSlot kv =>
    have here : txSlot = i + 1 := on
    subst here
    simp only [runCall, Option.some.injEq, Prod.mk.injEq] at run
    obtain ⟨rfl, rfl⟩ := run
    exact inv.tput layout known safe (Prod.ext rfl (Prod.ext success rfl))
  | tputMeta txSlot kv =>
    have here : txSlot = i + 1 := on
    subst here
    simp only [runCall, Option.some.injEq, Prod.mk.injEq] at run
    obtain ⟨rfl, rfl⟩ := run
    exact inv.tputMeta layout known safe (Prod.ext rfl (Prod.ext success rfl))
  | tdel txSlot blkId =>
    have here : txSlot = i + 1 := on
    subst here
    simp only [runCall, Option.some.injEq, Prod.mk.injEq] at run
    obtain ⟨rfl, rfl⟩ := run
    obtain ⟨-, -, append⟩ := pmbTdel_ok (Prod.ext rfl success)
    simp only [allocatedBy, Finset.union_empty]
    exact inv.append layout known (fillsEntry_remove blkId) safe append
  | _ => cases on

end Opens

-- what `tx_slot_abort` does to one block
def zeroRelease (h : Handle) (s : Store) (id : Nat) : Store := (s.setZero (backendDirect h.backend id)).release h id

section Aborts

variable {h : Handle} {s t : Store} {i : Nat} {allocated : Finset Nat}

theorem abortLog_ids (layout : h.LogLayout) (slot : Nat) (s : Store)
    (inside : ∀ r ∈ slotStrides s.pool.mem slot, r.1 + 24 ≤ h.logEnd) :
    abortLog h s slot = (abortedIds s.pool.mem slot).foldl (zeroRelease h) s := by
  rw [abortLog_eq layout slot s inside, abortedIds, List.foldl_filterMap]
  congr 1
  funext t r
  rw [abortEntry_eq]
  cases abortedBlock r.2 <;> rfl

theorem abortedIds_lt {m : Mem} {slot id : Nat} (member : id ∈ abortedIds m slot) : id < 2 ^ 64 := by
  obtain ⟨⟨pos, entry⟩, listed, names⟩ := List.mem_filterMap.mp member
  have read : ∃ pos, entry = readEntry m pos := by
    unfold slotStrides at listed
    generalize u64 (slot + slotSize m slot) - (slot + sizeofTxSlot) = fuel at listed
    generalize slot + sizeofTxSlot = start at listed
    induction fuel generalizing start with
    | zero => cases listed
    | succ fuel ih =>
      unfold strideWalk at listed
      split at listed
      · rcases List.mem_cons.mp listed with here | later
        · exact ⟨start, congrArg Prod.snd here⟩
        · exact ih _ later
      · cases listed
  obtain ⟨start, rfl⟩ := read
  unfold abortedBlock at names
  split at names
  · rw [← Option.some.inj names]
    exact word_lt m (start + 16) 8
  · split at names
    · rw [← Option.some.inj names]
      exact word_lt m (start + 8) 8
    · cases names

theorem zeroRelease_pool (h : Handle) (s : Store) (id : Nat) :
    (zeroRelease h s id).pool = (s.setZero (backendDirect h.backend id)).pool := (release_frame h _ id).1

theorem zeroRelease_lists (null_block : 1 ≤ h.totalObjsCount) (ids : List Nat) (small : ∀ id ∈ ids, id < 2 ^ 64)
    {free metaFree : Finset Nat} (data : ListOf s.freeList free) (metadata : ListOf s.metaFreeList metaFree) :
    ∃ free' metaFree', ListOf (ids.foldl (zeroRelease h) s).freeList free' ∧
      ListOf (ids.foldl (zeroRelease h) s).metaFreeList metaFree' ∧
      (∀ x, x ∈ free' ↔ x ∈ free ∨ (x ∈ ids ∧ x ≠ 0 ∧ x < h.totalObjsCount)) ∧
      ∀ x, x ∈ metaFree' ↔ x ∈ metaFree ∨ (x ∈ ids ∧ h.totalObjsCount ≤ x) := by
  -- every named id joins the free list of its region, block 0 none
  induction ids generalizing s free metaFree with
  | nil => exact ⟨free, metaFree, data, metadata, by simp, by simp⟩
  | cons id rest ih =>
    have below := small id List.mem_cons_self
    have pushed : ListOf (zeroRelease h s id).freeList
          (if id ≠ 0 ∧ id < h.totalObjsCount then insert id free else free) ∧
        ListOf (zeroRelease h s id).metaFreeList
          (if h.totalObjsCount ≤ id then insert id metaFree else metaFree) := by
      have zeroed : (s.setZero (backendDirect h.backend id)).freeList = s.freeList ∧
          (s.setZero (backendDirect h.backend id)).metaFreeList = s.metaFreeList := ⟨rfl, rfl⟩
      unfold zeroRelease Store.release
      by_cases region : id < h.totalObjsCount
      · rw [if_pos region, if_neg (show ¬h.totalObjsCount ≤ id by omega)]
        refine ⟨?_, metadata⟩
        have push := data.push below
        by_cases zero : id = 0
        · rw [if_pos zero] at push
          rw [if_neg fun both => both.1 zero]
          exact push
        · rw [if_neg zero] at push
          rw [if_pos ⟨zero, region⟩]
          exact push
      · rw [if_neg region, if_pos (show h.totalObjsCount ≤ id by omega), if_neg fun both => region both.2]
        exact ⟨data, metadata.push_pos (by omega) below⟩
    obtain ⟨free', metaFree', data', metadata', iff, metaIff⟩ :=
      ih (fun x later => small x (List.mem_cons_of_mem id later)) pushed.1 pushed.2
    refine ⟨free', metaFree', data', metadata', fun x => ?_, fun x => ?_⟩
    · rw [iff]
      by_cases here : id ≠ 0 ∧ id < h.totalObjsCount
      · rw [if_pos here, Finset.mem_insert, List.mem_cons]
        by_cases same : x = id
        · subst same
          simp [here]
        · simp [same]
      · rw [if_neg here, List.mem_cons]
        by_cases same : x = id
        · subst same
          simp only [here, and_false, or_false]
        · simp [same]
    · rw [metaIff]
      by_cases here : h.totalObjsCount ≤ id
      · rw [if_pos here, Finset.mem_insert, List.mem_cons]
        by_cases same : x = id
        · subst same
          simp [here]
        · simp [same]
      · rw [if_neg here, List.mem_cons]
        by_cases same : x = id
        · subst same
          simp only [here, and_false, or_false]
        · simp [same]

theorem zeroRelease_stays (s : Store) (id : Nat) {x : Nat} (zero : s.pool.mem x = 0) :
    (zeroRelease h s id).pool.mem x = 0 := by
  rw [zeroRelease_pool]
  unfold Store.setZero backendSetZero
  split
  · exact zero
  · next obj direct =>
    rw [Pool.memset_mem]
    by_cases inside : obj ≤ x ∧ x < obj + (sizeofDataHdr + keyLen s.pool.mem obj + valLen s.pool.mem obj)
    · obtain ⟨k, rfl⟩ := Nat.exists_eq_add_of_le inside.1
      have bound : k < (List.replicate (sizeofDataHdr + keyLen s.pool.mem obj + valLen s.pool.mem obj)
          (0 : UInt8)).length := by
        rw [List.length_replicate]
        omega
      rw [write_inside _ _ _ k bound, List.getElem_replicate]
    · rw [write_outside _ _ _ _ (by rw [List.length_replicate]; omega)]
      exact zero

theorem zeroRelease_headers (ids : List Nat) {id obj : Nat} (member : id ∈ ids)
    (direct : backendDirect h.backend id = some obj) :
    ∀ x ∈ span obj sizeofDataHdr, (ids.foldl (zeroRelease h) s).pool.mem x = 0 := by
  intro x inside
  have keeps : ∀ (rest : List Nat) (t : Store), t.pool.mem x = 0 →
      (rest.foldl (zeroRelease h) t).pool.mem x = 0 := by
    intro rest t zero
    exact List.foldlRecOn (motive := fun t : Store => t.pool.mem x = 0) rest (zeroRelease h) zero
      fun t before id _ => zeroRelease_stays t id before
  induction ids generalizing s with
  | nil => cases member
  | cons first rest ih =>
    rcases List.mem_cons.mp member with rfl | later
    · refine keeps rest _ ?_
      obtain ⟨k, rfl⟩ := Nat.exists_eq_add_of_le inside.1
      rw [zeroRelease_pool, direct]
      simp only [Store.setZero, backendSetZero, Pool.memset_mem]
      rw [mem_span] at inside
      rw [write_inside _ _ _ k (by rw [List.length_replicate]; omega), List.getElem_replicate]
    · exact ih later

theorem zeroRelease_inside (layout : h.BlockLayout) (ids : List Nat) (sane : ∀ id ∈ allocated, h.Sane s.pool.mem id)
    (only : ∀ id ∈ ids, id ∈ allocated ∨ (id < h.totalObjsCount + h.metaObjsCount ∧
      ∀ obj, backendDirect h.backend id = some obj → ∀ x ∈ span obj sizeofDataHdr, s.pool.mem x = 0)) :
    ChangedIn (h.blocksAt allocated) s.pool.mem (ids.foldl (zeroRelease h) s).pool.mem := by
  -- zeroing a zero header changes nothing, and a new block is zeroed within its bounds
  have hdr : sizeofDataHdr = 32 := rfl
  suffices both : ChangedIn (h.blocksAt allocated) s.pool.mem (ids.foldl (zeroRelease h) s).pool.mem ∧
      ∀ id ∈ allocated, h.Sane (ids.foldl (zeroRelease h) s).pool.mem id from both.1
  refine List.foldlRecOn (motive := fun t : Store => ChangedIn (h.blocksAt allocated) s.pool.mem t.pool.mem ∧
    ∀ id ∈ allocated, h.Sane t.pool.mem id) ids (zeroRelease h) ⟨ChangedIn.refl _ _, sane⟩ ?_
  rintro t ⟨changed, within⟩ id member
  rw [zeroRelease_pool]
  cases direct : backendDirect h.backend id with
  | none => exact ⟨changed, within⟩
  | some obj =>
    by_cases new : id ∈ allocated
    · obtain ⟨zeroed, -, still⟩ := setZero_spec t (layout.room _) direct (within id new)
      refine ⟨changed.trans (zeroed.mono fun x inside => ⟨id, new, inside⟩), fun other member' => ?_⟩
      by_cases same : other = id
      · rw [same]
        exact still
      · have untouched := ChangedIn.untouched layout (zeroed.mono Set.subset_union_left) same
        exact (untouched.sane layout).mpr (within other member')
    · have header : ∀ x ∈ span obj sizeofDataHdr, t.pool.mem x = 0 := by
        intro x inside
        have room := layout.room id
        have zero := ((only id member).resolve_left new).2 obj direct x inside
        rw [mem_span] at inside
        rw [changed x ?_]
        · exact zero
        · rintro ⟨other, member', obj', direct', inside'⟩
          have different : id ≠ other := fun same => new (same ▸ member')
          refine Set.disjoint_left.mp (layout.blocks_apart id other different obj obj' direct direct') ?_ inside'
          rw [mem_span]
          omega
      have lengths : keyLen t.pool.mem obj = 0 ∧ valLen t.pool.mem obj = 0 :=
        ⟨word_of_zeros _ _ _ fun x lower upper => header x ⟨by omega, by omega⟩,
          word_of_zeros _ _ _ fun x lower upper => header x ⟨by omega, by omega⟩⟩
      have same : (t.setZero (some obj)).pool.mem = t.pool.mem := by
        funext x
        simp only [Store.setZero, backendSetZero, Pool.memset_mem, lengths]
        by_cases inside : x ∈ span obj sizeofDataHdr
        · obtain ⟨k, rfl⟩ := Nat.exists_eq_add_of_le inside.1
          have zero := header (obj + k) inside
          rw [mem_span] at inside
          rw [write_inside _ _ _ k (by rw [List.length_replicate]; omega), List.getElem_replicate, zero]
        · rw [mem_span] at inside
          exact write_outside _ _ _ _ (by rw [List.length_replicate]; omega)
      rw [same]
      exact ⟨changed, within⟩

theorem txSlotAbort_ok (layout : h.LogLayout) (known : i < h.txSlotsCount) (done : txSlotAbort h s (i + 1) = (t, .ok)) :
    t = slotReset h (abortLog h (slotAborted h s (h.slotAddr i) i) (h.slotAddr i)) (h.slotAddr i) i := by
  unfold txSlotAbort at done
  rw [layout.txDirect_eq (by omega) (by omega), layout.txIndex_eq (by omega) (by omega)] at done
  simp only [Nat.add_sub_cancel] at done
  split at done
  · cases done
  · cases done
    rfl

theorem pmbTxAbort_ok (layout : h.LogLayout) (known : i < h.txSlotsCount)
    (done : pmbTxAbort h s (i + 1) = (t, .ok)) :
    t = txLogFreeSlot (slotReset h (abortLog h (slotAborted h s (h.slotAddr i) i) (h.slotAddr i))
      (h.slotAddr i) i) (i + 1) := by
  have valid : ¬(i + 1 = 0 ∨ i + 1 > h.txSlotsCount) := by omega
  unfold pmbTxAbort at done
  rw [if_neg valid] at done
  simp only [Prod.mk.injEq] at done
  obtain ⟨rfl, status⟩ := done
  exact congrArg (txLogFreeSlot · (i + 1)) (txSlotAbort_ok layout known (Prod.ext rfl status))

theorem pmbTxBegin_ok (layout : h.LogLayout) {txSlot : Nat} (done : pmbTxBegin h s = (t, .ok, txSlot)) :
    (caslistPop s.txSlotsList 0).ret = 0 ∧ (caslistPop s.txSlotsList 0).val = txSlot ∧
      ∃ i < h.txSlotsCount, txSlot = i + 1 ∧ SlotOnly h i s t ∧ h.size t i = sizeofTxSlot ∧
        t = { s with pool := t.pool, txSlotsList := (caslistPop s.txSlotsList 0).list } := by
  unfold pmbTxBegin at done
  simp only at done
  split at done
  · cases done
  · next popped =>
    generalize (caslistPop s.txSlotsList 0).val = val at done ⊢
    simp only [Prod.mk.injEq] at done
    obtain ⟨rfl, status, rfl⟩ := done
    have valid : ¬(val = 0 ∨ val > h.txSlotsCount) := by
      intro invalid
      unfold txSlotInit at status
      rw [if_pos invalid] at status
      cases status
    obtain ⟨i, rfl⟩ : ∃ i, val = i + 1 := ⟨val - 1, by omega⟩
    have known : i < h.txSlotsCount := by omega
    obtain ⟨only, -, size⟩ :=
      txSlotInit_spec layout { s with txSlotsList := (caslistPop s.txSlotsList 0).list } known
    refine ⟨not_not.mp popped, rfl, i, known, rfl, only, size, ?_⟩
    rw [txSlotInit_eq layout _ known]

theorem pmbTxCommit_ok (layout : h.LogLayout) (known : i < h.txSlotsCount)
    (done : pmbTxCommit h s (i + 1) = (t, .ok)) : SlotOnly h i s t ∧
      ChangedIn (span (h.slotAddr i) 16) s.pool.mem t.pool.mem ∧ t = { s with pool := t.pool } := by
  have valid : ¬(i + 1 = 0 ∨ i + 1 > h.txSlotsCount) := by omega
  unfold pmbTxCommit at done
  rw [if_neg valid] at done
  by_cases processing : h.status s i = TxStatus.processing.code
  · have only := (txSlotCommit_spec layout s known processing).2.1
    rw [done] at only
    rw [txSlotCommit_eq layout s known, if_pos processing] at done
    cases done
    exact ⟨only, statusChecksum_header h s.pool (h.slotAddr i) i .commited, rfl⟩
  · rw [txSlotCommit_eq layout s known, if_neg processing] at done
    cases done

end Aborts

section Undoing

variable {h : Handle} {s commited s' : Store} {tx : OpenTx} {i : Nat}

theorem OpenInv.begun (wf : FreeOrLive h s) {t : Store} (only : SlotOnly h i s t)
    (same : t = { s with pool := t.pool, txSlotsList := (caslistPop s.txSlotsList 0).list }) :
    OpenInv h s i ⟨t, ∅⟩ := by
  have none_taken : ∀ list low high, FreeList h s.pool.mem list low high →
      FreeBut h s.pool.mem list low high ∅ := by
    rintro list low high ⟨ids, lists, iff⟩
    exact ⟨ids, lists, by simpa using iff⟩
  refine ⟨?_, ?_, ?_, by simp, only.mono Set.subset_union_left, by simp⟩
  · rw [same]
    exact none_taken _ _ _ wf.data
  · rw [same]
    exact none_taken _ _ _ wf.metadata
  · rw [same]

theorem OpenInv.run (layout : h.BlockLayout) (known : i < h.txSlotsCount) {start : OpenTx}
    (inv : OpenInv h s i start) (run : Relation.ReflTransGen (OpenStep h (i + 1)) start tx) : OpenInv h s i tx := by
  induction run with
  | refl => exact inv
  | tail _ step ih => exact ih.step layout known step

theorem not_live_of_header {m : Mem} {id : Nat}
    (zero : ∀ obj, backendDirect h.backend id = some obj → ∀ x ∈ span obj sizeofDataHdr, m x = 0) :
    ¬h.Live m id := by
  have hdr : sizeofDataHdr = 32 := rfl
  rintro ⟨obj, direct, live⟩
  exact live (word_of_zeros _ _ _ fun x lower upper => zero obj direct x ⟨lower, by omega⟩)

theorem pmbGet_dead {m : Mem} {id : Nat} (dead : ¬h.Live m id) : pmbGet h m id = .error .enoent := by
  unfold pmbGet
  cases found : backendGet h m id with
  | error _ => rfl
  | ok obj =>
    obtain ⟨-, direct, live⟩ := backendGet_ok.mp found
    exact absurd ⟨obj, direct, live⟩ dead

theorem Untouched.pmbGet (layout : h.BlockLayout) {m m' : Mem} {id : Nat} (same : Untouched h id m m')
    (contained : ∀ obj, backendGet h m id = .ok obj → h.Contained m id obj) :
    PmBackend.pmbGet h m' id = PmBackend.pmbGet h m id := by
  -- `pmb_get` reads no byte outside the block of an object that is contained
  have hdr : sizeofDataHdr = 32 := rfl
  by_cases live : h.Live m id
  · by_cases null : id = 0
    · unfold PmBackend.pmbGet backendGet
      simp only [null, if_true]
    · obtain ⟨obj, direct, flch⟩ := live
      have found := backendGet_ok.mpr ⟨null, direct, flch⟩
      obtain ⟨flch', name, _, key, val⟩ := same.header layout direct
      have found' : backendGet h m' id = .ok obj := backendGet_ok.mpr ⟨null, direct, by rwa [flch']⟩
      have whole := contained obj found
      have zeroed := whole.zeroed
      have reads : ∀ start len, obj ≤ start → start + len ≤ obj + h.backend.blockSize id →
          m'.read start len = m.read start len := by
        intro start len lower upper
        refine read_congr m m' start len fun x first last => same x ?_
        rw [blockAt_span direct, mem_span]
        omega
      have value : valueAddr h m' id obj = valueAddr h m id obj := by
        unfold valueAddr
        rw [key]
      have value_bytes : m'.read (valueAddr h m id obj) (valLen m obj) = m.read (valueAddr h m id obj) (valLen m obj) := by
        have fits := whole.fits
        unfold valueAddr
        by_cases data : id < h.totalObjsCount
        · rw [h.objectLen_data data] at fits
          rw [if_pos data]
          exact reads _ _ (by omega) (by omega)
        · rw [if_neg data]
          exact reads _ _ (by omega) (by omega)
      unfold PmBackend.pmbGet
      rw [found, found']
      simp only [name, key, val, value, value_bytes, reads (obj + sizeofDataHdr) (keyLen m obj) (by omega) (by omega)]
  · rw [pmbGet_dead live, pmbGet_dead fun live' => live ((same.live layout).mp live')]

-- the slots in the list are slots of the log
def SlotsListed (h : Handle) (s : Store) : Prop :=
  ∃ slots, ListOf s.txSlotsList slots ∧ ∀ id ∈ slots, id ≤ h.txSlotsCount

structure AbortedInv (h : Handle) (s commited s' : Store) (i : Nat) (allocated : Finset Nat) (ids : List Nat) :
    Prop where
  headers : ∀ id ∈ ids, ∀ obj, backendDirect h.backend id = some obj → ∀ x ∈ span obj sizeofDataHdr, s'.pool.mem x = 0
  free : ∀ x, Listed s'.freeList x ↔ (((1 ≤ x ∧ x < h.totalObjsCount) ∧ ¬h.Live s.pool.mem x) ∧ x ∉ allocated) ∨
    (x ∈ ids ∧ x ≠ 0 ∧ x < h.totalObjsCount)
  metaFree : ∀ x, Listed s'.metaFreeList x ↔ (((h.totalObjsCount ≤ x ∧ x < h.totalObjsCount + h.metaObjsCount) ∧
    ¬h.Live s.pool.mem x) ∧ x ∉ allocated) ∨ (x ∈ ids ∧ h.totalObjsCount ≤ x)
  slots : s'.txSlotsList = caslistPush (caslistPop s.txSlotsList 0).list (i + 1)
  changed : (∀ id ∈ ids, id ∈ allocated ∨ (id < h.totalObjsCount + h.metaObjsCount ∧
      ∀ obj, backendDirect h.backend id = some obj → ∀ x ∈ span obj sizeofDataHdr, commited.pool.mem x = 0)) →
    ChangedIn (h.slotArea i ∪ h.blocksAt allocated) s.pool.mem s'.pool.mem

theorem OpenInv.aborted (layout : h.BlockLayout) (known : i < h.txSlotsCount) {allocated : Finset Nat}
    (inv : OpenInv h s i ⟨commited, allocated⟩)
    (inside : ∀ r ∈ slotStrides commited.pool.mem (h.slotAddr i), r.1 + 24 ≤ h.logEnd)
    (aborts : pmbTxAbort h commited (i + 1) = (s', .ok)) :
    AbortedInv h s commited s' i allocated (abortedIds commited.pool.mem (h.slotAddr i)) := by
  have hdr : sizeofDataHdr = 32 := rfl
  rw [pmbTxAbort_ok layout.toLogLayout known aborts]
  have strides := slotStrides_congr (slotAborted_header h commited (h.slotAddr i) i)
  have named : abortedIds (slotAborted h commited (h.slotAddr i) i).pool.mem (h.slotAddr i) =
      abortedIds commited.pool.mem (h.slotAddr i) := by
    unfold abortedIds
    rw [strides]
  rw [abortLog_ids layout.toLogLayout _ _ (by rw [strides]; exact inside), named]
  have marked := slotAborted_changed layout.toLogLayout commited i i
  have small : ∀ id ∈ abortedIds commited.pool.mem (h.slotAddr i), id < 2 ^ 64 := fun id => abortedIds_lt
  generalize abortedIds commited.pool.mem (h.slotAddr i) = ids at small ⊢
  have same : slotAborted h commited (h.slotAddr i) i =
      { commited with pool := (slotAborted h commited (h.slotAddr i) i).pool } := rfl
  generalize slotAborted h commited (h.slotAddr i) i = marking at marked same ⊢
  have headers : ∀ id ∈ ids, ∀ obj, backendDirect h.backend id = some obj →
      ∀ x ∈ span obj sizeofDataHdr, (ids.foldl (zeroRelease h) marking).pool.mem x = 0 :=
    fun id member obj direct => zeroRelease_headers ids member direct
  obtain ⟨free, listed, members⟩ := inv.data
  obtain ⟨metaFree, metaListed, metaMembers⟩ := inv.metadata
  obtain ⟨free', metaFree', freed, metaFreed, iff, metaIff⟩ := zeroRelease_lists (s := marking) layout.null_block ids small
    (show ListOf marking.freeList free by rw [same]; exact listed)
    (show ListOf marking.metaFreeList metaFree by rw [same]; exact metaListed)
  have slots : (ids.foldl (zeroRelease h) marking).txSlotsList = commited.txSlotsList := by
    refine List.foldlRecOn (motive := fun t : Store => t.txSlotsList = commited.txSlotsList) ids (zeroRelease h)
      (by rw [same]) fun t before id _ => ?_
    rw [← before]
    exact (release_frame h _ id).2.2
  have frame := fun sane : ∀ id ∈ allocated, h.Sane marking.pool.mem id => zeroRelease_inside layout ids sane
  have reset := slotReset_changed layout.toLogLayout (ids.foldl (zeroRelease h) marking) i i
  have lists : ∀ t : Store, (slotReset h t (h.slotAddr i) i).freeList = t.freeList ∧
      (slotReset h t (h.slotAddr i) i).metaFreeList = t.metaFreeList ∧
      (slotReset h t (h.slotAddr i) i).txSlotsList = t.txSlotsList := fun t => ⟨rfl, rfl, rfl⟩
  generalize ids.foldl (zeroRelease h) marking = walked at *
  refine ⟨fun id member obj direct x within => ?_, fun x => ?_, fun x => ?_, ?_, fun only => ?_⟩
  · have above := layout.blocks_above id obj direct
    have below := Handle.slot_below known
    refine (reset x ?_).trans (headers id member obj direct x within)
    rw [mem_span] at within
    simp only [Handle.slotArea, mem_span]
    omega
  · simp only [txLogFreeSlot, (lists walked).1]
    rw [freed.listed, iff, members]
  · simp only [txLogFreeSlot, (lists walked).2.1]
    rw [metaFreed.listed, metaIff, metaMembers]
  · simp only [txLogFreeSlot, (lists walked).2.2]
    rw [slots, inv.slots]
  · have log := marked.mono (slotArea_log known)
    have blocks := fun id => ChangedIn.log_untouched layout log id
    have walk := frame (fun id member => ((blocks id).sane layout).mpr (inv.sane id member)) fun id member => by
      refine (only id member).imp_right fun ⟨bound, zero⟩ => ⟨bound, fun obj direct x within => ?_⟩
      have room := layout.room id
      rw [blocks id x ⟨obj, direct, by rw [mem_span] at within ⊢; omega⟩]
      exact zero obj direct x within
    exact ((inv.changed.trans (marked.mono Set.subset_union_left)).trans (walk.mono Set.subset_union_right)).trans
      (reset.mono Set.subset_union_left)

theorem FreeList.listed_iff {m : Mem} {list : Option Caslist} {low high : Nat} (lists : FreeList h m list low high)
    (x : Nat) : Listed list x ↔ (low ≤ x ∧ x < high) ∧ ¬h.Live m x := by
  obtain ⟨ids, represents, iff⟩ := lists
  rw [represents.listed, iff]

theorem taken_back {region region' dead taken named : Prop} (back : named → region' → region ∧ dead)
    (found : region → taken → named ∧ region') :
    (((region ∧ dead) ∧ ¬taken) ∨ (named ∧ region')) ↔ region ∧ dead := by
  constructor
  · rintro (⟨free, -⟩ | ⟨names, inside⟩)
    · exact free
    · exact back names inside
  · rintro ⟨inside, free⟩
    by_cases new : taken
    · exact Or.inr (found inside new)
    · exact Or.inl ⟨⟨inside, free⟩, new⟩

theorem Undone.exact (layout : h.BlockLayout) (known : i < h.txSlotsCount) (wf : FreeOrLive h s)
    (inv : OpenInv h s i ⟨commited, tx.allocated⟩)
    (after : AbortedInv h s commited s' i tx.allocated (abortedIds commited.pool.mem (h.slotAddr i)))
    (undone : Undone h s s' i tx.allocated) : AbortExact h commited i tx.allocated := by
  have hdr : sizeofDataHdr = 32 := rfl
  refine ⟨fun id new => ?_, fun id member => ?_⟩
  · obtain ⟨⟨positive, bound⟩, dead⟩ := inv.fresh id new
    by_cases data : id < h.totalObjsCount
    · have free := (wf.data.listed_iff id).mpr ⟨⟨by omega, data⟩, dead⟩
      rcases (after.free id).mp ((undone.free id).mpr free) with ⟨-, other⟩ | named
      · exact absurd new other
      · exact named.1
    · have free := (wf.metadata.listed_iff id).mpr ⟨⟨by omega, bound⟩, dead⟩
      rcases (after.metaFree id).mp ((undone.metaFree id).mpr free) with ⟨-, other⟩ | named
      · exact absurd new other
      · exact named.1
  · by_cases new : id ∈ tx.allocated
    · exact Or.inl new
    · refine Or.inr ⟨?_, fun obj direct x inside => ?_⟩
      · by_contra unknown
        have listed := (after.metaFree id).mpr (Or.inr ⟨member, by omega⟩)
        have range := ((wf.metadata.listed_iff id).mp ((undone.metaFree id).mp listed)).1
        omega
      · have room := layout.room id
        have block : x ∈ h.blockAt id := by
          rw [mem_span] at inside
          rw [blockAt_span direct, mem_span]
          omega
        have before := (layout.others_untouched known inv.changed).1 id new x block
        rw [before, ← undone.blocks id new x block]
        exact after.headers id member obj direct x inside

theorem AbortExact.undone (layout : h.BlockLayout) (known : i < h.txSlotsCount) (wf : FreeOrLive h s)
    (contained : ∀ id obj, backendGet h s.pool.mem id = .ok obj → h.Contained s.pool.mem id obj)
    (slots : caslistPush (caslistPop s.txSlotsList 0).list (i + 1) = s.txSlotsList)
    (inv : OpenInv h s i ⟨commited, tx.allocated⟩)
    (after : AbortedInv h s commited s' i tx.allocated (abortedIds commited.pool.mem (h.slotAddr i)))
    (exact : AbortExact h commited i tx.allocated) : Undone h s s' i tx.allocated := by
  have hdr : sizeofDataHdr = 32 := rfl
  obtain ⟨blocks, others⟩ := layout.others_untouched known (after.changed exact.only)
  have before := (layout.others_untouched known inv.changed).1
  -- a record of a block that is not new names a block that was free as well
  have dead : ∀ id ∈ abortedIds commited.pool.mem (h.slotAddr i), ¬h.Live s.pool.mem id := by
    intro id member
    by_cases new : id ∈ tx.allocated
    · exact (inv.fresh id new).2
    · have zero := ((exact.only id member).resolve_left new).2
      exact fun live => not_live_of_header zero (((before id new).live layout).mpr live)
  have gone : ∀ id ∈ tx.allocated, pmbGet h s'.pool.mem id = .error .enoent := fun id new =>
    pmbGet_dead (not_live_of_header (after.headers id (exact.found id new)))
  refine ⟨fun x => ?_, fun x => ?_, fun x => ?_, fun id => ?_, gone, blocks, others⟩
  · rw [after.free, wf.data.listed_iff]
    exact taken_back (fun named range => ⟨by omega, dead x named⟩) fun range new => ⟨exact.found x new, by omega⟩
  · rw [after.metaFree, wf.metadata.listed_iff]
    refine taken_back (fun named low => ⟨⟨low, ?_⟩, dead x named⟩) fun range new => ⟨exact.found x new, range.1⟩
    rcases exact.only x named with new | zero
    · exact (inv.fresh x new).1.2
    · exact zero.1
  · rw [after.slots, slots]
  · by_cases new : id ∈ tx.allocated
    · rw [gone id new, pmbGet_dead (inv.fresh id new).2]
    · exact (blocks id new).pmbGet layout (contained id)

theorem OpenInv.of_run (layout : h.BlockLayout) {begun : Store} {txSlot : Nat} (wf : FreeOrLive h s)
    (listed : SlotsListed h s) (begins : pmbTxBegin h s = (begun, .ok, txSlot))
    (run : Relation.ReflTransGen (OpenStep h txSlot) ⟨begun, ∅⟩ tx)
    (commits : commited = tx.store ∨ pmbTxCommit h tx.store txSlot = (commited, .ok)) :
    ∃ i < h.txSlotsCount, txSlot = i + 1 ∧ OpenInv h s i ⟨commited, tx.allocated⟩ ∧
      caslistPush (caslistPop s.txSlotsList 0).list (i + 1) = s.txSlotsList := by
  -- a transaction up to its abort: only its slot and its new blocks differ, and the slot list lacks its slot
  obtain ⟨ret, val, i, known, rfl, only, -, same⟩ := pmbTxBegin_ok layout.toLogLayout begins
  have opened := (OpenInv.begun wf only same).run layout known run
  refine ⟨i, known, rfl, ?_, ?_⟩
  · rcases commits with rfl | commits
    · exact opened
    · obtain ⟨sealed, -, only_pool⟩ := pmbTxCommit_ok layout.toLogLayout known commits
      exact opened.logged layout known sealed only_pool
  · obtain ⟨ids, lists, bounds⟩ := listed
    rw [← val]
    have few := layout.few_slots
    have small : ∀ id ∈ ids, id + 1 < 2 ^ 64 := fun id member => by have := bounds id member; omega
    by_cases empty : ids = ∅
    · subst empty
      rw [lists.pop_empty 0] at ret
      cases ret
    · obtain ⟨id, member⟩ := Finset.nonempty_iff_ne_empty.mpr empty
      exact lists.pop_push small ((lists.listed id).mpr member)

-- the abort undoes its transaction exactly when the records it meets name the new blocks, and else only blocks that
-- have nothing to zero
theorem abort_undoes_iff (layout : h.BlockLayout) {begun : Store} {txSlot : Nat} (wf : FreeOrLive h s)
    (listed : SlotsListed h s)
    (contained : ∀ id obj, backendGet h s.pool.mem id = .ok obj → h.Contained s.pool.mem id obj)
    (begins : pmbTxBegin h s = (begun, .ok, txSlot))
    (run : Relation.ReflTransGen (OpenStep h txSlot) ⟨begun, ∅⟩ tx)
    (commits : commited = tx.store ∨ pmbTxCommit h tx.store txSlot = (commited, .ok))
    (inside : ∀ r ∈ slotStrides commited.pool.mem (h.slotAddr (txSlot - 1)), r.1 + 24 ≤ h.logEnd)
    (aborts : pmbTxAbort h commited txSlot = (s', .ok)) :
    Undone h s s' (txSlot - 1) tx.allocated ↔ AbortExact h commited (txSlot - 1) tx.allocated := by
  obtain ⟨i, known, rfl, inv, slots⟩ := OpenInv.of_run layout wf listed begins run commits
  simp only [Nat.add_sub_cancel] at inside ⊢
  have after := inv.aborted layout known inside aborts
  exact ⟨fun undone => undone.exact layout known wf inv after, fun exact =>
    exact.undone layout known wf contained slots inv after⟩

end Undoing

-- a step that logs no payload
def PlainStep (h : Handle) (txSlot : Nat) (tx tx' : OpenTx) : Prop :=
  ∃ call, (∀ slot kv, call = .tput slot kv → ¬SmallUpdate h kv) ∧ OpenCall h txSlot call tx tx'

-- the log of slot `i` has no payloads, and its WRITE and UPDATE entries name these blocks
structure PlainLog (h : Handle) (s : Store) (i : Nat) (named : Finset Nat) : Prop where
  fits : h.size s i ≤ h.backend.txSlotSize
  log : ∃ records, SlotRecords s.pool.mem (h.slotAddr i) records ∧
    (∀ r ∈ records, r.entry.type ≠ TxOp.updinplace.code) ∧
    ∀ id, id ∈ named ↔ ∃ r ∈ records, abortedBlock r.entry = some id

section PlainLogs

variable {h : Handle} {s t : Store} {tx tx' : OpenTx} {i : Nat} {named : Finset Nat}

theorem strideWalk_plain (m : Mem) (stop fuel pos : Nat)
    (plain : ∀ r ∈ logWalk m stop fuel pos, r.2.type ≠ TxOp.updinplace.code) :
    strideWalk m stop fuel pos = logWalk m stop fuel pos := by
  induction fuel generalizing pos with
  | zero => rfl
  | succ fuel ih =>
    unfold strideWalk
    unfold logWalk at plain ⊢
    by_cases more : pos < stop
    · rw [if_pos more] at plain ⊢
      rw [if_pos more]
      have span : (readEntry m pos).span = sizeofTxEntry := if_neg (plain _ List.mem_cons_self)
      rw [span] at plain ⊢
      rw [ih _ fun r member => plain r (List.mem_cons_of_mem _ member)]
    · rw [if_neg more, if_neg more]

theorem PlainLog.mem_abortedIds (layout : h.LogLayout) (known : i < h.txSlotsCount) (plain : PlainLog h s i named) :
    (∀ r ∈ slotStrides s.pool.mem (h.slotAddr i), r.1 + 24 ≤ h.logEnd) ∧
      ∀ id, id ∈ abortedIds s.pool.mem (h.slotAddr i) ↔ id ∈ named := by
  obtain ⟨records, log, no_payload, names⟩ := plain.log
  have fits := plain.fits
  have below := Handle.slot_below known
  have small := layout.end_lt
  unfold Handle.size at fits
  obtain ⟨entries, inside⟩ := log.entries (by omega)
  have strides : slotStrides s.pool.mem (h.slotAddr i) = slotLog s.pool.mem (h.slotAddr i) := by
    refine strideWalk_plain _ _ _ _ fun r member => ?_
    have listed : r.2 ∈ slotEntries s.pool.mem (h.slotAddr i) := List.mem_map_of_mem (f := Prod.snd) member
    rw [entries] at listed
    obtain ⟨record, member', same⟩ := List.mem_map.mp listed
    rw [← same]
    exact no_payload record member'
  refine ⟨fun r member => ?_, fun id => ?_⟩
  · rw [strides] at member
    have := inside r member
    omega
  · have ids : abortedIds s.pool.mem (h.slotAddr i) =
        (slotEntries s.pool.mem (h.slotAddr i)).filterMap abortedBlock := by
      rw [abortedIds, strides, slotEntries, List.filterMap_map]
      rfl
    rw [ids, entries, List.filterMap_map, List.mem_filterMap, names]
    rfl

theorem PlainLog.append (layout : h.LogLayout) (known : i < h.txSlotsCount) (plain : PlainLog h s i named)
    {fill : Pool → Nat → Pool} (fills : FillsEntry fill sizeofTxEntry) (fits : EntryFits h s (i + 1) sizeofTxEntry)
    {entry : TxEntry} (next : readEntry (fill s.pool (h.slotAddr i + h.size s i)).mem (h.slotAddr i + h.size s i) = entry)
    (no_payload : entry.type ≠ TxOp.updinplace.code)
    (done : txSlotAppend h s (i + 1) fill sizeofTxEntry = (t, .ok)) :
    PlainLog h t i (named ∪ (abortedBlock entry).toFinset) := by
  obtain ⟨records, log, plain_records, names⟩ := plain.log
  obtain ⟨processing, -⟩ := txSlotAppend_ok layout known done
  have room : h.size s i + sizeofTxEntry ≤ h.backend.txSlotSize := fits processing
  obtain ⟨-, -, -, size⟩ := txSlotAppend_spec layout s known fills processing log.size_ge room
  have appended := txSlotAppend_records layout known fills processing room log ⟨entry, []⟩
    (record_plain next no_payload) (if_neg no_payload)
  rw [done] at size appended
  refine ⟨by rw [size]; exact room, records ++ [⟨entry, []⟩], appended, fun r member => ?_, fun id => ?_⟩
  · rcases List.mem_append.mp member with old | last
    · exact plain_records r old
    · rw [List.mem_singleton.mp last]
      exact no_payload
  · rw [Finset.mem_union, names, Option.mem_toFinset]
    constructor
    · rintro (⟨r, old, block⟩ | block)
      · exact ⟨r, List.mem_append_left _ old, block⟩
      · exact ⟨⟨entry, []⟩, List.mem_append_right _ (List.mem_singleton_self _), block⟩
    · rintro ⟨r, member, block⟩
      rcases List.mem_append.mp member with old | last
      · exact Or.inl ⟨r, old, block⟩
      · rw [List.mem_singleton.mp last] at block
        exact Or.inr block

theorem PlainLog.blocks (layout : h.LogLayout) (known : i < h.txSlotsCount) (plain : PlainLog h s i named)
    (blocks : BlocksOnly h s t) : PlainLog h t i named := by
  obtain ⟨records, log, rest⟩ := plain.log
  have fits := plain.fits
  have below := Handle.slot_below known
  refine ⟨by rw [(blocks.slot_words layout known).2]; exact fits, records, log.congr fun x _ upper => ?_, rest⟩
  apply blocks.changed
  unfold Handle.size at fits
  simp only [Handle.blockArea, Set.mem_ofPred_eq]
  omega

theorem logNewBlock_entry (h : Handle) (s : Store) (txSlot oldBlkId newBlkId : Nat) :
    ∃ fill, FillsEntry fill sizeofTxEntry ∧
      logNewBlock h s txSlot oldBlkId newBlkId = txSlotAppend h s txSlot fill sizeofTxEntry ∧
      ∀ p pos, (readEntry (fill p pos).mem pos).type ≠ TxOp.updinplace.code ∧
        abortedBlock (readEntry (fill p pos).mem pos) = some (newBlkId % 2 ^ 64) := by
  unfold logNewBlock
  split
  · refine ⟨_, fillsEntry_update oldBlkId newBlkId, rfl, fun p pos => ?_⟩
    rw [readEntry_ids]
    exact ⟨(by decide : TxOp.update.code ≠ TxOp.updinplace.code), rfl⟩
  · refine ⟨_, fillsEntry_write newBlkId, rfl, fun p pos => ?_⟩
    rw [readEntry_id1]
    exact ⟨(by decide : TxOp.write.code ≠ TxOp.updinplace.code), rfl⟩

theorem PlainLog.newBlock (layout : h.LogLayout) (known : i < h.txSlotsCount) (plain : PlainLog h s i named)
    {oldBlkId newBlkId : Nat} (small : newBlkId < 2 ^ 64) (fits : EntryFits h s (i + 1) sizeofTxEntry)
    (done : logNewBlock h s (i + 1) oldBlkId newBlkId = (t, .ok)) : PlainLog h t i (named ∪ {newBlkId}) := by
  obtain ⟨fill, fills, append, entry⟩ := logNewBlock_entry h s (i + 1) oldBlkId newBlkId
  obtain ⟨no_payload, block⟩ := entry s.pool (h.slotAddr i + h.size s i)
  rw [append] at done
  have after := plain.append layout known fills fits rfl no_payload done
  rwa [block, Nat.mod_eq_of_lt small, Option.toFinset_some] at after

theorem PlainLog.step (layout : h.BlockLayout) (known : i < h.txSlotsCount) (plain : PlainLog h tx.store i tx.allocated)
    (step : PlainStep h (i + 1) tx tx') : PlainLog h tx'.store i tx'.allocated := by
  have fit := layout.fit
  obtain ⟨call, large, ret, on, run, success, safe, allocated⟩ := step
  rw [allocated]
  cases call with
  | tput txSlot kv =>
    have here : txSlot = i + 1 := on
    subst here
    simp only [runCall, Option.some.injEq, Prod.mk.injEq] at run
    obtain ⟨stores, rfl⟩ := run
    have not_small := large _ kv rfl
    obtain ⟨-, ⟨small, -⟩ | ⟨-, old, found, new⟩⟩ := pmbTput_ok (Prod.ext rfl (Prod.ext success rfl))
    · exact absurd small not_small
    · obtain ⟨ret, obj, logged, direct, log, stored, pair⟩ := tputNewBlock_ok new
      unfold SmallUpdate at not_small
      have entry := safe.1
      rw [tputEntryLen, if_neg not_small] at entry
      have bound := backendDirect_lt layout direct
      have after := PlainLog.newBlock (s := { tx.store with freeList := (caslistPop tx.store.freeList 0).list })
        layout.toLogLayout known ⟨plain.fits, plain.log⟩ (by omega) entry log
      rw [stores.symm.trans stored]
      simp only [allocatedBy, if_neg not_small, pair]
      exact after.blocks layout.toLogLayout known (tputBlock_blocksOnly layout.toLogLayout logged direct old kv)
  | tputMeta txSlot kv =>
    have here : txSlot = i + 1 := on
    subst here
    simp only [runCall, Option.some.injEq, Prod.mk.injEq] at run
    obtain ⟨stores, rfl⟩ := run
    obtain ⟨-, old, found, new⟩ := pmbTputMeta_ok (Prod.ext rfl (Prod.ext success rfl))
    obtain ⟨ret, obj, logged, direct, log, stored, pair⟩ := tputMetaNewBlock_ok new
    have bound := backendDirect_lt layout direct
    have after := PlainLog.newBlock (s := { tx.store with metaFreeList := (caslistPop tx.store.metaFreeList 0).list })
      layout.toLogLayout known ⟨plain.fits, plain.log⟩ (by omega) safe.1 log
    rw [stores.symm.trans stored]
    simp only [allocatedBy, pair]
    exact after.blocks layout.toLogLayout known (tputMetaBlock_blocksOnly layout.toLogLayout logged direct old kv)
  | tdel txSlot blkId =>
    have here : txSlot = i + 1 := on
    subst here
    simp only [runCall, Option.some.injEq, Prod.mk.injEq] at run
    obtain ⟨stores, rfl⟩ := run
    obtain ⟨-, -, append⟩ := pmbTdel_ok (Prod.ext rfl success)
    have after := plain.append layout.toLogLayout known (fillsEntry_remove blkId) safe (readEntry_id1 _ _ _ _)
      (show TxOp.remove.code ≠ TxOp.updinplace.code by decide) append
    rw [← stores]
    exact after
  | _ => cases on

theorem abort_undoes_plain (layout : h.BlockLayout) {begun commited s' : Store} {txSlot : Nat} (wf : FreeOrLive h s)
    (listed : SlotsListed h s)
    (contained : ∀ id obj, backendGet h s.pool.mem id = .ok obj → h.Contained s.pool.mem id obj)
    (begins : pmbTxBegin h s = (begun, .ok, txSlot))
    (run : Relation.ReflTransGen (PlainStep h txSlot) ⟨begun, ∅⟩ tx)
    (commits : commited = tx.store ∨ pmbTxCommit h tx.store txSlot = (commited, .ok))
    (aborts : pmbTxAbort h commited txSlot = (s', .ok)) : Undone h s s' (txSlot - 1) tx.allocated := by
  -- a transaction without in-place updates is undone
  obtain ⟨-, -, i, known, rfl, -, size, -⟩ := pmbTxBegin_ok layout.toLogLayout begins
  have room := layout.slot_room
  have opened : PlainLog h tx.store i tx.allocated := by
    clear commits
    induction run with
    | refl => exact ⟨by rw [size]; exact room, [], slotRecords_nil size, by simp, by simp⟩
    | tail _ step ih => exact ih.step layout known step
  have sealed : PlainLog h commited i tx.allocated := by
    rcases commits with rfl | commits
    · exact opened
    · obtain ⟨-, header, -⟩ := pmbTxCommit_ok layout.toLogLayout known commits
      obtain ⟨records, log, rest⟩ := opened.log
      have same : h.size commited i = h.size tx.store i :=
        word_congr _ _ _ _ fun x lower _ => header_frame header x (by omega)
      exact ⟨by rw [same]; exact opened.fits, records, log.congr fun x lower _ => header_frame header x lower, rest⟩
  obtain ⟨inside, named⟩ := sealed.mem_abortedIds layout.toLogLayout known
  have steps : Relation.ReflTransGen (OpenStep h (i + 1)) ⟨begun, ∅⟩ tx :=
    Relation.ReflTransGen.mono (fun _ _ ⟨call, _, step⟩ => ⟨call, step⟩) _ _ run
  obtain ⟨j, -, same, inv, slots⟩ := OpenInv.of_run layout wf listed begins steps commits
  obtain rfl : i = j := Nat.succ.inj same
  have exact : AbortExact h commited i tx.allocated :=
    ⟨fun id new => (named id).mpr new, fun id member => Or.inl ((named id).mp member)⟩
  exact exact.undone layout known wf contained slots inv (inv.aborted layout known inside aborts)

end PlainLogs

-- a transaction that puts an object into block 1 of the flat pool
def openedTx : OpenTx := ⟨begunStore flatHandle, ∅⟩

def putTx : OpenTx := ⟨(pmbTput flatHandle openedTx.store 1 (onePair 0)).1, {1}⟩

theorem abort_undoes_iff_sample :
    ∃ s', pmbTxAbort flatHandle putTx.store 1 = (s', .ok) ∧ Undone flatHandle flatStore s' 0 putTx.allocated := by
  have begins : (pmbTxBegin flatHandle flatStore).2 = (.ok, 1) := by decide +kernel
  have aborts : (pmbTxAbort flatHandle putTx.store 1).2 = .ok := by decide +kernel
  have strides : slotStrides putTx.store.pool.mem (flatHandle.slotAddr 0) = [(139637976735768, ⟨0, 1, 0⟩)] := by
    decide +kernel
  have puts : OpenStep flatHandle 1 openedTx putTx := by
    refine ⟨.tput 1 (onePair 0), _, rfl, rfl, by decide +kernel, ⟨fun _ => by decide +kernel, fun _ =>
      ⟨by decide, fun _ update => absurd rfl update⟩⟩, by decide +kernel⟩
  have slots : SlotsListed flatHandle flatStore := by
    have created : caslistNew 1 1 = flatStore.txSlotsList := by decide +kernel
    refine ⟨_, created ▸ caslistNew_spec (le_refl 1) (by decide) (by decide), fun id member => ?_⟩
    exact (Finset.mem_Icc.mp member).2
  have no_object : ∀ id obj, backendGet flatHandle flatStore.pool.mem id = .ok obj →
      flatHandle.Contained flatStore.pool.mem id obj := by
    intro id obj found
    exact absurd (word_of_zeros _ obj 8 fun _ _ _ => rfl) (backendGet_ok.mp found).2.2
  refine ⟨_, Prod.ext rfl aborts, (abort_undoes_iff flatHandle_layout flatStore_freeOrLive slots no_object
    (Prod.ext rfl begins) (Relation.ReflTransGen.single puts) (Or.inl rfl) (fun r member => ?_)
    (Prod.ext rfl aborts)).mpr ⟨fun id new => ?_, fun id member => Or.inl ?_⟩⟩
  · rw [strides] at member
    rw [List.mem_singleton.mp member]
    decide +kernel
  · rw [Finset.mem_singleton.mp new, abortedIds, strides]
    decide
  · rw [abortedIds, strides] at member
    exact Finset.mem_singleton.mpr (List.mem_singleton.mp member)

-- the records behind a payload of one byte are not met, so the second new block stays
theorem abort_leaves_block :
    ∃ s' rets, runCalls flatHandle flatStore
        [.txBegin, .tput 1 (onePair 0), .tput 1 (onePair 1), .tput 1 (onePair 0), .txAbort 1] = some (s', rets) ∧
      rets = [⟨.ok, 1, 0⟩, ⟨.ok, 1, 1⟩, ⟨.ok, 1, 1⟩, ⟨.ok, 1, 2⟩, ⟨.ok, 1, 0⟩] ∧
      FreeOrLive flatHandle flatStore ∧ ¬Undone flatHandle flatStore s' 0 {1, 2} := by
  have ran : (runCalls flatHandle flatStore
      [.txBegin, .tput 1 (onePair 0), .tput 1 (onePair 1), .tput 1 (onePair 0), .txAbort 1]).map
        (fun done => (done.2, flch64 done.1.pool.mem 139638110961664 != 0)) =
      some ([⟨.ok, 1, 0⟩, ⟨.ok, 1, 1⟩, ⟨.ok, 1, 1⟩, ⟨.ok, 1, 2⟩, ⟨.ok, 1, 0⟩], true) := by decide +kernel
  obtain ⟨⟨s', rets⟩, done, values⟩ := Option.map_eq_some_iff.mp ran
  simp only [Prod.mk.injEq, bne_iff_ne] at values
  obtain ⟨statuses, live⟩ := values
  refine ⟨s', rets, done, statuses, flatStore_freeOrLive, fun undone => ?_⟩
  have gone := undone.gone 2 (by decide)
  have found : backendGet flatHandle s'.pool.mem 2 = .ok 139638110961664 :=
    backendGet_ok.mpr ⟨by decide, by decide +kernel, live⟩
  unfold pmbGet at gone
  rw [found] at gone
  cases gone

end PmBackend
