import PmBackend.NewStores
import PmBackend.Openings

set_option autoImplicit false

namespace PmBackend

open ByteMemory DeferredLog

inductive Life where
  | first
  | later
  deriving DecidableEq, Repr

-- in its first life a store has wrong free lists
def Life.calls (h : Handle) : Life → Ledger → Ledger → Prop
  | .first => FirstStep h
  | .later => LedgerStep h

-- what happens to a store from the `pmb_open` that creates it: calls, and processes that end between two calls or in
-- one, some of them in the `pmb_open` after
inductive History (host : Host) (opts : PmbOpts) : Handle → Life → Ledger → Prop where
  | created {heap : Nat → Nat → TxMeta} {h : Handle} {s : Store} (opens : PmbOpen host opts heap none (.ok (h, s)))
      (clean : ∀ i < h.txSlotsCount, ∀ k < 128, (heap i k).id = 0) : History host opts h .first (.start h s)
  | call {h : Handle} {life : Life} {t t' : Ledger} (before : History host opts h life t) (step : life.calls h t t') :
      History host opts h life t'
  | reopened {h h' : Handle} {life : Life} {t : Ledger} {m m' : Mem} {map : TxMap Nat PartialBytes}
      {heap : Nat → Nat → TxMeta} {s : Store} (before : History host opts h life t) (leaves : Leaves h (life.calls h) t m map)
      (kills : Relation.ReflTransGen (KilledOpen h) m m')
      (first : map.txs 0 = none ∧ slotStatus m' (h.slotAddr 0) = TxStatus.empty.code)
      (opens : PmbOpen host opts heap (some m') (.ok (h', s)))
      (clean : ∀ i < h'.txSlotsCount, ∀ k < 128, (heap i k).id = 0) :
      History host opts h' .later ⟨s, recoveredMap h m map⟩

section Lives

variable {h : Handle} {life : Life} {t t' : Ledger} {m : Mem} {map : TxMap Nat PartialBytes}

def LifeInv (h : Handle) (life : Life) (t : Ledger) : Prop :=
  match life with
  | .first => ∃ u, Trimmed h t.store u ∧ LedgerInv h ⟨u, t.map⟩
  | .later => LedgerInv h t

theorem LifeInv.shadow (inv : LifeInv h life t) : ∃ u, u.pool = t.store.pool ∧ LedgerInv h ⟨u, t.map⟩ := by
  cases life with
  | first =>
    obtain ⟨u, trimmed, ledger⟩ := inv
    exact ⟨u, trimmed.pool, ledger⟩
  | later => exact ⟨t.store, rfl, inv⟩

theorem LifeInv.call (rooms : h.Rooms) (nonzero : ∀ bytes, h.checksum bytes ≠ 0) (inv : LifeInv h life t)
    (step : life.calls h t t') : LifeInv h life t' := by
  cases life with
  | first =>
    obtain ⟨u, trimmed, ledger⟩ := inv
    obtain ⟨u', follows, trimmed'⟩ := trimmed.step rooms.toIds step
    exact ⟨u', trimmed', ledger.step rooms nonzero follows⟩
  | later => exact LedgerInv.step rooms nonzero inv step

theorem Life.ledgerCall (step : life.calls h t t') : ∃ call ret, LedgerCall h t call ret t' := by
  cases life with
  | first =>
    obtain ⟨call, ret, called, -⟩ := step
    exact ⟨call, ret, called⟩
  | later => exact step

theorem LifeInv.image (rooms : h.Rooms) (nonzero : ∀ bytes, h.checksum bytes ≠ 0) (inv : LifeInv h life t)
    (leaves : Leaves h (life.calls h) t m map) :
    CrashImage h (t.store.crashed m) map ∧ ∀ i, h.txSlotsCount ≤ i → map.txs i = none := by
  obtain ⟨u, pool, ledger⟩ := inv.shadow
  cases leaves with
  | between safe =>
    have safe' : Ledger.RecoverySafe h ⟨u, t.map⟩ := by
      intro i member opened
      obtain ⟨steps, plain, alone, room⟩ := safe i member opened
      unfold Handle.status Handle.size at room
      rw [← pool] at steps plain alone room
      exact ⟨steps, plain, alone, room⟩
    exact ⟨(ledger.crashImage rooms.toLogLayout safe').congr (congrArg Pool.mem pool).symm, ledger.closed⟩
  | within step stops which image =>
    obtain ⟨u', -, ledger'⟩ := (inv.call rooms nonzero step).shadow
    refine ⟨image, ?_⟩
    rcases which with rfl | rfl
    · exact ledger.closed
    · exact ledger'.closed

theorem Leaves.behind (layout : h.LogLayout) (leaves : Leaves h (life.calls h) t m map) :
    ChangedIn {x | h.backend.txLog ≤ x} t.store.pool.mem m := by
  cases leaves with
  | between safe => exact ChangedIn.refl _ _
  | within step stops which image =>
    obtain ⟨call, ret, called⟩ := Life.ledgerCall step
    exact (runCall_behind layout called.slot called.run).stopped stops

end Lives

section Histories

variable {host : Host} {opts : PmbOpts} {h : Handle} {life : Life} {t : Ledger}

structure HistoryInv (host : Host) (opts : PmbOpts) (h : Handle) (life : Life) (t : Ledger) : Prop where
  created : host.backend opts none = .ok h.backend
  handle : h = opts.handle host h.backend
  header : host.readHdr t.store.pool.mem = (opts.hostArgs host).createdHdr
  life : LifeInv h life t

theorem HistoryInv.rooms (serves : opts.Serves host) (inv : HistoryInv host opts h life t) : h.Rooms := by
  rw [inv.handle]
  exact serves.rooms inv.created

theorem HistoryInv.nonzero (nonzero : ∀ bytes, host.checksum bytes ≠ 0) (inv : HistoryInv host opts h life t)
    (bytes : List UInt8) : h.checksum bytes ≠ 0 := by
  rw [inv.handle]
  exact nonzero bytes

theorem HistoryInv.page (serves : opts.Serves host) (inv : HistoryInv host opts h life t) {m : Mem}
    (changed : ChangedIn {x | h.backend.txLog ≤ x} t.store.pool.mem m) :
    host.readHdr m = (opts.hostArgs host).createdHdr :=
  (host.readHdr_congr (serves.page inv.created) changed).trans inv.header

theorem HistoryInv.reopens (serves : opts.Serves host) (nonzero : ∀ bytes, host.checksum bytes ≠ 0)
    (inv : HistoryInv host opts h life t) {m m' : Mem} {map : TxMap Nat PartialBytes}
    (leaves : Leaves h (life.calls h) t m map) (kills : Relation.ReflTransGen (KilledOpen h) m m')
    (heap : Nat → Nat → TxMeta) :
    (∃ s, PmbOpen host opts heap (some m') (.ok (h, s))) ∧
      ∀ outcome, PmbOpen host opts heap (some m') outcome →
        ∃ s, outcome = .ok (h, s) ∧ Reopens h heap (t.store.crashed m') s ∧ Recovers h m m' map heap s := by
  have rooms := inv.rooms serves
  have layout := rooms.toLogLayout
  obtain ⟨⟨s, reopens⟩, recovers⟩ := (inv.life.image rooms (inv.nonzero nonzero) leaves).1.reopened rooms kills heap
  have header := inv.page serves ((leaves.behind layout).trans (KilledOpen.behind layout kills))
  have iff : ∀ outcome, PmbOpen host opts heap (some m') outcome ↔
      ∃ s, outcome = .ok (h, s) ∧ Reopens h heap (t.store.crashed m') s := by
    intro outcome
    rw [inv.handle]
    exact PmbOpen.existing_iff serves inv.created header rfl
  refine ⟨⟨s, (iff _).mpr ⟨s, rfl, reopens⟩⟩, fun outcome opens => ?_⟩
  obtain ⟨s', rfl, reopens'⟩ := (iff outcome).mp opens
  exact ⟨s', rfl, reopens', recovers s' reopens'⟩

theorem History.inv (serves : opts.Serves host) (nonzero : ∀ bytes, host.checksum bytes ≠ 0)
    (history : History host opts h life t) : HistoryInv host opts h life t := by
  induction history with
  | created opens clean =>
    cases opens with
    | @empty b s initial size created file init =>
      have rooms := serves.rooms created
      have page := serves.page created
      have zeros : ∀ x, b.txLog ≤ x → s.pool.mem x = 0 := by
        intro x above
        rw [file]
        exact createHdr_changed host opts _ x fun inside => Nat.not_le.mpr inside (page.trans above)
      obtain ⟨u, trimmed, ready⟩ := openEmpty_trimmed rooms zeros clean init
      have bytes : (openEmpty (opts.handle host b) initial).pool = s.pool :=
        (openEmpty_pool initial).trans (txLogInit_spec rooms.toLogLayout init).1
      refine ⟨created, rfl, ?_, u, trimmed, ?_⟩
      · change host.readHdr (openEmpty (opts.handle host b) initial).pool.mem = _
        rw [bytes, file]
        exact createHdr_reads serves.slots_lt _
      · have start := LedgerInv.start ready
        rwa [Ledger.start, trimmed.pool] at start
  | call before step ih =>
    have rooms := ih.rooms serves
    obtain ⟨call, ret, called⟩ := Life.ledgerCall step
    exact ⟨ih.created, ih.handle, ih.page serves (runCall_behind rooms.toLogLayout called.slot called.run).last,
      ih.life.call rooms (ih.nonzero nonzero) step⟩
  | @reopened h h' life t m m' map heap s before leaves kills first opens clean ih =>
    have rooms := ih.rooms serves
    have layout := rooms.toLogLayout
    obtain ⟨s', same, reopens, recovers⟩ := (ih.reopens serves nonzero leaves kills heap).2 _ opens
    cases same
    refine ⟨ih.created, ih.handle, ?_, ?_⟩
    · exact ih.page serves (((leaves.behind layout).trans (KilledOpen.behind layout kills)).trans (reopens.behind layout))
    · exact recovers.ledger layout (ih.life.image rooms (ih.nonzero nonzero) leaves).2 clean first

end Histories

-- over any calls, kills and openings of a store, from the one that creates it on: `pmb_open` never fails and always
-- gives the same handle, `pmb_get` shows the map of the calls, and after every kill the map with its open
-- transactions ended
theorem store_histories {host : Host} {opts : PmbOpts} (serves : opts.Serves host)
    (nonzero : ∀ bytes, host.checksum bytes ≠ 0) {h : Handle} {life : Life} {t : Ledger}
    (history : History host opts h life t) :
    (host.backend opts none = .ok h.backend ∧ h = opts.handle host h.backend) ∧
      Means h t.store.pool.mem t.map.objects ∧
      ∀ m map, Leaves h (life.calls h) t m map → ∀ m', Relation.ReflTransGen (KilledOpen h) m m' → ∀ heap,
        (∃ s, PmbOpen host opts heap (some m') (.ok (h, s))) ∧
          ∀ outcome, PmbOpen host opts heap (some m') outcome →
            ∃ s, outcome = .ok (h, s) ∧ Shows h s (recoveredMap h m map).objects := by
  have inv := history.inv serves nonzero
  obtain ⟨u, pool, ledger⟩ := inv.life.shadow
  have means := ledger.held.means
  refine ⟨⟨inv.created, inv.handle⟩, by rwa [← pool], fun m map leaves m' kills heap => ?_⟩
  obtain ⟨opens, ends⟩ := inv.reopens serves nonzero leaves kills heap
  refine ⟨opens, fun outcome ended => ?_⟩
  obtain ⟨s, same, -, recovers⟩ := ends outcome ended
  exact ⟨s, same, recovers.shows⟩

def twoSlotOpts : PmbOpts where
  dataSize := 8192 + 128 * 1024 * 1024 + 3 * 4096
  metaSize := 0
  writeLogEntries := 2
  maxKeyLen := 64
  maxValLen := 4000
  metaMaxKeyLen := 64
  metaMaxValLen := 4000
  syncType := .sync

def twoSlotHost : Host where
  addr := 0x7f0000000000
  poolHdrSize := 8192 - 176
  isPmem := false
  checksum := fun _ => 1

theorem twoSlotOpts_created : twoSlotHost.backend twoSlotOpts none = .ok twoSlotHandle.backend := by decide +kernel

theorem twoSlotOpts_serves : twoSlotOpts.Serves twoSlotHost := by
  refine ⟨⟨by decide, by decide, by decide, by decide, by decide, by decide, by decide, by decide +kernel,
    by decide +kernel, by decide⟩, ⟨by decide, by decide +kernel, by decide +kernel, by decide, by decide +kernel⟩,
    by decide, fun b created => ?_⟩
  cases twoSlotOpts_created.symm.trans created
  exact ⟨by decide, Or.inl rfl⟩

-- what `pmb_open` makes of a new file
def madeStore : Store :=
  { newTwoSlot with pool := twoSlotHost.createHdr twoSlotOpts ⟨fun _ => 0, []⟩ }

def madeBegun : Ledger :=
  (Ledger.start twoSlotHandle (openEmpty twoSlotHandle madeStore)).after twoSlotHandle .txBegin ⟨.ok, 1, 0⟩

def madePut : Ledger := madeBegun.after twoSlotHandle (.tput 1 (onePair 0)) ⟨.ok, 1, 1⟩

def madeSealed : Ledger := madePut.after twoSlotHandle (.txCommit 1) ⟨.ok, 1, 0⟩

def madeExecuted : Ledger := madeSealed.after twoSlotHandle (.txExecute 1) ⟨.ok, 1, 0⟩

theorem madeExecuted_history : History twoSlotHost twoSlotOpts twoSlotHandle .first madeExecuted := by
  have loop : slotIdsLoop twoSlotHandle (2 ^ 8) 1 (caslistNew 1 twoSlotHandle.txSlotsCount) =
      some (some ⟨2, 1, 2, []⟩) := by decide +kernel
  have init : txLogInit twoSlotHandle madeStore (fun _ _ => ⟨0, 0, 0⟩) = some madeStore := by
    simp only [txLogInit, loop, Option.map_some]
    rfl
  have opens : PmbOpen twoSlotHost twoSlotOpts (fun _ _ => ⟨0, 0, 0⟩) none
      (.ok (twoSlotHandle, openEmpty twoSlotHandle madeStore)) :=
    .empty (by decide +kernel) twoSlotOpts_created rfl init
  have begins : LedgerCall twoSlotHandle (Ledger.start twoSlotHandle (openEmpty twoSlotHandle madeStore)) .txBegin
      ⟨.ok, 1, 0⟩ madeBegun := .after _ _ (by decide +kernel) rfl trivial trivial
  have puts : LedgerCall twoSlotHandle madeBegun (.tput 1 (onePair 0)) ⟨.ok, 1, 1⟩ madePut :=
    put_called 1 1 (by decide +kernel) (by decide +kernel)
  have inside : (caslistPop madeBegun.store.freeList 0).val < twoSlotHandle.totalObjsCount := by decide +kernel
  have commits : LedgerCall twoSlotHandle madePut (.txCommit 1) ⟨.ok, 1, 0⟩ madeSealed :=
    .after _ _ (by decide +kernel) rfl trivial trivial
  have executes : LedgerCall twoSlotHandle madeSealed (.txExecute 1) ⟨.ok, 1, 0⟩ madeExecuted := by
    have commited : twoSlotHandle.status madeSealed.store 0 = TxStatus.commited.code := by decide +kernel
    obtain ⟨tx, here, pending⟩ : ∃ tx, madeSealed.map.txs 0 = some tx ∧ tx.pending = [.keep] := ⟨_, rfl, rfl⟩
    refine .after _ _ (by decide +kernel) rfl ?_
      ⟨∅, Nat.zero_le _, fun id member => absurd member ?_, fun id f listed => ?_⟩
    · change twoSlotHandle.status madeSealed.store 0 ≠ TxStatus.processing.code
      rw [commited]
      decide
    · exact Finset.notMem_empty id
    · rw [pendingOf_eq here, pending] at listed
      cases List.mem_singleton.mp listed
  exact .call (.call (.call (.call (.created opens fun _ _ _ _ => rfl) ⟨_, _, begins, trivial⟩)
    ⟨_, _, puts, fun _ => inside⟩) ⟨_, _, commits, trivial⟩) ⟨_, _, executes, trivial⟩

theorem store_histories_sample : ∃ s object,
    PmbOpen twoSlotHost twoSlotOpts (fun _ _ => ⟨0, 0, 0⟩) (some madeExecuted.store.pool.mem) (.ok (twoSlotHandle, s)) ∧
      pmbGet twoSlotHandle s.pool.mem 1 = .ok object := by
  have safe : madeExecuted.RecoverySafe twoSlotHandle := by
    intro i member opened
    obtain ⟨positive, known⟩ := (mem_replaySlots twoSlotHandle_layout.toLogLayout).mp member
    have slots : twoSlotHandle.txSlotsCount = 2 := rfl
    obtain rfl : i = 1 := by omega
    exact absurd rfl opened
  obtain ⟨-, -, reopens⟩ := store_histories twoSlotOpts_serves twoSlotHandle_nonzero madeExecuted_history
  obtain ⟨⟨s, opens⟩, ends⟩ := reopens _ _ (.between safe) _ .refl fun _ _ => ⟨0, 0, 0⟩
  obtain ⟨s', same, shows⟩ := ends _ opens
  cases same
  have closed : ∀ i, madeExecuted.map.txs i = none := by
    intro i
    cases i with
    | zero => rfl
    | succ k => rfl
  obtain ⟨v, put⟩ : ∃ v, madeExecuted.map.objects 1 = some v := ⟨_, rfl⟩
  have same : recoveredMap twoSlotHandle madeExecuted.store.pool.mem madeExecuted.map = madeExecuted.map :=
    settle_closed closed _ _
  obtain ⟨object, get, -⟩ := shows.means.present ((congrFun (congrArg TxMap.objects same) 1).trans put)
  exact ⟨s, object, opens, get⟩

end PmBackend
