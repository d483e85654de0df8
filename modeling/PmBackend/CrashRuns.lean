import PmBackend.CallAtomicity

set_option autoImplicit false

namespace PmBackend

open ByteMemory DeferredLog

section Lives

variable {h : Handle} {s s' : Store} {t t' : Ledger} {heap : Nat → Nat → TxMeta} {i : Nat}

theorem recoveredMap_closed {map : TxMap Nat PartialBytes} (layout : h.LogLayout)
    (closed : ∀ i, h.txSlotsCount ≤ i → map.txs i = none) (first : map.txs 0 = none) (m : Mem) (i : Nat) :
    (recoveredMap h m map).txs i = none := by
  rw [recoveredMap, settle_txs]
  split
  · rfl
  · next outside =>
    rw [mem_replaySlots layout] at outside
    by_cases beyond : h.txSlotsCount ≤ i
    · exact closed i beyond
    · have zero : i = 0 := by omega
      rw [zero]
      exact first

-- a `pmb_open` that is killed while it runs `tx_log_check`, in any byte of any store
def KilledOpen (h : Handle) (m m' : Mem) : Prop :=
  ∃ s t : Store, s.pool.mem = m ∧ txLogCheck h s = some t ∧ StopsWith s.pool t.pool m'

-- what is left of a process that is killed, between two calls or in a call, which has then happened or not
inductive Leaves (h : Handle) (calls : Ledger → Ledger → Prop) (t : Ledger) : Mem → TxMap Nat PartialBytes → Prop where
  | between (safe : t.RecoverySafe h) : Leaves h calls t t.store.pool.mem t.map
  | within {t' : Ledger} {m : Mem} {map : TxMap Nat PartialBytes} (step : calls t t')
      (stops : h.StopsDuring t.store.pool t'.store.pool m) (which : map = t.map ∨ map = t'.map)
      (image : CrashImage h (t.store.crashed m) map) : Leaves h calls t m map

-- a call, or the end of the process and the next `pmb_open`, after others that were killed
inductive LifeStep (h : Handle) (calls : Ledger → Ledger → Prop) (t : Ledger) : Ledger → Prop where
  | call {t' : Ledger} (step : calls t t') : LifeStep h calls t t'
  -- the memory of the update lists is new and zero, and replay does not look at the first slot
  | reopen {m m' : Mem} {map : TxMap Nat PartialBytes} {heap : Nat → Nat → TxMeta} {s' : Store}
      (leaves : Leaves h calls t m map) (kills : Relation.ReflTransGen (KilledOpen h) m m')
      (clean : ∀ i < h.txSlotsCount, ∀ k < 128, (heap i k).id = 0)
      (first : map.txs 0 = none ∧ slotStatus m' (h.slotAddr 0) = TxStatus.empty.code)
      (reopens : Reopens h heap (t.store.crashed m') s') : LifeStep h calls t ⟨s', recoveredMap h m map⟩

theorem LifeStep.calls {calls : Ledger → Ledger → Prop} (run : Relation.ReflTransGen calls t t') :
    Relation.ReflTransGen (LifeStep h calls) t t' := by
  induction run with
  | refl => exact .refl
  | tail _ step ih => exact ih.tail (.call step)

theorem InRecovery.kills (layout : h.LogLayout) {m₀ m m' : Mem} (ready : Replayable h m₀) (stopped : InRecovery h m₀ m)
    (kills : Relation.ReflTransGen (KilledOpen h) m m') : InRecovery h m₀ m' := by
  induction kills with
  | refl => exact stopped
  | tail _ killed ih =>
    obtain ⟨s, t, rfl, done, stops⟩ := killed
    have started : Replayable h (s.crashed m₀).pool.mem := ready
    obtain ⟨t', again, throughout, -⟩ := InRecovery.replays layout started ih
    cases done.symm.trans again
    exact throughout.stops _ stops

theorem CrashImage.reopened (rooms : h.Rooms) {map : TxMap Nat PartialBytes} (image : CrashImage h s map) {m : Mem}
    (kills : Relation.ReflTransGen (KilledOpen h) s.pool.mem m) (heap : Nat → Nat → TxMeta) :
    (∃ s', Reopens h heap (s.crashed m) s') ∧
      ∀ s', Reopens h heap (s.crashed m) s' → Recovers h s.pool.mem m map heap s' := by
  have start := InRecovery.start rooms.toLogLayout s.pool.mem
  exact image.recovers rooms (start.kills rooms.toLogLayout (image.replayable rooms) kills) heap

theorem Recovers.ledger (layout : h.LogLayout) {map : TxMap Nat PartialBytes} {m m' : Mem}
    (recovers : Recovers h m m' map heap s') (closed : ∀ i, h.txSlotsCount ≤ i → map.txs i = none)
    (clean : ∀ i < h.txSlotsCount, ∀ k < 128, (heap i k).id = 0)
    (first : map.txs 0 = none ∧ slotStatus m' (h.slotAddr 0) = TxStatus.empty.code) :
    LedgerInv h ⟨s', recoveredMap h m map⟩ := by
  have ended := recoveredMap_closed layout closed first.1 m
  have empty : ∀ i < h.txSlotsCount, h.status s' i = TxStatus.empty.code := by
    intro i known
    rw [recovers.statuses i known]
    split
    · rfl
    · have zero : i = 0 := by omega
      rw [zero]
      exact first.2
  refine ⟨⟨recovers.held, recovers.shows.deadLists, fun i known => ?_⟩, recovers.blocks, fun i known => ?_,
    SlotInvariant.of_empty recovers.slots empty, fun i _ => ended i⟩
  · rw [ended]
    exact empty i known
  · rw [recovers.lists]
    exact ⟨rfl, clean i known⟩

theorem Leaves.image (layout : h.LogLayout) {calls : Ledger → Ledger → Prop} (inv : LedgerInv h t) {m : Mem}
    {map : TxMap Nat PartialBytes} (leaves : Leaves h calls t m map) : CrashImage h (t.store.crashed m) map := by
  cases leaves with
  | between safe => exact (inv.crashImage layout safe).congr rfl
  | within step stops which image => exact image

theorem LedgerInv.life (rooms : h.Rooms) {calls : Ledger → Ledger → Prop} (inv : LedgerInv h t)
    (called : ∀ t', calls t t' → LedgerInv h t') (step : LifeStep h calls t t') : LedgerInv h t' := by
  cases step with
  | call step => exact called t' step
  | @reopen m m' map heap s' leaves kills clean first reopens =>
    have layout := rooms.toLogLayout
    have recovers := ((leaves.image layout inv).reopened rooms kills heap).2 s' reopens
    refine recovers.ledger layout (fun i beyond => ?_) clean first
    cases leaves with
    | between safe => exact inv.closed i beyond
    | within step stops which image =>
      rcases which with rfl | rfl
      · exact inv.closed i beyond
      · exact (called _ step).closed i beyond

theorem LedgerInv.lives (rooms : h.Rooms) (nonzero : ∀ bytes, h.checksum bytes ≠ 0) (inv : LedgerInv h t)
    (run : Relation.ReflTransGen (LifeStep h (LedgerStep h)) t t') : LedgerInv h t' := by
  induction run with
  | refl => exact inv
  | tail _ step ih => exact ih.life rooms (fun t' done => ih.step rooms nonzero done) step

theorem isolated_lives (rooms : h.Rooms) (nonzero : ∀ bytes, h.checksum bytes ≠ 0) (ready : Recoverable h s)
    (run : Relation.ReflTransGen (LifeStep h (IsolatedStep h)) (Ledger.start h s) t) :
    LedgerInv h t ∧ Serial (shownObjects h s.pool.mem) t.map := by
  induction run with
  | refl => exact ⟨LedgerInv.start ready, Serial.start _⟩
  | tail _ step ih =>
    obtain ⟨inv, serial⟩ := ih
    refine ⟨inv.life rooms (fun t' done => inv.step rooms nonzero done.ledgerStep) step, ?_⟩
    cases step with
    | call step => exact step.serial rooms nonzero inv serial
    | reopen leaves kills clean first reopens =>
      cases leaves with
      | between safe => exact serial.settle _ _
      | within step stops which image =>
        rcases which with rfl | rfl
        · exact serial.settle _ _
        · exact (step.serial rooms nonzero inv serial).settle _ _

end Lives

-- wherever a process stops between two calls, `pmb_open` succeeds, however often it was killed before, and shows the
-- map with its open transactions ended: those that were committed and pass the check of recovery are executed, in the
-- order of their slots, the others are undone
theorem crash_recovers {h : Handle} (rooms : h.Rooms) (nonzero : ∀ bytes, h.checksum bytes ≠ 0) {s : Store}
    (ready : Recoverable h s) {t : Ledger}
    (run : Relation.ReflTransGen (LifeStep h (LedgerStep h)) (Ledger.start h s) t) (safe : t.RecoverySafe h) {m : Mem}
    (kills : Relation.ReflTransGen (KilledOpen h) t.store.pool.mem m) (heap : Nat → Nat → TxMeta) :
    (∀ i < h.txSlotsCount, ∀ tx, t.map.txs i = some tx →
      (replayStands h t.store.pool.mem i = true ↔ tx.commited = true ∧
        checksumOf h t.store.pool.mem (h.slotAddr i) (u64 (sizeofTxSlot + h.size t.store i)) =
          checksumOf h t.store.pool.mem (h.slotAddr i) (h.size t.store i))) ∧
      (∃ s', Reopens h heap (t.store.crashed m) s') ∧ ∀ s', Reopens h heap (t.store.crashed m) s' →
        Shows h s' (recoveredMap h t.store.pool.mem t.map).objects := by
  have inv := (LedgerInv.start ready).lives rooms nonzero run
  obtain ⟨opens, recovers⟩ := (inv.crashImage rooms.toLogLayout safe).reopened rooms kills heap
  exact ⟨fun i known tx here => inv.stands_iff known here, opens, fun s' reopens => (recovers s' reopens).shows⟩

-- a process that is killed in a call leaves a store that `pmb_open` takes for one before the call or for one after
-- it, however often it was killed before
theorem killed_call_atomic {h : Handle} (rooms : h.Rooms) (nonzero : ∀ bytes, h.checksum bytes ≠ 0) {s : Store}
    (ready : Recoverable h s) {t t' : Ledger}
    (run : Relation.ReflTransGen (LifeStep h (LedgerStep h)) (Ledger.start h s) t) (safe : t.RecoverySafe h) {call : Call}
    {ret : Return} (step : LedgerCall h t call ret t') (safe' : t'.RecoverySafe h)
    (stop : ret.status = .ok → StopSafe h t ret call) {m m' : Mem} (stops : h.StopsDuring t.store.pool t'.store.pool m)
    (kills : Relation.ReflTransGen (KilledOpen h) m m') (heap : Nat → Nat → TxMeta) :
    ∃ map, (map = t.map ∨ map = t'.map) ∧ Leaves h (LedgerStep h) t m map ∧
      (∃ s', Reopens h heap (t.store.crashed m') s') ∧ ∀ s', Reopens h heap (t.store.crashed m') s' →
        Shows h s' (recoveredMap h m map).objects := by
  have inv := (LedgerInv.start ready).lives rooms nonzero run
  have shows : ∀ map, (map = t.map ∨ map = t'.map) → CrashImage h (t.store.crashed m) map → ∃ map,
      (map = t.map ∨ map = t'.map) ∧ Leaves h (LedgerStep h) t m map ∧
        (∃ s', Reopens h heap (t.store.crashed m') s') ∧ ∀ s', Reopens h heap (t.store.crashed m') s' →
          Shows h s' (recoveredMap h m map).objects := by
    intro map which image
    obtain ⟨opens, recovers⟩ := image.reopened rooms kills heap
    exact ⟨map, which, .within ⟨call, ret, step⟩ stops which image, opens, fun s' reopens => (recovers s' reopens).shows⟩
  rcases (inv.call_keeps rooms nonzero safe step safe' stop).stopped stops with image | image
  · exact shows t.map (Or.inl rfl) image
  · exact shows t'.map (Or.inr rfl) image

-- after every `pmb_open` of a life the blocks that hold no object are free, and `pmb_nfree` counts them: what calls
-- have lost is found again
theorem reopen_reclaims {h : Handle} (rooms : h.Rooms) (nonzero : ∀ bytes, h.checksum bytes ≠ 0) {s : Store}
    (ready : Recoverable h s) {t : Ledger}
    (run : Relation.ReflTransGen (LifeStep h (LedgerStep h)) (Ledger.start h s) t) {m m' : Mem}
    {map : TxMap Nat PartialBytes} (leaves : Leaves h (LedgerStep h) t m map)
    (kills : Relation.ReflTransGen (KilledOpen h) m m') {heap : Nat → Nat → TxMeta} {s' : Store}
    (reopens : Reopens h heap (t.store.crashed m') s') (small : h.totalObjsCount + h.metaObjsCount < 2 ^ 63)
    (region : Region) :
    pmbNfree s' region + ((h.regionIds region).filter fun id => (recoveredMap h m map).objects id ≠ none).card =
      pmbNtotal h region := by
  have inv := (LedgerInv.start ready).lives rooms nonzero run
  have recovers := ((leaves.image rooms.toLogLayout inv).reopened rooms kills heap).2 s' reopens
  exact recovers.shows.nfree rooms.toIds small region

-- over any number of calls, kills and reopenings, while no call names a block that another open transaction has made:
-- an object that no open transaction has made is what the transactions leave that were executed, by a call or by
-- recovery, one after another in this order
theorem lives_serialize {h : Handle} (rooms : h.Rooms) (nonzero : ∀ bytes, h.checksum bytes ≠ 0) {s : Store}
    (ready : Recoverable h s) {t : Ledger}
    (run : Relation.ReflTransGen (LifeStep h (IsolatedStep h)) (Ledger.start h s) t) :
    Means h t.store.pool.mem t.map.objects ∧
      (∀ id, (∀ i, t.map.madeBy i id = none) →
        t.map.objects id = serial (shownObjects h s.pool.mem) t.map.executed id) ∧
      ((∀ i < h.txSlotsCount, t.map.txs i = none) →
        Means h t.store.pool.mem (serial (shownObjects h s.pool.mem) t.map.executed)) := by
  obtain ⟨inv, serial⟩ := isolated_lives rooms nonzero ready run
  refine ⟨inv.held.means, serial.other, fun none_open => ?_⟩
  rw [← serial.finished fun i => (Nat.lt_or_ge i h.txSlotsCount).elim (none_open i) (inv.closed i)]
  exact inv.held.means

def secondPut : Ledger := bothBegun.after twoSlotHandle (.tput 2 (onePair 0)) ⟨.ok, 2, 1⟩

-- the first transaction is aborted, the second has put an object and is committed
def secondCommited : Ledger :=
  (secondPut.after twoSlotHandle (.txAbort 1) ⟨.ok, 1, 0⟩).after twoSlotHandle (.txCommit 2) ⟨.ok, 2, 0⟩

theorem newObjects_safe {t : Ledger} (steps : NoPayload t.store.pool.mem (twoSlotHandle.slotAddr 1))
    (kept : ∀ c ∈ t.map.pendingOf 1, c = .keep)
    (room : sizeofTxSlot + twoSlotHandle.size t.store 1 ≤ twoSlotHandle.backend.txSlotSize) :
    t.RecoverySafe twoSlotHandle := by
  intro i member opened
  have second : i = 1 := by
    obtain ⟨positive, known⟩ := (mem_replaySlots twoSlotHandle_layout.toLogLayout).mp member
    have slots : twoSlotHandle.txSlotsCount = 2 := rfl
    omega
  subst second
  refine ⟨steps, fun _ id f listed => ?_, fun _ id listed => ?_, fun _ => room⟩
  · cases kept _ listed
  · cases kept _ listed

theorem noPayload_of_log {m : Mem} {slot : Nat} {log : List (Nat × TxEntry)} (walked : slotLog m slot = log)
    (plain : ∀ r ∈ log, r.2.type ≠ TxOp.updinplace.code) : NoPayload m slot := by
  rw [← walked] at plain
  exact fun r inside in_place => absurd in_place (plain r inside)

theorem bothBegun_safe : bothBegun.RecoverySafe twoSlotHandle := by
  have log : slotLog bothBegun.store.pool.mem (twoSlotHandle.slotAddr 1) = [] := by decide +kernel
  refine newObjects_safe (noPayload_of_log log fun r inside => absurd inside List.not_mem_nil) (fun c listed => ?_)
    (by decide +kernel)
  rw [bothBegun_pending] at listed
  cases listed

theorem secondPut_safe : secondPut.RecoverySafe twoSlotHandle := by
  have log : slotLog secondPut.store.pool.mem (twoSlotHandle.slotAddr 1) =
      [(twoSlotHandle.slotAddr 1 + 24, ⟨0, 1, 0⟩)] := by decide +kernel
  exact newObjects_safe (noPayload_of_log log (by decide)) (fun c listed => List.mem_singleton.mp listed)
    (by decide +kernel)

theorem secondCommited_safe : secondCommited.RecoverySafe twoSlotHandle := by
  have log : slotLog secondCommited.store.pool.mem (twoSlotHandle.slotAddr 1) =
      [(twoSlotHandle.slotAddr 1 + 24, ⟨0, 1, 0⟩)] := by decide +kernel
  exact newObjects_safe (noPayload_of_log log (by decide)) (fun c listed => List.mem_singleton.mp listed)
    (by decide +kernel)

theorem secondCommited_run :
    Relation.ReflTransGen (IsolatedStep twoSlotHandle) (Ledger.start twoSlotHandle twoSlotStore) secondCommited := by
  have puts : IsolatedStep twoSlotHandle bothBegun secondPut := by
    refine put_isolated 2 1 (by decide +kernel) (by decide +kernel) fun j other c member => ?_
    rw [bothBegun_pending] at member
    cases member
  have aborts : IsolatedStep twoSlotHandle secondPut (secondPut.after twoSlotHandle (.txAbort 1) ⟨.ok, 1, 0⟩) := by
    have log : slotStrides secondPut.store.pool.mem (twoSlotHandle.slotAddr 0) = [] := by decide +kernel
    refine .after (.txAbort 1) ⟨.ok, 1, 0⟩ (by decide +kernel) rfl trivial ⟨?_, fun id => ?_⟩ trivial
    · rw [Nat.sub_self, log]
      exact fun r inside => absurd inside List.not_mem_nil
    · rw [Nat.sub_self, abortedIds, log]
      exact ⟨fun inside => absurd inside List.not_mem_nil, fun made => absurd rfl made⟩
  have commits : IsolatedStep twoSlotHandle _ secondCommited :=
    .after (.txCommit 2) ⟨.ok, 2, 0⟩ (by decide +kernel) rfl trivial trivial trivial
  exact ((bothBegun_run.tail puts).tail aborts).tail commits

theorem crash_recovers_sample : ∃ s', Reopens twoSlotHandle (fun _ _ => ⟨0, 0, 0⟩)
      (secondCommited.store.crashed secondCommited.store.pool.mem) s' ∧
    Shows twoSlotHandle s' (recoveredMap twoSlotHandle secondCommited.store.pool.mem secondCommited.map).objects := by
  have run : Relation.ReflTransGen (LedgerStep twoSlotHandle) (.start twoSlotHandle twoSlotStore) secondCommited :=
    Relation.ReflTransGen.mono (fun _ _ => IsolatedStep.ledgerStep) _ _ secondCommited_run
  obtain ⟨-, ⟨s', reopens⟩, shows⟩ := crash_recovers twoSlotHandle_layout.rooms twoSlotHandle_nonzero
    twoSlotStore_recoverable (LifeStep.calls run) secondCommited_safe .refl fun _ _ => ⟨0, 0, 0⟩
  exact ⟨s', reopens, shows s' reopens⟩

theorem reopen_reclaims_sample : ∃ s', Reopens twoSlotHandle (fun _ _ => ⟨0, 0, 0⟩)
      (secondCommited.store.crashed secondCommited.store.pool.mem) s' ∧
    pmbNfree s' .data + ((twoSlotHandle.regionIds .data).filter fun id =>
      (recoveredMap twoSlotHandle secondCommited.store.pool.mem secondCommited.map).objects id ≠ none).card =
        pmbNtotal twoSlotHandle .data := by
  have run : Relation.ReflTransGen (LedgerStep twoSlotHandle) (.start twoSlotHandle twoSlotStore) secondCommited :=
    Relation.ReflTransGen.mono (fun _ _ => IsolatedStep.ledgerStep) _ _ secondCommited_run
  have rooms := twoSlotHandle_layout.rooms
  have inv := (LedgerInv.start twoSlotStore_recoverable).run rooms twoSlotHandle_nonzero run
  have leaves : Leaves twoSlotHandle (LedgerStep twoSlotHandle) secondCommited secondCommited.store.pool.mem
      secondCommited.map := .between secondCommited_safe
  obtain ⟨s', reopens⟩ := ((leaves.image rooms.toLogLayout inv).reopened rooms .refl fun _ _ => ⟨0, 0, 0⟩).1
  exact ⟨s', reopens, reopen_reclaims rooms twoSlotHandle_nonzero twoSlotStore_recoverable (LifeStep.calls run) leaves
    .refl reopens (by decide) .data⟩

-- what the put of the second transaction adds to the events, and the memory before the last three of them
def putEvents : List Event :=
  secondPut.store.pool.events.take (secondPut.store.pool.events.length - bothBegun.store.pool.events.length)

def cutPut : Mem := afterEvents bothBegun.store.pool.mem (putEvents.drop 3)

theorem killed_call_atomic_sample : ∃ s', Reopens twoSlotHandle (fun _ _ => ⟨0, 0, 0⟩)
    (bothBegun.store.crashed cutPut) s' := by
  have run : Relation.ReflTransGen (LedgerStep twoSlotHandle) (.start twoSlotHandle twoSlotStore) bothBegun :=
    Relation.ReflTransGen.mono (fun _ _ => IsolatedStep.ledgerStep) _ _ bothBegun_run
  have step : LedgerCall twoSlotHandle bothBegun (.tput 2 (onePair 0)) ⟨.ok, 2, 1⟩ secondPut :=
    put_called 2 1 (by decide +kernel) (by decide +kernel)
  have events : secondPut.store.pool.events = putEvents ++ bothBegun.store.pool.events := by decide +kernel
  have stops : twoSlotHandle.StopsDuring bothBegun.store.pool secondPut.store.pool cutPut :=
    ⟨putEvents, events, mem_stopsDuring_drop _ _ _ 3⟩
  obtain ⟨map, -, -, opens, -⟩ := killed_call_atomic twoSlotHandle_layout.rooms twoSlotHandle_nonzero
    twoSlotStore_recoverable (LifeStep.calls run) bothBegun_safe step secondPut_safe (fun _ => trivial) stops .refl
      fun _ _ => ⟨0, 0, 0⟩
  exact opens

theorem lives_serialize_sample : ∃ s', Reopens twoSlotHandle (fun _ _ => ⟨0, 0, 0⟩)
      (secondCommited.store.crashed secondCommited.store.pool.mem) s' ∧
    Means twoSlotHandle s'.pool.mem (serial (shownObjects twoSlotHandle twoSlotStore.pool.mem)
      (recoveredMap twoSlotHandle secondCommited.store.pool.mem secondCommited.map).executed) := by
  have rooms := twoSlotHandle_layout.rooms
  have layout := rooms.toLogLayout
  have inv := (isolated_lives rooms twoSlotHandle_nonzero twoSlotStore_recoverable (LifeStep.calls secondCommited_run)).1
  have leaves : Leaves twoSlotHandle (IsolatedStep twoSlotHandle) secondCommited secondCommited.store.pool.mem
      secondCommited.map := .between secondCommited_safe
  obtain ⟨s', reopens⟩ := ((leaves.image layout inv).reopened rooms .refl fun _ _ => ⟨0, 0, 0⟩).1
  have first : secondCommited.map.txs 0 = none ∧
      slotStatus secondCommited.store.pool.mem (twoSlotHandle.slotAddr 0) = TxStatus.empty.code := ⟨rfl, by decide +kernel⟩
  have lives := lives_serialize rooms twoSlotHandle_nonzero twoSlotStore_recoverable
    ((LifeStep.calls secondCommited_run).tail (.reopen leaves .refl (fun _ _ _ _ => rfl) first reopens))
  exact ⟨s', reopens, lives.2.2 fun i _ => recoveredMap_closed layout inv.closed first.1 _ i⟩

end PmBackend
