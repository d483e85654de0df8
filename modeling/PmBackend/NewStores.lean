import PmBackend.CrashRuns

set_option autoImplicit false

namespace PmBackend

open ByteMemory DeferredLog

section Settled

variable {h : Handle} {s s' : Store} {heap : Nat → Nat → TxMeta}

theorem Settled.crashImage (settled : Settled h s) (layout : h.LogLayout) :
    CrashImage h s (TxMap.start (shownObjects h s.pool.mem)) := by
  have held := (means_shown h s.pool.mem).held fun id obj found =>
    settled.blocks.contained id obj (backendGet_ok.mp found).2.1
  refine ⟨fun i member => settled.empty i ((mem_replaySlots layout).mp member).2, fun i _ opened => absurd rfl opened,
    fun id obj direct => ?_, fun id _ => held id, fun id obj _ direct => ?_⟩
  · obtain ⟨key_fits, fits, -⟩ := settled.blocks.contained id obj direct
    exact ⟨key_fits, fits⟩
  · exact ⟨settled.blocks.contained id obj direct, settled.blocks.sealed id obj direct (Set.notMem_empty id)⟩

theorem settled_reopens (rooms : h.Rooms) (settled : Settled h s)
    (clean : ∀ i < h.txSlotsCount, ∀ k < 128, (heap i k).id = 0) :
    (∃ s', Reopens h heap s s') ∧ ∀ s', Reopens h heap s s' →
      Recoverable h s' ∧ Shows h s' (shownObjects h s.pool.mem) := by
  have layout := rooms.toLogLayout
  obtain ⟨opens, recovers⟩ := (settled.crashImage layout).recovers rooms (InRecovery.start layout s.pool.mem) heap
  have same : recoveredMap h s.pool.mem (TxMap.start (shownObjects h s.pool.mem)) =
      TxMap.start (shownObjects h s.pool.mem) := settle_closed (fun _ => rfl) _ _
  refine ⟨opens, fun s' reopens => ?_⟩
  obtain ⟨blocks, held, shows, lists, slots, statuses⟩ := recovers s' reopens
  rw [same] at shows
  refine ⟨⟨⟨blocks, fun i known => ?_, slots, fun i known => ?_⟩, ?_⟩, shows⟩
  · rw [lists]
    exact ⟨rfl, clean i known⟩
  · rw [statuses i known]
    split
    · rfl
    · exact settled.empty i known
  · refine shows.deadLists.mono fun id dead => ?_
    rw [shownObjects, shows.means.absent dead]

end Settled

section Simulation

variable {h : Handle} {s s' u u' : Store} {call : Call} {ret : Return} {f g : Option Caslist} {id txId : Nat}

-- the free list of a new store has one id more, the first one behind the region
def OneMore (h : Handle) (list exact : Option Caslist) : Prop :=
  ∃ ids, ListOf exact ids ∧ ListOf list (insert h.totalObjsCount ids) ∧ ∀ id ∈ ids, id < h.totalObjsCount

-- the store with a free list that ends with the region, and with any list of free meta blocks
inductive Trimmed (h : Handle) (s : Store) : Store → Prop where
  | mk (f g : Option Caslist) (more : OneMore h s.freeList f) : Trimmed h s { s with freeList := f, metaFreeList := g }

-- what a function makes of a store and of its trimmed one
def Follows (h : Handle) {α : Type} (done done' : Store × α) : Prop := done'.2 = done.2 ∧ Trimmed h done.1 done'.1

-- a function that may fault does so on both
def Leads (h : Handle) (run run' : Option Store) : Prop := ∀ s', run = some s' → ∃ u', run' = some u' ∧ Trimmed h s' u'

theorem OneMore.push (ids : h.Ids) (more : OneMore h f g) (data : id < h.totalObjsCount) :
    OneMore h (caslistPush f id) (caslistPush g id) := by
  have fit := ids.fit
  obtain ⟨members, exact, list, below⟩ := more
  have pushed := list.push (show id < 2 ^ 64 by omega)
  have pushed' := exact.push (show id < 2 ^ 64 by omega)
  by_cases null : id = 0
  · rw [if_pos null] at pushed pushed'
    exact ⟨members, pushed', pushed, below⟩
  · rw [if_neg null] at pushed pushed'
    rw [Finset.insert_comm] at pushed
    refine ⟨_, pushed', pushed, fun j member => ?_⟩
    rcases Finset.mem_insert.mp member with rfl | old
    · exact data
    · exact below j old

theorem ListOf.pop_least {list : Option Caslist} {members : Finset Nat} (lists : ListOf list members)
    (nonempty : members.Nonempty) (small : (caslistPop list 0).val + 1 < 2 ^ 64) :
    (caslistPop list 0).val ∈ members ∧ (∀ id ∈ members, (caslistPop list 0).val ≤ id) ∧ (caslistPop list 0).ret = 0 ∧
      ListOf (caslistPop list 0).list (members.erase (caslistPop list 0).val) := by
  obtain ⟨l, rfl, represents⟩ := lists
  have val : (caslistPop (some l) 0).val = l.begin := by
    unfold caslistPop
    simp only
    split
    · next empty => exact empty.1.symm
    · rfl
  rw [val] at small ⊢
  obtain ⟨member, lowest⟩ := represents.begin_least nonempty
  obtain ⟨l', popped, represents'⟩ := caslistPop_spec represents nonempty small 0
  exact ⟨member, lowest, by rw [popped], l', by rw [popped], represents'⟩

theorem OneMore.pop (ids : h.Ids) (more : OneMore h f g) (inside : (caslistPop f 0).val < h.totalObjsCount) :
    ((caslistPop g 0).ret = (caslistPop f 0).ret ∧ (caslistPop g 0).val = (caslistPop f 0).val) ∧
      OneMore h (caslistPop f 0).list (caslistPop g 0).list := by
  have fit := ids.fit
  obtain ⟨members, exact, list, below⟩ := more
  obtain ⟨member, lowest, ret, rest⟩ := list.pop_least (Finset.insert_nonempty _ _) (by omega)
  generalize (caslistPop f 0).val = least at inside member lowest rest ⊢
  have old : least ∈ members := (Finset.mem_insert.mp member).resolve_left (by omega)
  obtain ⟨least', member', lowest', ret', val', rest'⟩ := exact.pop ⟨least, old⟩
    (fun id inside => by have := below id inside; omega) 0
  have same : least' = least := le_antisymm (lowest' least old) (lowest least' (Finset.mem_insert_of_mem member'))
  subst same
  refine ⟨⟨ret'.trans ret.symm, val'⟩, _, rest', ?_, fun id inside => below id (Finset.mem_of_mem_erase inside)⟩
  rwa [Finset.erase_insert_of_ne (by omega)] at rest

theorem Trimmed.pool (trimmed : Trimmed h s u) : u.pool = s.pool := by
  obtain ⟨f, g, -⟩ := trimmed
  rfl

theorem Trimmed.withPool (trimmed : Trimmed h s u) (p q : Pool) (same : q = p) :
    Trimmed h { s with pool := p } { u with pool := q } := by
  obtain ⟨f, g, more⟩ := trimmed
  rw [same]
  exact .mk (s := { s with pool := p }) f g more

theorem Trimmed.setZero (trimmed : Trimmed h s u) (obj : Option Nat) : Trimmed h (s.setZero obj) (u.setZero obj) :=
  trimmed.withPool _ _ (by rw [trimmed.pool])

theorem Trimmed.freeSlot (trimmed : Trimmed h s u) (txSlot : Nat) :
    Trimmed h (txLogFreeSlot s txSlot) (txLogFreeSlot u txSlot) := by
  obtain ⟨f, g, more⟩ := trimmed
  exact .mk (s := { s with txSlotsList := _ }) f g more

theorem Trimmed.release (ids : h.Ids) (trimmed : Trimmed h s u) (id : Nat) :
    Trimmed h (s.release h id) (u.release h id) := by
  obtain ⟨f, g, more⟩ := trimmed
  unfold Store.release
  split
  · next data =>
    exact .mk (s := { s with freeList := caslistPush s.freeList id }) (caslistPush f id) g (more.push ids data)
  · exact .mk (s := { s with metaFreeList := caslistPush s.metaFreeList id }) f (caslistPush g id) more

theorem Trimmed.append (trimmed : Trimmed h s u) (txSlotId : Nat) (fill : Pool → Nat → Pool) (len : Nat) :
    Follows h (txSlotAppend h s txSlotId fill len) (txSlotAppend h u txSlotId fill len) := by
  obtain ⟨f, g, more⟩ := trimmed
  unfold txSlotAppend
  split
  · exact ⟨rfl, .mk f g more⟩
  · simp only
    split
    · exact ⟨rfl, .mk f g more⟩
    · exact ⟨rfl, .mk (s := { s with pool := _ }) f g more⟩

theorem Trimmed.logNewBlock (trimmed : Trimmed h s u) (txSlot oldBlkId newBlkId : Nat) :
    Follows h (logNewBlock h s txSlot oldBlkId newBlkId) (logNewBlock h u txSlot oldBlkId newBlkId) := by
  unfold PmBackend.logNewBlock
  split
  · exact trimmed.append _ _ _
  · exact trimmed.append _ _ _

theorem Trimmed.tputNewBlock (ids : h.Ids) (trimmed : Trimmed h s u) (txSlot : Nat) (kv : PmbPair) (old : Option Nat)
    (inside : (caslistPop s.freeList 0).val < h.totalObjsCount) :
    Follows h (tputNewBlock h s txSlot kv old) (tputNewBlock h u txSlot kv old) := by
  obtain ⟨f, g, more⟩ := trimmed
  obtain ⟨⟨ret, val⟩, rest⟩ := more.pop ids inside
  have popped : Trimmed h { s with freeList := (caslistPop s.freeList 0).list }
      { s with freeList := (caslistPop f 0).list, metaFreeList := g } := .mk (s := { s with freeList := _ }) _ g rest
  unfold PmBackend.tputNewBlock
  simp only [ret, val]
  split
  · exact ⟨rfl, popped⟩
  · split
    · exact ⟨rfl, popped⟩
    · next obj direct =>
      obtain ⟨status, logged⟩ := popped.logNewBlock txSlot kv.blkId (caslistPop s.freeList 0).val
      rw [status]
      split
      · exact ⟨rfl, logged⟩
      · exact ⟨rfl, logged.withPool _ _ (by rw [logged.pool])⟩

theorem Trimmed.tput (ids : h.Ids) (trimmed : Trimmed h s u) (txSlot : Nat) (kv : PmbPair)
    (inside : ¬SmallUpdate h kv → (caslistPop s.freeList 0).val < h.totalObjsCount) :
    Follows h (pmbTput h s txSlot kv) (pmbTput h u txSlot kv) := by
  unfold pmbTput
  rw [trimmed.pool]
  split
  · exact ⟨rfl, trimmed⟩
  · split
    · exact ⟨rfl, trimmed⟩
    · split
      · obtain ⟨status, logged⟩ := trimmed.append txSlot _ (sizeofTxEntry + kv.valBytes.length)
        exact ⟨congrArg (fun status => (status, kv)) status, logged⟩
      · next large =>
        split
        · split
          · exact ⟨rfl, trimmed⟩
          · exact trimmed.tputNewBlock ids txSlot kv _ (inside large)
        · exact trimmed.tputNewBlock ids txSlot kv _ (inside large)

theorem Trimmed.tdel (trimmed : Trimmed h s u) (txSlot blkId : Nat) :
    Follows h (pmbTdel h s txSlot blkId) (pmbTdel h u txSlot blkId) := by
  unfold pmbTdel
  split
  · exact ⟨rfl, trimmed⟩
  · exact trimmed.append _ _ _

theorem Trimmed.begin (trimmed : Trimmed h s u) : Follows h (pmbTxBegin h s) (pmbTxBegin h u) := by
  obtain ⟨f, g, more⟩ := trimmed
  unfold pmbTxBegin txSlotInit
  simp only
  split
  · exact ⟨rfl, .mk (s := { s with txSlotsList := _ }) f g more⟩
  · split
    · exact ⟨rfl, .mk (s := { s with txSlotsList := _ }) f g more⟩
    · split
      · exact ⟨rfl, .mk (s := { s with txSlotsList := _ }) f g more⟩
      · exact ⟨rfl, .mk (s := { s with txSlotsList := _, pool := _ }) f g more⟩

theorem Trimmed.commit (trimmed : Trimmed h s u) (txSlot : Nat) :
    Follows h (pmbTxCommit h s txSlot) (pmbTxCommit h u txSlot) := by
  obtain ⟨f, g, more⟩ := trimmed
  unfold pmbTxCommit txSlotCommit
  split
  · exact ⟨rfl, .mk f g more⟩
  · split
    · exact ⟨rfl, .mk f g more⟩
    · simp only
      split
      · exact ⟨rfl, .mk f g more⟩
      · exact ⟨rfl, .mk (s := { s with pool := _ }) f g more⟩

theorem Trimmed.abortWalk (ids : h.Ids) (stop fuel pos : Nat) (trimmed : Trimmed h s u) :
    Trimmed h (abortWalk h stop fuel pos s) (abortWalk h stop fuel pos u) := by
  induction fuel generalizing pos s u with
  | zero => exact trimmed
  | succ fuel ih =>
    unfold PmBackend.abortWalk
    rw [trimmed.pool]
    split
    · refine ih _ ?_
      unfold abortEntry
      split
      · exact (trimmed.setZero _).release ids _
      · split
        · exact (trimmed.setZero _).release ids _
        · exact trimmed
    · exact trimmed

theorem Trimmed.abort (ids : h.Ids) (trimmed : Trimmed h s u) (txSlot : Nat) :
    Follows h (pmbTxAbort h s txSlot) (pmbTxAbort h u txSlot) := by
  unfold pmbTxAbort txSlotAbort
  rw [trimmed.pool]
  split
  · exact ⟨rfl, trimmed⟩
  · simp only
    split
    · exact ⟨rfl, trimmed.freeSlot txSlot⟩
    · next slot direct =>
      split
      · exact ⟨rfl, trimmed.freeSlot txSlot⟩
      · have aborted : Trimmed h (slotAborted h s slot (txIndex txSlot)) (slotAborted h u slot (txIndex txSlot)) :=
          trimmed.withPool _ _ (by rw [trimmed.pool])
        have walked : Trimmed h (abortLog h (slotAborted h s slot (txIndex txSlot)) slot)
            (abortLog h (slotAborted h u slot (txIndex txSlot)) slot) := by
          unfold abortLog
          simp only [aborted.pool]
          exact aborted.abortWalk ids _ _ _
        exact ⟨rfl, (walked.withPool _ _ (by rw [walked.pool])).freeSlot txSlot⟩

theorem Trimmed.resolve (ids : h.Ids) (trimmed : Trimmed h s u) (blkId1 blkId2 : Nat)
    (data : resolveStatus h s blkId1 blkId2 = .ok → blkId1 < h.totalObjsCount ∧ blkId2 < h.totalObjsCount) :
    Follows h (pmbResolveConflict h s blkId1 blkId2) (pmbResolveConflict h u blkId1 blkId2) := by
  obtain ⟨f, g, more⟩ := trimmed
  unfold pmbResolveConflict
  simp only
  split
  · exact ⟨rfl, .mk f g more⟩
  · next obj1 found1 =>
    split
    · exact ⟨rfl, .mk f g more⟩
    · next obj2 found2 =>
      have both := data (by rw [resolveStatus, found1, found2])
      refine ⟨rfl, .mk (s := { s with pool := _, freeList := _ }) _ g (more.push ids ?_)⟩
      split
      · exact both.1
      · exact both.2

theorem Trimmed.leads (trimmed : Trimmed h s u) : Leads h (some s) (some u) := by
  rintro s' ⟨⟩
  exact ⟨u, rfl, trimmed⟩

theorem Leads.bind {run run' : Option Store} (leads : Leads h run run') {next next' : Store → Option Store}
    (later : ∀ x y, Trimmed h x y → Leads h (next x) (next' y)) : Leads h (run.bind next) (run'.bind next') := by
  intro s' done
  obtain ⟨x, first, second⟩ := Option.bind_eq_some_iff.mp done
  obtain ⟨y, first', same⟩ := leads x first
  rw [first']
  exact later x y same s' second

theorem Trimmed.updAdd (trimmed : Trimmed h s u) (blkId size : Nat) :
    Leads h (txSlotMetaUpdAdd h s txId blkId size) (txSlotMetaUpdAdd h u txId blkId size) := by
  obtain ⟨f, g, more⟩ := trimmed
  intro s' done
  unfold txSlotMetaUpdAdd at done ⊢
  simp only [Option.map_eq_some_iff] at done ⊢
  obtain ⟨found, here, rfl⟩ := done
  exact ⟨_, ⟨found, here, rfl⟩, .mk (s := { s with updIdList := _ }) f g more⟩

theorem Trimmed.updateBlock (trimmed : Trimmed h s u) (blkId : Nat) (payload : List UInt8) (offset : Nat) :
    Leads h (txUpdateBlock h s txId blkId payload offset) (txUpdateBlock h u txId blkId payload offset) := by
  unfold txUpdateBlock
  split
  · split
    · exact trimmed.updAdd _ _
    · intro s' done
      cases done
  · refine Trimmed.updAdd ?_ _ _
    obtain ⟨f, g, more⟩ := trimmed
    exact .mk (s := { s with pool := _ }) f g more

theorem Trimmed.executeEntry (ids : h.Ids) (trimmed : Trimmed h s u) (pos : Nat) (entry : TxEntry) :
    Leads h (executeEntry h s txId pos entry) (executeEntry h u txId pos entry) := by
  unfold PmBackend.executeEntry
  rw [trimmed.pool]
  split
  · split
    · exact trimmed.leads
    · exact ((trimmed.setZero _).release ids _).leads
  · split
    · exact trimmed.updateBlock _ _ _
    · exact trimmed.leads

theorem Trimmed.executeWalk (ids : h.Ids) (stop fuel pos : Nat) (trimmed : Trimmed h s u) :
    Leads h (executeWalk h txId stop fuel pos s) (executeWalk h txId stop fuel pos u) := by
  induction fuel generalizing pos s u with
  | zero => exact trimmed.leads
  | succ fuel ih =>
    unfold PmBackend.executeWalk
    rw [trimmed.pool]
    split
    · exact (trimmed.executeEntry ids pos _).bind fun x y same => ih _ same
    · exact trimmed.leads

theorem Trimmed.process (trimmed : Trimmed h s u) :
    Leads h (txSlotMetaUpdProcess h s txId) (txSlotMetaUpdProcess h u txId) := by
  obtain ⟨f, g, more⟩ := trimmed
  intro s' done
  unfold txSlotMetaUpdProcess at done ⊢
  obtain ⟨p, processed, rfl⟩ := Option.map_eq_some_iff.mp done
  exact ⟨_, Option.map_eq_some_iff.mpr ⟨p, processed, rfl⟩, .mk (s := { s with pool := _, updIdList := _ }) f g more⟩

theorem Trimmed.execute (ids : h.Ids) (trimmed : Trimmed h s u) {txSlot : Nat} {status : Status}
    (done : pmbTxExecute h s txSlot = some (s', status)) :
    ∃ u', pmbTxExecute h u txSlot = some (u', status) ∧ Trimmed h s' u' := by
  have run : ∀ slot, Leads h
      ((executeLog h s (txIndex txSlot) slot).bind fun s => txSlotMetaUpdProcess h s (txIndex txSlot))
      ((executeLog h u (txIndex txSlot) slot).bind fun s => txSlotMetaUpdProcess h s (txIndex txSlot)) := by
    intro slot
    unfold executeLog
    rw [trimmed.pool]
    exact (trimmed.executeWalk ids _ _ _).bind fun x y same => same.process
  unfold pmbTxExecute txSlotExecute at done ⊢
  rw [trimmed.pool]
  by_cases invalid : txSlot = 0 ∨ txSlot > h.txSlotsCount
  · rw [if_pos invalid] at done ⊢
    cases done
    exact ⟨u, rfl, trimmed⟩
  · rw [if_neg invalid] at done ⊢
    cases direct : backendTxDirect h.backend (txIndex txSlot) with
    | none =>
      rw [direct] at done
      cases done
      exact ⟨_, rfl, trimmed.freeSlot txSlot⟩
    | some slot =>
      rw [direct] at done
      simp only at done ⊢
      by_cases open_slot : slotStatus s.pool.mem slot ≠ TxStatus.commited.code
      · rw [if_pos open_slot] at done ⊢
        cases done
        exact ⟨_, rfl, trimmed.freeSlot txSlot⟩
      · rw [if_neg open_slot] at done ⊢
        obtain ⟨⟨ended, result⟩, execute, finish⟩ := Option.map_eq_some_iff.mp done
        obtain ⟨walked, walk, rest⟩ := Option.bind_eq_some_iff.mp execute
        obtain ⟨processed, process, clear⟩ := Option.map_eq_some_iff.mp rest
        cases clear
        cases finish
        obtain ⟨processed', both, same⟩ := run slot processed (Option.bind_eq_some_iff.mpr ⟨walked, walk, process⟩)
        obtain ⟨walked', walk', process'⟩ := Option.bind_eq_some_iff.mp both
        simp only [walk', Option.bind_some, process', Option.map_some]
        exact ⟨_, rfl, (same.withPool _ _ (by rw [same.pool])).freeSlot txSlot⟩

-- what keeps a call on a new store from the ids that do not belong in its lists
def InRegion (h : Handle) (s : Store) : Call → Prop
  | .tput _ kv => ¬SmallUpdate h kv → (caslistPop s.freeList 0).val < h.totalObjsCount
  | .tputMeta _ _ => False
  | _ => True

theorem Trimmed.calls (ids : h.Ids) (trimmed : Trimmed h s u) {map : TxMap Nat PartialBytes}
    (within : InRegion h s call) (safe : ret.status = .ok → LedgerSafe h ⟨s, map⟩ call) (run : runCall h s call = some (s', ret)) :
    ∃ u', runCall h u call = some (u', ret) ∧ Trimmed h s' u' := by
  cases call with
  | txBegin =>
    cases run
    obtain ⟨same, after⟩ := trimmed.begin
    exact ⟨_, by simp only [runCall, same], after⟩
  | tput txSlot kv =>
    cases run
    obtain ⟨same, after⟩ := trimmed.tput ids txSlot kv within
    exact ⟨_, by simp only [runCall, same], after⟩
  | tputMeta txSlot kv => exact within.elim
  | tdel txSlot blkId =>
    cases run
    obtain ⟨same, after⟩ := trimmed.tdel txSlot blkId
    exact ⟨_, by simp only [runCall, same], after⟩
  | txCommit txSlot =>
    cases run
    obtain ⟨same, after⟩ := trimmed.commit txSlot
    exact ⟨_, by simp only [runCall, same], after⟩
  | txExecute txSlot =>
    obtain ⟨⟨executed, status⟩, done, finish⟩ := Option.map_eq_some_iff.mp run
    cases finish
    obtain ⟨u', done', after⟩ := trimmed.execute ids done
    exact ⟨u', by simp only [runCall, done', Option.map_some], after⟩
  | txAbort txSlot =>
    cases run
    obtain ⟨same, after⟩ := trimmed.abort ids txSlot
    exact ⟨_, by simp only [runCall, same], after⟩
  | resolveConflict blkId1 blkId2 =>
    cases run
    obtain ⟨same, after⟩ := trimmed.resolve ids blkId1 blkId2 safe
    have status : resolveStatus h u blkId1 blkId2 = resolveStatus h s blkId1 blkId2 := by
      rw [resolveStatus, resolveStatus, trimmed.pool]
    exact ⟨_, by simp only [runCall, same, status], after⟩

theorem Trimmed.safe (ids : h.Ids) (trimmed : Trimmed h s u) {map : TxMap Nat PartialBytes} (within : InRegion h s call)
    (safe : LedgerSafe h ⟨s, map⟩ call) : LedgerSafe h ⟨u, map⟩ call := by
  obtain ⟨f, g, more⟩ := trimmed
  cases call with
  | tput txSlot kv =>
    obtain ⟨entry, no_wrap, data, alone⟩ := safe
    refine ⟨entry, no_wrap, data, fun large => ?_⟩
    have same : (caslistPop f 0).val = (caslistPop s.freeList 0).val := (more.pop ids (within large)).1.2
    simp only [same]
    exact alone large
  | tputMeta txSlot kv => exact within.elim
  | _ => exact safe

theorem Trimmed.slotSafe (trimmed : Trimmed h s u) (safe : SlotSafe h s call) : SlotSafe h u call := by
  obtain ⟨f, g, more⟩ := trimmed
  cases call with
  | _ => exact safe

def FirstStep (h : Handle) (t t' : Ledger) : Prop :=
  ∃ call ret, LedgerCall h t call ret t' ∧ InRegion h t.store call

theorem Trimmed.step (ids : h.Ids) {t t' : Ledger} (trimmed : Trimmed h t.store u) (step : FirstStep h t t') :
    ∃ u', LedgerStep h ⟨u, t.map⟩ ⟨u', t'.map⟩ ∧ Trimmed h t'.store u' := by
  obtain ⟨call, ret, ⟨run, slot, safe, map⟩, within⟩ := step
  obtain ⟨u', run', after⟩ := trimmed.calls ids within safe run
  have safe' : ret.status = .ok → LedgerSafe h ⟨u, t.map⟩ call := fun success => trimmed.safe ids within (safe success)
  exact ⟨u', ⟨call, ret, run', trimmed.slotSafe slot, safe', map⟩, after⟩

theorem Trimmed.run (ids : h.Ids) {t t' : Ledger} (trimmed : Trimmed h t.store u)
    (run : Relation.ReflTransGen (FirstStep h) t t') :
    ∃ u', Relation.ReflTransGen (LedgerStep h) ⟨u, t.map⟩ ⟨u', t'.map⟩ ∧ Trimmed h t'.store u' := by
  induction run with
  | refl => exact ⟨u, .refl, trimmed⟩
  | tail _ step ih =>
    obtain ⟨v, before, same⟩ := ih
    obtain ⟨u', last, after⟩ := same.step ids step
    exact ⟨u', before.tail last, after⟩

end Simulation

section NewStores

variable {h : Handle} {s initial : Store} {heap : Nat → Nat → TxMeta}

theorem populateLoop_free (pos : Nat) (s : Store) (g : Option Caslist) :
    (populateLoop h pos { s with metaFreeList := g }).freeList = (populateLoop h pos s).freeList := by
  induction pos generalizing s g with
  | zero => rfl
  | succ pos ih =>
    unfold populateLoop
    split
    · exact ih { s with freeList := caslistPush s.freeList (pos + 1) } g
    · rw [ih s (caslistPush g (pos + 1)), ih s (caslistPush s.metaFreeList (pos + 1))]

theorem openEmpty_free (ids : h.Ids) (s : Store) : ListOf (openEmpty h s).freeList (Finset.Icc 1 h.totalObjsCount) := by
  have nonempty := ids.null_block
  have fit := ids.fit
  have bound : sub64 (u64 (h.totalObjsCount + h.metaObjsCount)) 1 = h.totalObjsCount + h.metaObjsCount - 1 := by
    rw [u64_of_lt fit, sub64_of_le (by omega) fit]
  unfold openEmpty populateFreeList
  rw [bound, ← populateLoop_free _ _ (caslistNew 0 0)]
  have lists := (populateLoop_lists nonempty (by omega) (h.totalObjsCount + h.metaObjsCount - 1) (by omega)
    { s with
      freeList := caslistNew 1 h.totalObjsCount
      metaFreeList := caslistNew 0 0
      objsList := none
      metaObjsList := none } _ _ (caslistNew_spec (le_refl 1) nonempty (by omega)) caslistNew_empty).1
  have covered : Finset.Icc 1 (min (h.totalObjsCount + h.metaObjsCount - 1) (h.totalObjsCount - 1)) ⊆
      Finset.Icc 1 h.totalObjsCount := Finset.Icc_subset_Icc_right (by omega)
  rwa [Finset.union_eq_left.mpr covered] at lists

theorem openEmpty_pool (s : Store) : (openEmpty h s).pool = s.pool :=
  (populateLoop_frame h (sub64 (u64 (h.totalObjsCount + h.metaObjsCount)) 1)
    { s with
      freeList := caslistNew 1 h.totalObjsCount
      metaFreeList := caslistNew 1 h.metaObjsCount
      objsList := none
      metaObjsList := none }).1

theorem zeros_shown (layout : h.LogLayout) {m : Mem} (zeros : ∀ x, h.backend.txLog ≤ x → m x = 0) (id : Nat) :
    shownObjects h m id = none := by
  have missing : pmbGet h m id = .error .enoent := by
    refine pmbGet_dead ?_
    rintro ⟨obj, direct, live⟩
    have above := layout.blocks_above id obj direct
    have start : h.backend.txLog ≤ obj := (Nat.le_add_right _ _).trans above
    exact live (word_of_zeros _ _ _ fun x lower _ => zeros x (by omega))
  rw [shownObjects, missing]

theorem openEmpty_trimmed (rooms : h.Rooms) (zeros : ∀ x, h.backend.txLog ≤ x → s.pool.mem x = 0)
    (clean : ∀ i < h.txSlotsCount, ∀ k < 128, (heap i k).id = 0) (init : txLogInit h s heap = some initial) :
    ∃ u, Trimmed h (openEmpty h initial) u ∧ Recoverable h u := by
  have layout := rooms.toLogLayout
  have settled := settled_created rooms zeros clean init
  have bytes : (openEmpty h initial).pool.mem = s.pool.mem :=
    congrArg Pool.mem ((openEmpty_pool initial).trans (txLogInit_spec layout init).1)
  have dead : ∀ id, shownObjects h (openEmpty h initial).pool.mem id = none := fun id => by
    rw [bytes]
    exact zeros_shown layout zeros id
  obtain ⟨⟨s', reopens⟩, exact⟩ := settled_reopens rooms settled clean
  have shows := (exact s' reopens).2
  refine ⟨_, .mk s'.freeList s'.metaFreeList ⟨_, shows.free .data, ?_, fun id member => ?_⟩,
    ⟨⟨settled.blocks, settled.lists, settled.slots, settled.empty⟩, shows.deadLists.same rfl rfl⟩⟩
  · have all : insert h.totalObjsCount
        {id ∈ h.regionIds .data | shownObjects h (openEmpty h initial).pool.mem id = none} =
          Finset.Icc 1 h.totalObjsCount := by
      have nonempty := rooms.null_block
      ext id
      simp only [Finset.mem_insert, Finset.mem_filter, dead, and_true, Handle.regionIds, Finset.mem_Ico, Finset.mem_Icc]
      omega
    rw [all]
    exact openEmpty_free rooms.toIds initial
  · exact (Finset.mem_Ico.mp (Finset.mem_filter.mp member).1).2

end NewStores

-- the first life of a store: as long as no meta object is put, and the last id of the free list is not taken, the
-- calls return the same and store the same bytes as on a store with exact free lists. So `pmb_get` shows the map of
-- the calls, and `pmb_open` recovers it
theorem first_life_follows {h : Handle} (rooms : h.Rooms) (nonzero : ∀ bytes, h.checksum bytes ≠ 0) {s initial : Store}
    {heap : Nat → Nat → TxMeta} (zeros : ∀ x, h.backend.txLog ≤ x → s.pool.mem x = 0)
    (clean : ∀ i < h.txSlotsCount, ∀ k < 128, (heap i k).id = 0) (init : txLogInit h s heap = some initial) {t : Ledger}
    (run : Relation.ReflTransGen (FirstStep h) (Ledger.start h (openEmpty h initial)) t) :
    (∃ u₀ u, Recoverable h u₀ ∧ Relation.ReflTransGen (LedgerStep h) (Ledger.start h u₀) u ∧
      u.map = t.map ∧ u.store.pool = t.store.pool) ∧
      Means h t.store.pool.mem t.map.objects ∧ (t.RecoverySafe h → ∀ m heap,
        Relation.ReflTransGen (KilledOpen h) t.store.pool.mem m → (∃ s', Reopens h heap (t.store.crashed m) s') ∧
          ∀ s', Reopens h heap (t.store.crashed m) s' →
            Shows h s' (recoveredMap h t.store.pool.mem t.map).objects) := by
  obtain ⟨u₀, trimmed, ready⟩ := openEmpty_trimmed rooms zeros clean init
  have starts : Ledger.start h u₀ = ⟨u₀, (Ledger.start h (openEmpty h initial)).map⟩ := by
    rw [Ledger.start, Ledger.start, trimmed.pool]
  obtain ⟨u, follows, same⟩ := trimmed.run rooms.toIds (t := Ledger.start h (openEmpty h initial)) run
  rw [← starts] at follows
  have pool := same.pool
  have inv := (LedgerInv.start ready).run rooms nonzero follows
  have means := inv.held.means
  refine ⟨⟨u₀, ⟨u, t.map⟩, ready, follows, rfl, pool⟩, by rwa [← pool], fun safe m heap kills => ?_⟩
  have safe' : Ledger.RecoverySafe h ⟨u, t.map⟩ := by
    obtain ⟨f, g, -⟩ := same
    intro i member opened
    obtain ⟨steps, plain, alone, room⟩ := safe i member opened
    exact ⟨steps, plain, alone, room⟩
  rw [← pool] at kills ⊢
  obtain ⟨opens, recovers⟩ := (inv.crashImage rooms.toLogLayout safe').reopened rooms kills heap
  exact ⟨opens, fun s' reopens => (recovers s' reopens).shows⟩

-- a new pool with two slots
def newTwoSlot : Store :=
  { zeroStore with txSlotsList := some ⟨2, 1, 2, []⟩, updIdList := fun _ => ⟨0, fun _ => ⟨0, 0, 0⟩⟩ }

def newBegun : Ledger :=
  (Ledger.start twoSlotHandle (openEmpty twoSlotHandle newTwoSlot)).after twoSlotHandle .txBegin ⟨.ok, 1, 0⟩

def newPut : Ledger := newBegun.after twoSlotHandle (.tput 1 (onePair 0)) ⟨.ok, 1, 1⟩

theorem first_life_follows_sample : Means twoSlotHandle newPut.store.pool.mem newPut.map.objects := by
  have loop : slotIdsLoop twoSlotHandle (2 ^ 8) 1 (caslistNew 1 twoSlotHandle.txSlotsCount) =
      some (some ⟨2, 1, 2, []⟩) := by decide +kernel
  have init : txLogInit twoSlotHandle zeroStore (fun _ _ => ⟨0, 0, 0⟩) = some newTwoSlot := by
    simp only [txLogInit, loop, Option.map_some]
    rfl
  have begins : LedgerCall twoSlotHandle (Ledger.start twoSlotHandle (openEmpty twoSlotHandle newTwoSlot)) .txBegin
      ⟨.ok, 1, 0⟩ newBegun := .after _ _ (by decide +kernel) rfl trivial trivial
  have puts : LedgerCall twoSlotHandle newBegun (.tput 1 (onePair 0)) ⟨.ok, 1, 1⟩ newPut :=
    put_called 1 1 (by decide +kernel) (by decide +kernel)
  have inside : (caslistPop newBegun.store.freeList 0).val < twoSlotHandle.totalObjsCount := by decide +kernel
  exact (first_life_follows twoSlotHandle_layout.rooms twoSlotHandle_nonzero (fun _ _ => rfl) (fun _ _ _ _ => rfl) init
    ((Relation.ReflTransGen.single ⟨_, _, begins, trivial⟩).tail ⟨_, _, puts, fun _ => inside⟩)).2.1

end PmBackend
