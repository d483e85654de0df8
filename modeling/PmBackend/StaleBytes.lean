import PmBackend.CallsAlike

set_option autoImplicit false

namespace PmBackend

open ByteMemory

def Call.valBytes : Call → List UInt8
  | .tput _ kv => kv.valBytes
  | .tputMeta _ kv => kv.valBytes
  | _ => []

-- a new block keeps a byte of the old value
def CopiesOld (h : Handle) (m : Mem) (kv : PmbPair) : Prop :=
  ∃ old, backendGet h m kv.blkId = .ok old ∧
    ∃ k < keptLen m kv (some old), k < kv.offset ∨ kv.offset + kv.valLen ≤ k

structure Twins where
  left : Store
  right : Store
  secret : Set Nat

def Twins.written (t : Twins) (blkId : Nat) (differs : Prop) : Set Nat :=
  {id | (id = blkId ∧ differs) ∨ (id ≠ blkId ∧ id ∈ t.secret)}

-- the bytes of a put, the old bytes it keeps and the bytes of the updates that are executed
def Twins.next (h : Handle) (t : Twins) (ret : Return) (call' : Call) : Call → Set Nat
  | .tput _ kv =>
    if kv.blkId ≠ 0 ∧ kv.valLen < h.maxValLen / 2 then t.secret
    else
      t.written ret.blkId
        (call'.valBytes ≠ kv.valBytes ∨ (kv.blkId ∈ t.secret ∧ CopiesOld h t.left.pool.mem kv))
  | .tputMeta _ kv => t.written ret.blkId (call'.valBytes ≠ kv.valBytes)
  | .txExecute txSlot =>
    executedSecret h t.secret t.left.pool.mem t.right.pool.mem (h.slotAddr (txSlot - 1))
  | .txAbort txSlot => t.secret \ {id | id ∈ abortedIds t.left.pool.mem (h.slotAddr (txSlot - 1))}
  | _ => t.secret

-- the bytes before the offset of a put, beyond the old value, are zero in the block it gets
def PutShielded (h : Handle) (s : Store) (kv : PmbPair) : Prop :=
  (kv.blkId ≠ 0 → kv.blkId < h.totalObjsCount ∧ kv.blkId ≠ (caslistPop s.freeList 0).val) ∧
    ∀ obj, backendDirect h.backend (caslistPop s.freeList 0).val = some obj → ∀ k < kv.offset,
      (∀ old, backendGet h s.pool.mem kv.blkId = .ok old → valLen s.pool.mem old ≤ k) →
        s.pool.mem (obj + 32 + h.maxKeyLen + k) = 0

-- no byte that an object shows after the call was left behind by another one
structure Shielded (h : Handle) (s : Store) (call : Call) : Prop where
  seals : SealSafe h s call
  words : ∀ txSlot op, callOp h s call = some (txSlot, op) → op.Words
  put : ∀ txSlot kv, call = .tput txSlot kv → ¬SmallUpdate h kv → PutShielded h s kv
  execute : ∀ txSlot, call = .txExecute txSlot → ExecuteShielded h s (txSlot - 1)
  abort : ∀ txSlot, call = .txAbort txSlot → AbortShielded s.pool.mem (h.slotAddr (txSlot - 1))

def TwinStep (h : Handle) (t t' : Twins) : Prop :=
  ∃ call call' ret ret', call.Alike call' ∧ runCall h t.left call = some (t'.left, ret) ∧
    runCall h t.right call' = some (t'.right, ret') ∧
    (ret.status = .ok → (Shielded h t.left call ∧ Shielded h t.right call') ∧ t'.secret = t.next h ret call' call) ∧
    (ret.status ≠ .ok → t'.secret = t.secret)

structure TwinsAlike (h : Handle) (t : Twins) : Prop where
  stores : StoresAlike h t.secret t.left t.right
  slots : SlotsAlike h t.left.pool.mem t.right.pool.mem
  blocks : SealedBut h t.left.pool.mem ∅
  lists : ∀ i < h.txSlotsCount, CleanList (t.left.updIdList i)

section Steps

variable {h : Handle} {secret : Set Nat} {s s' t t' : Store} {kv kv' out out' : PmbPair} {txSlot : Nat} {old : Option Nat}

theorem OldBlock.logged (rooms : h.Rooms) {m m' : Mem} {blkId : Nat} {old : Option Nat}
    (changed : ChangedIn h.logArea m m') (found : OldBlock h m blkId old) : OldBlock h m' blkId old := by
  unfold OldBlock
  simp only [(ChangedIn.blocks_untouched rooms.toLogLayout changed blkId).backendGet (rooms.room blkId)]
  exact found

theorem StoresAlike.append (rooms : h.Rooms) (alike : StoresAlike h secret s s')
    (slots : SlotsAlike h s.pool.mem s'.pool.mem) (blocks : SealedBut h s.pool.mem ∅)
    (bounds : txSlot ≠ 0 ∧ txSlot ≤ h.txSlotsCount) {op op' : LogOp} (ops : op.Alike op') (words : op.Words)
    (words' : op'.Words) (fits : EntryFits h s txSlot op.len) (done : op.run h s txSlot = (t, .ok))
    (done' : op'.run h s' txSlot = (t', .ok)) :
    (StoresAlike h secret t t' ∧ SlotsAlike h t.pool.mem t'.pool.mem) ∧
      ChangedIn h.logArea s.pool.mem t.pool.mem ∧ ChangedIn h.logArea s'.pool.mem t'.pool.mem := by
  have layout := rooms.toLogLayout
  obtain ⟨i, rfl⟩ : ∃ i, txSlot = i + 1 := ⟨txSlot - 1, by omega⟩
  have known : i < h.txSlotsCount := by omega
  have append := done
  have append' := done'
  rw [LogOp.run_eq] at append append'
  obtain ⟨processing, same⟩ := txSlotAppend_ok layout known append
  obtain ⟨-, same'⟩ := txSlotAppend_ok layout known append'
  obtain ⟨only, only', logs⟩ := slots.append layout known ops words words' processing (fits processing)
  rw [done] at only logs
  rw [done'] at only' logs
  have changed := ChangedIn.mono only (slotArea_log known)
  have changed' := ChangedIn.mono only' (slotArea_log known)
  refine ⟨⟨⟨?_, ?_⟩, logs⟩, changed, changed'⟩
  · rw [same', same, alike.rest]
  · exact alike.blocks.log rooms (fun id obj direct => blocks.contained id obj direct) changed changed'

theorem OldBlock.get (found : OldBlock h s.pool.mem kv.blkId old) {obj : Nat} (get : backendGet h s.pool.mem kv.blkId = .ok obj) :
    old = some obj := by
  rcases found with ⟨null, -⟩ | ⟨-, addr, there, rfl⟩
  · exact absurd null (backendGet_ok.mp get).1
  · rw [get] at there
    cases there
    rfl

theorem OldBlock.keptLen_logged (rooms : h.Rooms) {m : Mem} (changed : ChangedIn h.logArea s.pool.mem m)
    (found : OldBlock h s.pool.mem kv.blkId old) :
    (∀ obj ∈ old, valLen m obj = valLen s.pool.mem obj) ∧ keptLen m kv old = keptLen s.pool.mem kv old := by
  have same : ∀ obj ∈ old, valLen m obj = valLen s.pool.mem obj := by
    intro obj member
    rcases found with ⟨-, rfl⟩ | ⟨-, addr, get, rfl⟩
    · cases member
    · cases member
      exact ((ChangedIn.blocks_untouched rooms.toLogLayout changed kv.blkId).words (backendGet_ok.mp get).2.1
        (rooms.room kv.blkId)).2.2.2.2
  refine ⟨same, ?_⟩
  unfold keptLen
  cases old with
  | none => rfl
  | some obj => simp only [Option.elim_some, same obj rfl]

theorem PutShielded.gap (rooms : h.Rooms) (shield : PutShielded h s kv) (seals : PutSeals h s kv) {m : Mem} {obj k : Nat}
    (changed : ChangedIn h.logArea s.pool.mem m) (direct : backendDirect h.backend (caslistPop s.freeList 0).val = some obj)
    (fits : kv.offset + kv.valLen ≤ h.maxValLen) (below : k < kv.offset)
    (beyond : ∀ old, backendGet h s.pool.mem kv.blkId = .ok old → valLen s.pool.mem old ≤ k) :
    m (obj + 32 + h.maxKeyLen + k) = 0 := by
  have room := rooms.data_room
  rw [ChangedIn.blocks_untouched rooms.toLogLayout changed (caslistPop s.freeList 0).val _ (by
    rw [blockAt_span direct, blockSize_data seals.data, mem_span]
    omega)]
  exact shield.2 obj direct k below beyond

theorem StoresAlike.newBlock (rooms : h.Rooms) (nonzero : ∀ bytes, h.checksum bytes ≠ 0) (alike : StoresAlike h secret s s')
    (slots : SlotsAlike h s.pool.mem s'.pool.mem) (blocks : SealedBut h s.pool.mem ∅) (pairs : kv.Alike kv')
    (args : TputArgs h txSlot kv) (fits : EntryFits h s txSlot sizeofTxEntry) (seals : PutSeals h s kv)
    (seals' : PutSeals h s' kv') (words : (newBlockOp kv.blkId (caslistPop s.freeList 0).val).Words)
    (shield : PutShielded h s kv) (shield' : PutShielded h s' kv') (found : OldBlock h s.pool.mem kv.blkId old)
    (done : tputNewBlock h s txSlot kv old = (t, .ok, out)) (done' : tputNewBlock h s' txSlot kv' old = (t', .ok, out')) :
    StoresAlike h ((Twins.mk s s' secret).written out.blkId
        (kv'.valBytes ≠ kv.valBytes ∨ (kv.blkId ∈ secret ∧ CopiesOld h s.pool.mem kv))) t t' ∧
      SlotsAlike h t.pool.mem t'.pool.mem := by
  have layout := rooms.toLogLayout
  obtain ⟨⟨blkId', -, offset'⟩, -, -, valLen'⟩ := pairs.fields
  obtain ⟨p, rfl⟩ : ∃ p, s' = { s with pool := p } := ⟨s'.pool, alike.rest⟩
  obtain ⟨-, obj, logged, direct, log, rfl, rfl⟩ := tputNewBlock_ok done
  obtain ⟨-, obj', logged', direct', log', rfl, -⟩ := tputNewBlock_ok done'
  obtain rfl : obj = obj' := Option.some.inj (direct.symm.trans direct')
  rw [logNewBlock_op] at log log'
  rw [blkId'] at log'
  have taken : StoresAlike h secret { s with freeList := (caslistPop s.freeList 0).list }
      { s with pool := p, freeList := (caslistPop s.freeList 0).list } := ⟨rfl, alike.blocks⟩
  have value := args.value_fits
  rw [u32_of_lt seals.no_wrap] at value
  obtain ⟨⟨stores, logs⟩, changed, changed'⟩ := taken.append rooms slots blocks ⟨args.slot_positive, args.slot_known⟩
    (LogOp.Alike.refl _) words words (by rw [newBlockOp_len]; exact fits) log log'
  obtain ⟨lens, kept⟩ := found.keptLen_logged rooms changed
  have sealed := blocks.log rooms changed
  have gets := alike.blocks.get kv.blkId
  refine ⟨⟨congrArg (fun u => { u with pool := tputBlock h logged'.pool obj old kv' }) stores.rest, ?_⟩,
    logs.blocks layout (tputBlock_blocksOnly layout logged direct old kv).changed
      (tputBlock_blocksOnly layout logged' direct old kv').changed⟩
  refine stores.blocks.dataBlock rooms nonzero (fun id obj direct => sealed.contained id obj direct) seals.data seals.alone
    direct (found.logged rooms changed) shield.1 pairs (keyBytes_eq args.key) (valBytes_eq args.val) args.key_fits
    args.no_offset value (fun k below beyond => ?_) (fun open_ => ?_) fun j other open_ hidden =>
      open_ (Or.inr ⟨other, hidden⟩)
  · have before : ∀ oldObj, backendGet h s.pool.mem kv.blkId = .ok oldObj → valLen s.pool.mem oldObj ≤ k := by
      intro oldObj get
      have member : oldObj ∈ old := found.get get
      rw [← lens oldObj member]
      exact beyond oldObj member
    have zero := shield.gap rooms seals changed direct value below before
    have zero' := shield'.gap rooms seals' changed' direct (by rw [offset', valLen']; exact value)
      (by rw [offset']; exact below) fun oldObj get => by
        rw [blkId', gets] at get
        rw [(alike.blocks kv.blkId oldObj (backendGet_ok.mp get).2.1).val_len]
        exact before oldObj get
    exact zero'.trans zero.symm
  · have same : ¬(kv'.valBytes ≠ kv.valBytes ∨ (kv.blkId ∈ secret ∧ CopiesOld h s.pool.mem kv)) := fun differs =>
      open_ (Or.inl ⟨rfl, differs⟩)
    rw [not_or, not_not, not_and] at same
    refine ⟨same.1, fun hidden k inside => ?_⟩
    by_contra outside
    rw [kept] at inside
    rcases found with ⟨-, rfl⟩ | ⟨-, oldObj, get, rfl⟩
    · simp [keptLen] at inside
    · exact same.2 hidden ⟨oldObj, get, k, inside, by omega⟩

theorem StoresAlike.newMetaBlock (rooms : h.Rooms) (nonzero : ∀ bytes, h.checksum bytes ≠ 0)
    (alike : StoresAlike h secret s s') (slots : SlotsAlike h s.pool.mem s'.pool.mem) (blocks : SealedBut h s.pool.mem ∅)
    (pairs : kv.Alike kv') (args : TputMetaArgs h txSlot kv) (fits : EntryFits h s txSlot sizeofTxEntry)
    (seals : PutMetaSeals h s kv) (words : (newBlockOp kv.blkId (caslistPop s.metaFreeList 0).val).Words)
    (found : OldBlock h s.pool.mem kv.blkId old) (done : tputMetaNewBlock h s txSlot kv old = (t, .ok, out))
    (done' : tputMetaNewBlock h s' txSlot kv' old = (t', .ok, out')) :
    StoresAlike h ((Twins.mk s s' secret).written out.blkId (kv'.valBytes ≠ kv.valBytes)) t t' ∧
      SlotsAlike h t.pool.mem t'.pool.mem := by
  have layout := rooms.toLogLayout
  have room := rooms.meta_room
  have small := rooms.metaBsize_small
  obtain ⟨⟨blkId', -, -⟩, -, -, -⟩ := pairs.fields
  obtain ⟨p, rfl⟩ : ∃ p, s' = { s with pool := p } := ⟨s'.pool, alike.rest⟩
  obtain ⟨-, obj, logged, direct, log, rfl, rfl⟩ := tputMetaNewBlock_ok done
  obtain ⟨-, obj', logged', direct', log', rfl, -⟩ := tputMetaNewBlock_ok done'
  obtain rfl : obj = obj' := Option.some.inj (direct.symm.trans direct')
  rw [logNewBlock_op] at log log'
  rw [blkId'] at log'
  have taken : StoresAlike h secret { s with metaFreeList := (caslistPop s.metaFreeList 0).list }
      { s with pool := p, metaFreeList := (caslistPop s.metaFreeList 0).list } := ⟨rfl, alike.blocks⟩
  have value := args.fits
  rw [u32_of_lt seals.no_wrap, u32_of_lt (by omega)] at value
  obtain ⟨⟨stores, logs⟩, changed, -⟩ := taken.append rooms slots blocks ⟨args.slot_positive, args.slot_known⟩
    (LogOp.Alike.refl _) words words (by rw [newBlockOp_len]; exact fits) log log'
  have sealed := blocks.log rooms changed
  refine ⟨⟨congrArg (fun u => { u with pool := tputMetaBlock h logged'.pool obj old kv' }) stores.rest, ?_⟩,
    logs.blocks layout (tputMetaBlock_blocksOnly layout logged direct old kv).changed
      (tputMetaBlock_blocksOnly layout logged' direct old kv').changed⟩
  refine stores.blocks.metaBlock rooms nonzero (fun id obj direct => sealed.contained id obj direct) seals.metadata
    seals.alone direct (found.logged rooms changed) pairs (keyBytes_eq args.key) (valBytes_eq (Or.inr args.val)) value
    (fun open_ => ?_) fun j other open_ hidden => open_ (Or.inr ⟨other, hidden⟩)
  by_contra differs
  exact open_ (Or.inl ⟨rfl, differs⟩)

theorem StoresAlike.begun (rooms : h.Rooms) {p : Pool} (alike : StoresAlike h secret s { s with pool := p })
    (slots : SlotsAlike h s.pool.mem p.mem) (blocks : SealedBut h s.pool.mem ∅)
    (success : (pmbTxBegin h s).2.1 = .ok) :
    StoresAlike h secret (pmbTxBegin h s).1 (pmbTxBegin h { s with pool := p }).1 ∧
      SlotsAlike h (pmbTxBegin h s).1.pool.mem (pmbTxBegin h { s with pool := p }).1.pool.mem := by
  have layout := rooms.toLogLayout
  have success' : (pmbTxBegin h { s with pool := p }).2.1 = .ok := by rw [(pmbTxBegin_alike s p).1, success]
  obtain ⟨changed, only⟩ := pmbTxBegin_only layout success
  obtain ⟨changed', only'⟩ := pmbTxBegin_only layout success'
  have done : pmbTxBegin h s = ((pmbTxBegin h s).1, .ok, (pmbTxBegin h s).2.2) := Prod.ext rfl (Prod.ext success rfl)
  obtain ⟨popped, val, i, known, slot, -⟩ := pmbTxBegin_ok layout done
  have init : ∀ q, (pmbTxBegin h { s with pool := q }).1 =
      (txSlotInit h { s with pool := q, txSlotsList := (caslistPop s.txSlotsList 0).list } (i + 1)).1 := by
    intro q
    unfold pmbTxBegin
    simp only
    rw [if_neg (not_not.mpr popped), val, slot]
  refine ⟨⟨?_, alike.blocks.log rooms (fun id obj direct => blocks.contained id obj direct) changed changed'⟩, ?_⟩
  · rw [only', only]
  · rw [init p, show (pmbTxBegin h s).1 = _ from init s.pool]
    exact SlotsAlike.init layout (s := { s with txSlotsList := (caslistPop s.txSlotsList 0).list }) slots known

theorem StoresAlike.commited (rooms : h.Rooms) (alike : StoresAlike h secret s s')
    (slots : SlotsAlike h s.pool.mem s'.pool.mem) (blocks : SealedBut h s.pool.mem ∅)
    (success : (pmbTxCommit h s txSlot).2 = .ok) :
    StoresAlike h secret (pmbTxCommit h s txSlot).1 (pmbTxCommit h s' txSlot).1 ∧
      SlotsAlike h (pmbTxCommit h s txSlot).1.pool.mem (pmbTxCommit h s' txSlot).1.pool.mem := by
  have layout := rooms.toLogLayout
  obtain ⟨changed, only⟩ := pmbTxCommit_only layout s txSlot
  obtain ⟨changed', only'⟩ := pmbTxCommit_only layout s' txSlot
  refine ⟨⟨by rw [only', only, alike.rest], alike.blocks.log rooms (fun id obj direct => blocks.contained id obj direct)
    changed changed'⟩, ?_⟩
  unfold pmbTxCommit at success ⊢
  split at success
  · cases success
  · next accepted =>
    obtain ⟨i, rfl⟩ : ∃ i, txSlot = i + 1 := ⟨txSlot - 1, by omega⟩
    have known : i < h.txSlotsCount := by omega
    rw [if_neg accepted, if_neg accepted]
    refine slots.commit layout known ?_
    by_contra other
    rw [txSlotCommit_eq layout s known, if_neg other] at success
    cases success

theorem StoresAlike.executed (rooms : h.Rooms) (nonzero : ∀ bytes, h.checksum bytes ≠ 0) (alike : StoresAlike h secret s s')
    (slots : SlotsAlike h s.pool.mem s'.pool.mem) (blocks : SealedBut h s.pool.mem ∅)
    (lists : ∀ i < h.txSlotsCount, CleanList (s.updIdList i)) (safe : UpdatesFit h s (txSlot - 1))
    (shield : ExecuteShielded h s (txSlot - 1)) (shield' : ExecuteShielded h s' (txSlot - 1))
    (done : pmbTxExecute h s txSlot = some (t, .ok)) (done' : pmbTxExecute h s' txSlot = some (t', .ok)) :
    StoresAlike h (executedSecret h secret s.pool.mem s'.pool.mem (h.slotAddr (txSlot - 1))) t t' ∧
      SlotsAlike h t.pool.mem t'.pool.mem := by
  unfold pmbTxExecute at done done'
  split at done
  · cases done
  · next accepted =>
    rw [if_neg accepted] at done'
    obtain ⟨i, rfl⟩ : ∃ i, txSlot = i + 1 := ⟨txSlot - 1, by omega⟩
    have known : i < h.txSlotsCount := by omega
    obtain ⟨⟨run, code⟩, execute, same⟩ := Option.map_eq_some_iff.mp done
    obtain ⟨⟨run', code'⟩, execute', same'⟩ := Option.map_eq_some_iff.mp done'
    cases same
    cases same'
    obtain ⟨stores, logs⟩ := execute_alike rooms nonzero alike slots blocks known (lists i known) safe shield shield' execute
      execute'
    refine ⟨⟨?_, stores.blocks⟩, logs⟩
    rw [txLogFreeSlot, txLogFreeSlot, stores.rest]

theorem StoresAlike.aborted (rooms : h.Rooms) (alike : StoresAlike h secret s s')
    (slots : SlotsAlike h s.pool.mem s'.pool.mem) (blocks : SealedBut h s.pool.mem ∅) (safe : AbortsAlone h s (txSlot - 1))
    (safe' : AbortsAlone h s' (txSlot - 1)) (shield : AbortShielded s.pool.mem (h.slotAddr (txSlot - 1)))
    (shield' : AbortShielded s'.pool.mem (h.slotAddr (txSlot - 1))) (success : (pmbTxAbort h s txSlot).2 = .ok)
    (success' : (pmbTxAbort h s' txSlot).2 = .ok) :
    StoresAlike h (secret \ {id | id ∈ abortedIds s.pool.mem (h.slotAddr (txSlot - 1))}) (pmbTxAbort h s txSlot).1
        (pmbTxAbort h s' txSlot).1 ∧
      SlotsAlike h (pmbTxAbort h s txSlot).1.pool.mem (pmbTxAbort h s' txSlot).1.pool.mem := by
  unfold pmbTxAbort at success success' ⊢
  split at success
  · cases success
  · next accepted =>
    rw [if_neg accepted] at success'
    rw [if_neg accepted, if_neg accepted]
    obtain ⟨i, rfl⟩ : ∃ i, txSlot = i + 1 := ⟨txSlot - 1, by omega⟩
    have known : i < h.txSlotsCount := by omega
    have done : txSlotAbort h s (i + 1) = ((txSlotAbort h s (i + 1)).1, .ok) := Prod.ext rfl success
    have done' : txSlotAbort h s' (i + 1) = ((txSlotAbort h s' (i + 1)).1, .ok) := Prod.ext rfl success'
    obtain ⟨stores, logs⟩ := abort_alike rooms alike slots blocks known safe safe' shield shield' done done'
    refine ⟨⟨?_, stores.blocks⟩, logs⟩
    simp only
    rw [txLogFreeSlot, txLogFreeSlot, stores.rest]

theorem StoresAlike.put (rooms : h.Rooms) (nonzero : ∀ bytes, h.checksum bytes ≠ 0) (alike : StoresAlike h secret s s')
    (slots : SlotsAlike h s.pool.mem s'.pool.mem) (blocks : SealedBut h s.pool.mem ∅) (pairs : kv.Alike kv')
    (shield : Shielded h s (.tput txSlot kv)) (shield' : Shielded h s' (.tput txSlot kv'))
    (done : pmbTput h s txSlot kv = (t, .ok, out)) (done' : pmbTput h s' txSlot kv' = (t', .ok, out')) :
    StoresAlike h ((Twins.mk s s' secret).next h ⟨.ok, txSlot, out.blkId⟩ (.tput txSlot kv') (.tput txSlot kv)) t t' ∧
      SlotsAlike h t.pool.mem t'.pool.mem := by
  obtain ⟨⟨blkId', -, offset'⟩, -, -, valLen'⟩ := pairs.fields
  have sizes : SmallUpdate h kv' ↔ SmallUpdate h kv := by rw [SmallUpdate, SmallUpdate, blkId', valLen']
  have words := shield.words txSlot _ rfl
  have words' := shield'.words txSlot _ rfl
  obtain ⟨fits, seals⟩ := shield.seals
  obtain ⟨-, seals'⟩ := shield'.seals
  obtain ⟨args, ⟨small, append, -⟩ | ⟨large, old, found, new⟩⟩ := pmbTput_ok done
  · obtain ⟨-, ⟨small', append', -⟩ | ⟨large', -⟩⟩ := pmbTput_ok done'
    · have updates : kv.blkId ≠ 0 ∧ kv.valLen < h.maxValLen / 2 := small
      have updates' : kv'.blkId ≠ 0 ∧ kv'.valLen < h.maxValLen / 2 := small'
      rw [if_pos updates] at words
      rw [if_pos updates'] at words'
      rw [tputEntryLen, if_pos updates] at fits
      have ops : (LogOp.smallUpdate kv.blkId kv.valBytes kv.offset).Alike (.smallUpdate kv'.blkId kv'.valBytes kv'.offset) :=
        ⟨kv'.valBytes, by rw [blkId', offset'], pairs.length⟩
      rw [Twins.next, if_pos updates]
      exact (alike.append rooms slots blocks ⟨args.slot_positive, args.slot_known⟩ ops words words' fits append append').1
    · exact absurd (sizes.mpr small) large'
  · obtain ⟨-, ⟨small', -⟩ | ⟨large', old', found', new'⟩⟩ := pmbTput_ok done'
    · exact absurd (sizes.mp small') large
    · have others : ¬(kv.blkId ≠ 0 ∧ kv.valLen < h.maxValLen / 2) := large
      rw [if_neg others] at words
      rw [tputEntryLen, if_neg others] at fits
      unfold OldBlock at found'
      rw [blkId', alike.blocks.get kv.blkId] at found'
      obtain rfl : old' = old := OldBlock.unique found found'
      rw [Twins.next, if_neg others]
      exact alike.newBlock rooms nonzero slots blocks pairs args fits (seals large) (seals' large') words
        (shield.put txSlot kv rfl large) (shield'.put txSlot kv' rfl large') found new new'

theorem StoresAlike.metaPut (rooms : h.Rooms) (nonzero : ∀ bytes, h.checksum bytes ≠ 0) (alike : StoresAlike h secret s s')
    (slots : SlotsAlike h s.pool.mem s'.pool.mem) (blocks : SealedBut h s.pool.mem ∅) (pairs : kv.Alike kv')
    (shield : Shielded h s (.tputMeta txSlot kv)) (done : pmbTputMeta h s txSlot kv = (t, .ok, out))
    (done' : pmbTputMeta h s' txSlot kv' = (t', .ok, out')) :
    StoresAlike h ((Twins.mk s s' secret).written out.blkId (kv'.valBytes ≠ kv.valBytes)) t t' ∧
      SlotsAlike h t.pool.mem t'.pool.mem := by
  have blkId' := pairs.fields.1.1
  obtain ⟨args, old, found, new⟩ := pmbTputMeta_ok done
  obtain ⟨-, old', found', new'⟩ := pmbTputMeta_ok done'
  unfold OldBlock at found'
  rw [blkId', alike.blocks.get kv.blkId] at found'
  obtain rfl : old' = old := OldBlock.unique found found'
  exact alike.newMetaBlock rooms nonzero slots blocks pairs args shield.seals.1 shield.seals.2
    (shield.words txSlot _ rfl) found new new'

theorem TwinsAlike.succeeded (rooms : h.Rooms) (nonzero : ∀ bytes, h.checksum bytes ≠ 0)
    (inv : TwinsAlike h ⟨s, s', secret⟩) {call call' : Call} {ret : Return} (calls : call.Alike call')
    (run : runCall h s call = some (t, ret)) (run' : runCall h s' call' = some (t', ret)) (success : ret.status = .ok)
    (shield : Shielded h s call) (shield' : Shielded h s' call') :
    StoresAlike h ((Twins.mk s s' secret).next h ret call' call) t t' ∧ SlotsAlike h t.pool.mem t'.pool.mem := by
  obtain ⟨alike, slots, blocks, lists⟩ := inv
  simp only at alike slots blocks lists
  cases call with
  | txBegin =>
    cases calls
    cases run
    obtain ⟨p, rfl⟩ : ∃ p, s' = { s with pool := p } := ⟨s'.pool, alike.rest⟩
    obtain ⟨rfl, -⟩ := Prod.mk.inj (Option.some.inj run')
    exact alike.begun rooms slots blocks success
  | tput txSlot kv =>
    obtain ⟨kv', rfl, pairs⟩ := calls
    cases run
    obtain ⟨rfl, same⟩ := Prod.mk.inj (Option.some.inj run')
    have success' : (pmbTput h s' txSlot kv').2.1 = .ok := (congrArg Return.status same).trans success
    have put := alike.put rooms nonzero slots blocks pairs shield shield' (Prod.ext rfl (Prod.ext success rfl))
      (Prod.ext rfl (Prod.ext success' rfl))
    exact put
  | tputMeta txSlot kv =>
    obtain ⟨kv', rfl, pairs⟩ := calls
    cases run
    obtain ⟨rfl, same⟩ := Prod.mk.inj (Option.some.inj run')
    have success' : (pmbTputMeta h s' txSlot kv').2.1 = .ok := (congrArg Return.status same).trans success
    exact alike.metaPut rooms nonzero slots blocks pairs shield (Prod.ext rfl (Prod.ext success rfl))
      (Prod.ext rfl (Prod.ext success' rfl))
  | tdel txSlot blkId =>
    cases calls
    cases run
    obtain ⟨rfl, same⟩ := Prod.mk.inj (Option.some.inj run')
    have success' : (pmbTdel h s' txSlot blkId).2 = .ok := (congrArg Return.status same).trans success
    obtain ⟨bounds, -, append⟩ := pmbTdel_ok (Prod.ext rfl success)
    obtain ⟨-, -, append'⟩ := pmbTdel_ok (Prod.ext rfl success')
    exact (alike.append rooms slots blocks bounds (LogOp.Alike.refl (.remove blkId)) (shield.words txSlot _ rfl)
      (shield.words txSlot _ rfl) shield.seals append append').1
  | txCommit txSlot =>
    cases calls
    cases run
    obtain ⟨rfl, -⟩ := Prod.mk.inj (Option.some.inj run')
    exact alike.commited rooms slots blocks success
  | txExecute txSlot =>
    cases calls
    obtain ⟨⟨done, code⟩, execute, same⟩ := Option.map_eq_some_iff.mp run
    obtain ⟨⟨done', code'⟩, execute', same'⟩ := Option.map_eq_some_iff.mp run'
    cases same
    obtain ⟨rfl, codes⟩ := Prod.mk.inj same'
    obtain rfl : code' = code := congrArg Return.status codes
    obtain rfl : code' = .ok := success
    exact alike.executed rooms nonzero slots blocks lists shield.seals (shield.execute txSlot rfl)
      (shield'.execute txSlot rfl) execute execute'
  | txAbort txSlot =>
    cases calls
    cases run
    obtain ⟨rfl, same⟩ := Prod.mk.inj (Option.some.inj run')
    have success' : (pmbTxAbort h s' txSlot).2 = .ok := (congrArg Return.status same).trans success
    exact alike.aborted rooms slots blocks shield.seals shield'.seals (shield.abort txSlot rfl) (shield'.abort txSlot rfl)
      success success'
  | resolveConflict blkId1 blkId2 =>
    cases calls
    cases run
    obtain ⟨p, rfl⟩ : ∃ p, s' = { s with pool := p } := ⟨s'.pool, alike.rest⟩
    obtain ⟨rfl, -⟩ := Prod.mk.inj (Option.some.inj run')
    exact (pmbResolveConflict_alike rooms alike slots blocks blkId1 blkId2).2.2

end Steps

theorem TwinsAlike.step {h : Handle} (rooms : h.Rooms) (nonzero : ∀ bytes, h.checksum bytes ≠ 0) {t t' : Twins}
    (inv : TwinsAlike h t) (step : TwinStep h t t') : TwinsAlike h t' := by
  obtain ⟨call, call', ret, ret', calls, run, run', succeeds, fails⟩ := step
  obtain ⟨same, refused⟩ := runCall_alike rooms inv.stores inv.slots inv.blocks calls run run'
  subst same
  by_cases success : ret'.status = .ok
  · obtain ⟨⟨shield, shield'⟩, secret⟩ := succeeds success
    obtain ⟨blocks, lists⟩ := runCall_seals rooms inv.blocks inv.lists shield.seals run success
    obtain ⟨stores, slots⟩ := inv.succeeded rooms nonzero calls run run' success shield shield'
    exact ⟨by rw [secret]; exact stores, slots, blocks, lists⟩
  · have lists := refused success
    obtain ⟨pool, pool', updates⟩ := lists.stays
    refine ⟨by rw [fails success]; exact lists.alike inv.stores, ?_, by rw [pool]; exact inv.blocks,
      by rw [updates]; exact inv.lists⟩
    rw [pool, pool']
    exact inv.slots

theorem TwinsAlike.start {h : Handle} (rooms : h.Rooms) {s : Store} (zeros : ∀ x, h.backend.txLog ≤ x → s.pool.mem x = 0)
    (clean : ∀ i < h.txSlotsCount, CleanList (s.updIdList i)) : TwinsAlike h ⟨s, s, ∅⟩ := by
  have zero : ∀ addr width, h.backend.txLog ≤ addr → s.pool.mem.word addr width = 0 := fun addr width above =>
    word_of_zeros _ _ _ fun x lower _ => zeros x (by omega)
  have above : ∀ id obj, backendDirect h.backend id = some obj → h.backend.txLog ≤ obj := fun id obj direct =>
    (Nat.le_add_right _ _).trans (rooms.blocks_above id obj direct)
  have sealed : ∀ id obj, backendDirect h.backend id = some obj → h.Contained s.pool.mem id obj ∧ h.Sealed s.pool.mem id obj := by
    intro id obj direct
    have start := above id obj direct
    exact contained_of_zeros rooms id (zero _ _ start) (zero _ _ (by omega)) (zero _ _ (by omega))
  refine ⟨⟨rfl, BlocksAlike.refl ∅ fun id obj direct _ => ?_⟩, fun i known => ⟨rfl, fun opened => ?_⟩,
    ⟨fun id obj direct => (sealed id obj direct).1, fun id obj direct _ => (sealed id obj direct).2⟩, clean⟩
  · have start := above id obj direct
    exact zero _ _ (by omega)
  · have empty : slotStatus s.pool.mem (h.slotAddr i) = 0 := zero _ _ (by unfold Handle.slotAddr; omega)
    rw [empty] at opened
    simp [TxStatus.code] at opened

-- removed, replaced and aborted values do not show again: in two runs that start from the same pool of zeros, an
-- object that no differing byte was put into shows the same
theorem removed_stays_hidden {h : Handle} (rooms : h.Rooms) (nonzero : ∀ bytes, h.checksum bytes ≠ 0) {s : Store}
    (zeros : ∀ x, h.backend.txLog ≤ x → s.pool.mem x = 0) (clean : ∀ i < h.txSlotsCount, CleanList (s.updIdList i))
    {t : Twins} (run : Relation.ReflTransGen (TwinStep h) ⟨s, s, ∅⟩ t) {id : Nat} (open_ : id ∉ t.secret) :
    pmbGet h t.right.pool.mem id = pmbGet h t.left.pool.mem id := by
  have inv : ∀ t, Relation.ReflTransGen (TwinStep h) ⟨s, s, ∅⟩ t → TwinsAlike h t := by
    intro t run
    induction run with
    | refl => exact TwinsAlike.start rooms zeros clean
    | tail _ step ih => exact ih.step rooms nonzero step
  exact (inv t run).stores.blocks.shown open_

def bytePair (byte : UInt8) : PmbPair := { onePair 0 with val := some fun _ => byte }

def bytePut (byte : UInt8) : Store := (pmbTput flatHandle (begunStore flatHandle) 1 (bytePair byte)).1

-- the put is aborted, and another transaction has begun
def byteAborted (byte : UInt8) : Store := (pmbTxBegin flatHandle (pmbTxAbort flatHandle (bytePut byte) 1).1).1

section Samples

variable {s : Store} {kv : PmbPair} {byte : UInt8}

theorem shielded_put (new : kv.blkId = 0) (start : kv.offset = 0) (short : kv.valLen < 2 ^ 32)
    (popped : (caslistPop s.freeList 0).val < flatHandle.totalObjsCount) (fits : EntryFits flatHandle s 1 sizeofTxEntry) :
    Shielded flatHandle s (.tput 1 kv) := by
  have large : ¬(kv.blkId ≠ 0 ∧ kv.valLen < flatHandle.maxValLen / 2) := fun small => small.1 new
  have null : ∀ old, backendGet flatHandle s.pool.mem kv.blkId ≠ .ok old := fun old found =>
    absurd new (backendGet_ok.mp found).1
  have known : flatHandle.totalObjsCount < 2 ^ 64 := by decide
  refine ⟨⟨by rw [tputEntryLen, if_neg large]; exact fits, fun _ => ⟨by omega, popped, ?_, fun _ old found => ?_⟩⟩,
    fun txSlot op logs => ?_, fun txSlot kv' same _ => ?_, nofun, nofun⟩
  · exact fun id other => flatHandle_layout.blocks_apart id _ other
  · exact absurd found (null old)
  · cases logs
    rw [if_neg large, newBlockOp, if_neg (not_not.mpr new)]
    change (caslistPop s.freeList 0).val < 2 ^ 64
    omega
  · cases same
    refine ⟨fun update => absurd new update, fun obj _ k below => ?_⟩
    rw [start] at below
    exact absurd below (Nat.not_lt_zero k)

theorem shielded_begin : Shielded flatHandle s .txBegin := ⟨trivial, nofun, nofun, nofun, nofun⟩

theorem shielded_abort (one_or_two : byte = 1 ∨ byte = 2) : Shielded flatHandle (bytePut byte) (.txAbort 1) := by
  have strides : slotStrides (bytePut byte).pool.mem (flatHandle.slotAddr 0) =
      [(flatHandle.slotAddr 0 + 24, ⟨0, 1, 0⟩)] := by
    rcases one_or_two with rfl | rfl
    · decide +kernel
    · decide +kernel
  have log : slotLog (bytePut byte).pool.mem (flatHandle.slotAddr 0) = [(flatHandle.slotAddr 0 + 24, ⟨0, 1, 0⟩)] := by
    rcases one_or_two with rfl | rfl
    · decide +kernel
    · decide +kernel
  refine ⟨⟨fun r member => ?_, fun r _ id _ => ?_⟩, nofun, nofun, nofun, fun txSlot same => ?_⟩
  · rw [strides, List.mem_singleton] at member
    subst member
    decide
  · exact fun j other => flatHandle_layout.blocks_apart j id other
  · cases same
    change AbortShielded (bytePut byte).pool.mem (flatHandle.slotAddr 0)
    unfold AbortShielded
    rw [strides, log]
    exact fun r member _ => member

theorem TwinStep.mk {h : Handle} {t : Twins} {call call' : Call} {left right : Store} {ret ret' : Return}
    (calls : call.Alike call') (run : runCall h t.left call = some (left, ret))
    (run' : runCall h t.right call' = some (right, ret')) (success : ret.status = .ok) (shield : Shielded h t.left call)
    (shield' : Shielded h t.right call') : TwinStep h t ⟨left, right, t.next h ret call' call⟩ :=
  ⟨call, call', ret, ret', calls, run, run', fun _ => ⟨⟨shield, shield'⟩, rfl⟩, fun failed => absurd success failed⟩

end Samples

theorem removed_stays_hidden_sample :
    pmbGet flatHandle (pmbTput flatHandle (byteAborted 2) 1 (onePair 0)).1.pool.mem 1 =
      pmbGet flatHandle (pmbTput flatHandle (byteAborted 1) 1 (onePair 0)).1.pool.mem 1 := by
  have begins : ∃ secret, TwinStep flatHandle ⟨flatStore, flatStore, ∅⟩ ⟨begunStore flatHandle, begunStore flatHandle, secret⟩ :=
    ⟨_, TwinStep.mk (show Call.Alike .txBegin .txBegin from rfl) rfl rfl (by decide +kernel) shielded_begin shielded_begin⟩
  have puts : ∀ secret, ∃ secret',
      TwinStep flatHandle ⟨begunStore flatHandle, begunStore flatHandle, secret⟩ ⟨bytePut 1, bytePut 2, secret'⟩ := fun _ =>
    ⟨_, TwinStep.mk (show Call.Alike (.tput 1 (bytePair 1)) (.tput 1 (bytePair 2)) from
        ⟨bytePair 2, rfl, some fun _ => 2, rfl, rfl⟩) rfl rfl
      (show (pmbTput flatHandle (begunStore flatHandle) 1 (bytePair 1)).2.1 = .ok by decide +kernel)
      (shielded_put rfl rfl (by decide)
        (show (caslistPop (begunStore flatHandle).freeList 0).val < flatHandle.totalObjsCount by decide +kernel)
        fun _ => show flatHandle.size (begunStore flatHandle) 0 + 24 ≤ flatHandle.backend.txSlotSize by decide +kernel)
      (shielded_put rfl rfl (by decide)
        (show (caslistPop (begunStore flatHandle).freeList 0).val < flatHandle.totalObjsCount by decide +kernel)
        fun _ => show flatHandle.size (begunStore flatHandle) 0 + 24 ≤ flatHandle.backend.txSlotSize by decide +kernel)⟩
  have aborts : ∀ secret, ∃ secret', TwinStep flatHandle ⟨bytePut 1, bytePut 2, secret⟩
      ⟨(pmbTxAbort flatHandle (bytePut 1) 1).1, (pmbTxAbort flatHandle (bytePut 2) 1).1, secret'⟩ := fun _ =>
    ⟨_, TwinStep.mk (show Call.Alike (.txAbort 1) (.txAbort 1) from rfl) rfl rfl
      (show (pmbTxAbort flatHandle (bytePut 1) 1).2 = .ok by decide +kernel) (shielded_abort (Or.inl rfl))
      (shielded_abort (Or.inr rfl))⟩
  have again : ∀ secret, ∃ secret', TwinStep flatHandle
      ⟨(pmbTxAbort flatHandle (bytePut 1) 1).1, (pmbTxAbort flatHandle (bytePut 2) 1).1, secret⟩
      ⟨byteAborted 1, byteAborted 2, secret'⟩ := fun _ =>
    ⟨_, TwinStep.mk (show Call.Alike .txBegin .txBegin from rfl) rfl rfl
      (show (pmbTxBegin flatHandle (pmbTxAbort flatHandle (bytePut 1) 1).1).2.1 = .ok by decide +kernel) shielded_begin
      shielded_begin⟩
  obtain ⟨first, begun⟩ := begins
  obtain ⟨second, put⟩ := puts first
  obtain ⟨third, aborted⟩ := aborts second
  obtain ⟨fourth, begun'⟩ := again third
  have written : TwinStep flatHandle ⟨byteAborted 1, byteAborted 2, fourth⟩
      ⟨(pmbTput flatHandle (byteAborted 1) 1 (onePair 0)).1, (pmbTput flatHandle (byteAborted 2) 1 (onePair 0)).1, _⟩ :=
    TwinStep.mk (show Call.Alike (.tput 1 (onePair 0)) (.tput 1 (onePair 0)) from ⟨onePair 0, rfl, (onePair 0).val, rfl, rfl⟩)
      rfl rfl (show (pmbTput flatHandle (byteAborted 1) 1 (onePair 0)).2.1 = .ok by decide +kernel)
      (shielded_put rfl rfl (by decide)
        (show (caslistPop (byteAborted 1).freeList 0).val < flatHandle.totalObjsCount by decide +kernel)
        fun _ => show flatHandle.size (byteAborted 1) 0 + 24 ≤ flatHandle.backend.txSlotSize by decide +kernel)
      (shielded_put rfl rfl (by decide)
        (show (caslistPop (byteAborted 2).freeList 0).val < flatHandle.totalObjsCount by decide +kernel)
        fun _ => show flatHandle.size (byteAborted 2) 0 + 24 ≤ flatHandle.backend.txSlotSize by decide +kernel)
  have run := ((((Relation.ReflTransGen.single begun).tail put).tail aborted).tail begun').tail written
  have block : (pmbTput flatHandle (byteAborted 1) 1 (onePair 0)).2.2.blkId = 1 := by decide +kernel
  have clean : ∀ i < flatHandle.txSlotsCount, CleanList (flatStore.updIdList i) := fun i _ => ⟨rfl, fun _ _ => rfl⟩
  refine removed_stays_hidden flatHandle_layout.rooms flatHandle_nonzero (fun _ _ => rfl) clean run ?_
  simp only [Twins.next, block]
  rw [if_neg (by decide)]
  rintro (⟨-, differs | ⟨-, old, found, -⟩⟩ | ⟨other, -⟩)
  · exact differs rfl
  · exact absurd rfl (backendGet_ok.mp found).1
  · exact other rfl

-- a value of one byte, and later one whose first byte is not given
def gapPair : PmbPair := { onePair 0 with offset := 1 }

def staleCalls (byte : UInt8) : List Call :=
  [.txBegin, .tput 1 (bytePair byte), .tdel 1 1, .txCommit 1, .txExecute 1, .txBegin, .tput 1 gapPair]

-- `backend_set_zero` clears as many bytes as the header, the key and the value have, and the value of a data block is
-- further behind: the removed byte is the first one of the next object
theorem removed_byte_shows :
    (∀ x, flatStore.pool.mem x = 0) ∧ List.Forall₂ Call.Alike (staleCalls 1) (staleCalls 2) ∧
      (runCalls flatHandle flatStore (staleCalls 1)).map (fun done =>
        (done.2.map Return.status, (pmbGet flatHandle done.1.pool.mem 1).toOption.map PmbObject.val)) =
          some (List.replicate 7 .ok, some (some [1, 118])) ∧
      (runCalls flatHandle flatStore (staleCalls 2)).map (fun done =>
        (done.2.map Return.status, (pmbGet flatHandle done.1.pool.mem 1).toOption.map PmbObject.val)) =
          some (List.replicate 7 .ok, some (some [2, 118])) := by
  have puts : Call.Alike (.tput 1 (bytePair 1)) (.tput 1 (bytePair 2)) := ⟨bytePair 2, rfl, some fun _ => 2, rfl, rfl⟩
  have again : Call.Alike (.tput 1 gapPair) (.tput 1 gapPair) := ⟨gapPair, rfl, gapPair.val, rfl, rfl⟩
  refine ⟨fun _ => rfl, ?_, by decide +kernel, by decide +kernel⟩
  exact .cons rfl (.cons puts (.cons rfl (.cons rfl (.cons rfl (.cons rfl (.cons again .nil))))))

end PmBackend
