import PmBackend.Model.Pmbackend

set_option autoImplicit false

namespace PmBackend

open ByteMemory

-- how far the thread of a slot is inside a call
inductive Phase where
  | idle
  -- `pmb_tput` or `pmb_tput_meta` has popped a block
  | writing (metadata : Bool) (kv : PmbPair) (old : Option Nat) (blkId : Nat)
  -- `tx_slot_execute`: the position and the end of the log; a zeroed block is pushed next
  | executing (pos stop : Nat)
  | executePush (blkId pos stop : Nat)
  | aborting (pos stop : Nat)
  | abortPush (blkId pos stop : Nat)
  -- the slot is EMPTY, and not yet in the list of free slots
  | cleared

structure System where
  store : Store
  phase : Nat → Phase

inductive Action where
  | begin
  | take (i : Nat) (metadata : Bool) (kv : PmbPair)
  | put (i : Nat)
  | smallUpdate (i : Nat) (kv : PmbPair)
  | tdel (i blkId : Nat)
  | commit (i : Nat)
  | execute (i : Nat)
  | abort (i : Nat)
  | entry (i : Nat)
  | push (i : Nat)
  | clear (i : Nat)
  | free (i : Nat)

def System.at (sys : System) (i : Nat) (store : Store) (phase : Phase) : System :=
  ⟨store, Function.update sys.phase i phase⟩

def takeBlock (s : Store) (metadata : Bool) (kv : PmbPair) (old : Option Nat) : Option (Store × Phase) :=
  let popped := caslistPop (if metadata then s.metaFreeList else s.freeList) 0
  if popped.ret ≠ 0 then none
  else
    some (if metadata then { s with metaFreeList := popped.list } else { s with freeList := popped.list },
      .writing metadata kv old popped.val)

-- `pmb_tput` and `pmb_tput_meta` up to the pop. The checks of the pair are left out: they only
-- refuse calls.
def takeStep (h : Handle) (s : Store) (metadata : Bool) (kv : PmbPair) : Option (Store × Phase) :=
  if kv.blkId ≠ 0 then
    match backendGet h s.pool.mem kv.blkId with
    | .error _ => none
    | .ok old => takeBlock s metadata kv (some old)
  else takeBlock s metadata kv none

-- from the pop on: the entry is logged and the block is written; a meta block goes back when the
-- entry is refused
def putStep (h : Handle) (s : Store) (i : Nat) (metadata : Bool) (kv : PmbPair) (old : Option Nat)
    (blkId : Nat) : Store :=
  match backendDirect h.backend blkId with
  | none => s
  | some obj =>
    let logged := logNewBlock h s (i + 1) kv.blkId blkId
    if logged.2 ≠ .ok then
      if metadata then { logged.1 with metaFreeList := caslistPush logged.1.metaFreeList blkId } else logged.1
    else
      { logged.1 with
        pool :=
          if metadata then tputMetaBlock h logged.1.pool obj old kv else tputBlock h logged.1.pool obj old kv }

-- one entry of the log that is executed or aborted, up to the push
def entryStep (h : Handle) (s : Store) (i : Nat) : Phase → Option (Store × Phase)
  | .executing pos stop =>
    if pos < stop then
      let entry := readEntry s.pool.mem pos
      if entry.type = TxOp.update.code ∨ entry.type = TxOp.remove.code then
        match backendGet h s.pool.mem entry.blkId1 with
        | .error _ => some (s, .executing (pos + sizeofTxEntry) stop)
        | .ok obj => some (s.setZero (some obj), .executePush entry.blkId1 (pos + sizeofTxEntry) stop)
      else (executeEntry h s i pos entry).map fun s => (s, .executing (pos + entry.span) stop)
    else none
  | .aborting pos stop =>
    if pos < stop then
      let entry := readEntry s.pool.mem pos
      if entry.type = TxOp.update.code then
        some (s.setZero (backendDirect h.backend entry.blkId2),
          .abortPush entry.blkId2 (pos + sizeofTxEntry) stop)
      else if entry.type = TxOp.write.code then
        some (s.setZero (backendDirect h.backend entry.blkId1),
          .abortPush entry.blkId1 (pos + sizeofTxEntry) stop)
      else some (s, .aborting (pos + sizeofTxEntry) stop)
    else none
  | _ => none

def pushStep (h : Handle) (s : Store) : Phase → Option (Store × Phase)
  | .executePush blkId pos stop => some (s.release h blkId, .executing pos stop)
  | .abortPush blkId pos stop => some (s.release h blkId, .aborting pos stop)
  | _ => none

-- the end of the walk, up to the clearing of the slot
def clearStep (h : Handle) (s : Store) (i slot : Nat) : Phase → Option (Store × Phase)
  | .executing pos stop =>
    if pos < stop then none
    else
      (txSlotMetaUpdProcess h s i).map fun s => ({ s with pool := backendTxSetZero h s.pool slot }, .cleared)
  | .aborting pos stop => if pos < stop then none else some (slotReset h s slot i, .cleared)
  | _ => none

-- `tx_slot_execute` and `tx_slot_abort` up to their loops; a refused slot is freed all the same
def startStep (h : Handle) (s : Store) (i slot : Nat) (abort : Bool) : Store × Phase :=
  let status := slotStatus s.pool.mem slot
  if abort then
    if status ≠ TxStatus.processing.code ∧ status ≠ TxStatus.commited.code then
      (txLogFreeSlot s (i + 1), .idle)
    else
      let s := slotAborted h s slot i
      (s, .aborting (slot + sizeofTxSlot) (u64 (slot + slotSize s.pool.mem slot)))
  else if status ≠ TxStatus.commited.code then (txLogFreeSlot s (i + 1), .idle)
  else (s, .executing (slot + sizeofTxSlot) (u64 (slot + slotSize s.pool.mem slot)))

def microStep (h : Handle) (sys : System) : Action → Option System
  | .begin =>
    let begun := pmbTxBegin h sys.store
    match sys.phase (begun.2.2 - 1) with
    | .idle => some { sys with store := begun.1 }
    | _ => none
  | .take i metadata kv =>
    match sys.phase i with
    | .idle =>
      if i < h.txSlotsCount then (takeStep h sys.store metadata kv).map fun done => sys.at i done.1 done.2
      else none
    | _ => none
  | .put i =>
    match sys.phase i with
    | .writing metadata kv old blkId => some (sys.at i (putStep h sys.store i metadata kv old blkId) .idle)
    | _ => none
  | .smallUpdate i kv =>
    match sys.phase i with
    | .idle =>
      if i < h.txSlotsCount then
        some { sys with store := (txSlotOpSmallUpdate h sys.store (i + 1) kv.blkId kv.valBytes kv.offset).1 }
      else none
    | _ => none
  | .tdel i blkId =>
    match sys.phase i with
    | .idle => some { sys with store := (pmbTdel h sys.store (i + 1) blkId).1 }
    | _ => none
  | .commit i =>
    match sys.phase i with
    | .idle => some { sys with store := (pmbTxCommit h sys.store (i + 1)).1 }
    | _ => none
  | .execute i =>
    match sys.phase i, backendTxDirect h.backend i with
    | .idle, some slot => let start := startStep h sys.store i slot false; some (sys.at i start.1 start.2)
    | _, _ => none
  | .abort i =>
    match sys.phase i, backendTxDirect h.backend i with
    | .idle, some slot => let start := startStep h sys.store i slot true; some (sys.at i start.1 start.2)
    | _, _ => none
  | .entry i => (entryStep h sys.store i (sys.phase i)).map fun done => sys.at i done.1 done.2
  | .push i => (pushStep h sys.store (sys.phase i)).map fun done => sys.at i done.1 done.2
  | .clear i =>
    match backendTxDirect h.backend i with
    | some slot => (clearStep h sys.store i slot (sys.phase i)).map fun done => sys.at i done.1 done.2
    | none => none
  | .free i =>
    match sys.phase i with
    | .cleared => some (sys.at i (txLogFreeSlot sys.store (i + 1)) .idle)
    | _ => none

def microRun (h : Handle) (sys : System) : List Action → Option System
  | [] => some sys
  | action :: rest => (microStep h sys action).bind fun next => microRun h next rest

end PmBackend
