import PmBackend.Shared.Interleaving
import PmBackend.Model.Pmbackend

set_option autoImplicit false

namespace PmBackend

open ByteMemory Interleaving

inductive RecoveryList where
  | objs | free | metaObjs | metaFree
  deriving DecidableEq, Repr

-- the number of bytes under the checksum of a block, from its header and its region
def objectSize (h : Handle) (m : Mem) (pos obj : Nat) : Nat :=
  if pos > pmbNtotal h .data then sizeofDataHdr + keyLen m obj + valLen m obj
  else sizeofDataHdr + h.maxKeyLen + valLen m obj

-- the list into which `recovery_thread` pushes a block
def recoveryList (h : Handle) (m : Mem) (pos : Nat) : RecoveryList :=
  let metadata := pos > pmbNtotal h .data
  let freeList := if metadata then RecoveryList.metaFree else .free
  let objList := if metadata then RecoveryList.metaObjs else .objs
  match backendGet h m pos with
  | .error _ => freeList
  | .ok obj => if utilChecksumVerify h m obj (objectSize h m pos obj) then objList else freeList

structure RcArgs where
  recoveryStart : Nat
  recoveryStop : Nat
  deriving DecidableEq, Repr

-- the pushes of one `recovery_thread`, in its order
def recoveryThread (h : Handle) (m : Mem) (args : RcArgs) : List (RecoveryList × Nat) :=
  (List.range' args.recoveryStart (args.recoveryStop - args.recoveryStart)).map fun pos =>
    (recoveryList h m pos, pos)

def threadsNum : Nat := 8

def rcArgs (h : Handle) (i : Nat) : RcArgs :=
  let part := u64 (pmbNtotal h .data + pmbNtotal h .metadata) / threadsNum
  { recoveryStart := if i = 0 then part * i + 1 else part * i
    recoveryStop :=
      if i < threadsNum - 1 then part * (i + 1) else u64 (h.totalObjsCount + h.metaObjsCount) }

def recoveryThreads (h : Handle) (m : Mem) : List (List (RecoveryList × Nat)) :=
  (List.range threadsNum).map fun i => recoveryThread h m (rcArgs h i)

def Store.recoveryPush (s : Store) (push : RecoveryList × Nat) : Store :=
  match push.1 with
  | .objs => { s with objsList := caslistPush s.objsList push.2 }
  | .free => { s with freeList := caslistPush s.freeList push.2 }
  | .metaObjs => { s with metaObjsList := caslistPush s.metaObjsList push.2 }
  | .metaFree => { s with metaFreeList := caslistPush s.metaFreeList push.2 }

-- `recovery` ends in any store that some interleaving of the pushes leads to
def Recovery (h : Handle) (s s' : Store) : Prop :=
  ∃ pushes, Interleaves (recoveryThreads h s.pool.mem) pushes ∧ s' = pushes.foldl Store.recoveryPush s

-- the ids from `pos` down to 1
def populateLoop (h : Handle) : Nat → Store → Store
  | 0, s => s
  | pos + 1, s =>
    populateLoop h pos
      (if pos + 1 ≤ sub64 h.totalObjsCount 1 then { s with freeList := caslistPush s.freeList (pos + 1) }
      else { s with metaFreeList := caslistPush s.metaFreeList (pos + 1) })

def populateFreeList (h : Handle) (s : Store) : Store :=
  populateLoop h (sub64 (u64 (h.totalObjsCount + h.metaObjsCount)) 1) s

-- the lists `pmb_open` makes for a pool it has created
def openEmpty (h : Handle) (s : Store) : Store :=
  populateFreeList h
    { s with
      freeList := caslistNew 1 h.totalObjsCount
      metaFreeList := caslistNew 1 h.metaObjsCount
      objsList := none
      metaObjsList := none }

-- the four empty lists that `recovery` fills in a pool that existed
def Store.emptyLists (s : Store) : Store :=
  { s with
    freeList := caslistNew 0 0
    metaFreeList := caslistNew 0 0
    objsList := caslistNew 0 0
    metaObjsList := caslistNew 0 0 }

-- `pmb_open` on an existing pool, once it is mapped: replay of the logs, then `recovery`
def OpenExisting (h : Handle) (s s' : Store) : Prop :=
  ∃ checked, txLogCheck h s = some checked ∧ Recovery h checked.emptyLists s'

structure PmbIter where
  region : Region
  vectorPos : Nat
  deriving DecidableEq, Repr

def Store.regionObjs (s : Store) : Region → Option Caslist
  | .metadata => s.metaObjsList
  | .data => s.objsList

def Store.setRegionObjs (s : Store) (region : Region) (list : Option Caslist) : Store :=
  match region with
  | .metadata => { s with metaObjsList := list }
  | .data => { s with objsList := list }

def pmbIterOpen (s : Store) (region : Region) : Store × Option PmbIter :=
  match s.regionObjs region with
  | none => (s, none)
  | some list =>
    let popped := caslistPop (some list) 0
    let s := s.setRegionObjs region popped.list
    if popped.ret = 0 then (s, some ⟨region, popped.val⟩) else (s, none)

def pmbIterPos (iter : Option PmbIter) : Nat :=
  match iter with
  | none => 0
  | some iter => iter.vectorPos

def pmbIterValid (iter : Option PmbIter) : Bool :=
  match iter with
  | none => false
  | some iter => iter.vectorPos != 0

-- closing an iterator frees the list of its region, for every other iterator too
def pmbIterClose (s : Store) (iter : Option PmbIter) : Store × Status :=
  match iter with
  | none => (s, .eargs)
  | some iter => (s.setRegionObjs iter.region none, .ok)

def pmbIterGet (h : Handle) (s : Store) (iter : Option PmbIter) : Except Status PmbObject :=
  match iter with
  | none => .error .eargs
  | some iter =>
    if pmbIterValid (some iter) then pmbGet h s.pool.mem iter.vectorPos else .error .err

def pmbIterNext (s : Store) (iter : Option PmbIter) : Store × Option PmbIter × Status :=
  match iter with
  | none => (s, none, .eargs)
  | some iter =>
    let popped := caslistPop (s.regionObjs iter.region) iter.vectorPos
    let s := s.setRegionObjs iter.region popped.list
    (s, some { iter with vectorPos := popped.val }, if popped.ret ≠ 0 then .err else .ok)

-- the loop of the examples: `while (pmb_iter_valid) { pmb_iter_get; pmb_iter_next }`, with the ids and the results of
-- the gets; `none` when it has not ended after the given rounds
def iterLoop (h : Handle) : Nat → Store → Option PmbIter →
    Option (List (Nat × Except Status PmbObject))
  | 0, _, _ => none
  | rounds + 1, s, iter =>
    if pmbIterValid iter then
      let next := pmbIterNext s iter
      (iterLoop h rounds next.1 next.2.1).map fun later =>
        (pmbIterPos iter, pmbIterGet h s iter) :: later
    else some []

end PmBackend
