import PmBackend.FreedBlocks
import PmBackend.UpdateLists

set_option autoImplicit false

namespace PmBackend

open ByteMemory

section Conflicts

variable (h : Handle) (s : Store)

-- two live objects of one region, the first with the higher version
def Conflict (m : Mem) (newer older : Nat) : Prop :=
  newer ≠ older ∧ (newer < h.totalObjsCount ↔ older < h.totalObjsCount) ∧
    ∃ newObj oldObj, backendGet h m newer = .ok newObj ∧ backendGet h m older = .ok oldObj ∧
      version m oldObj < version m newObj

def NoObject (m : Mem) (blkId : Nat) : Prop := ∃ error, backendGet h m blkId = .error error

def Store.regionFree (blkId : Nat) : Option Caslist :=
  if blkId < h.totalObjsCount then s.freeList else s.metaFreeList

structure KeepsNewest (newer older : Nat) (done : Store × Nat) : Prop where
  returned : done.2 = newer
  kept : pmbGet h done.1.pool.mem newer = pmbGet h s.pool.mem newer
  erased : pmbGet h done.1.pool.mem older = .error .enoent
  freed : ∃ list, done.1.regionFree h older = some list ∧
    (list.ranges.countP fun r => decide (r.begin ≤ older ∧ older ≤ r.end_)) = 1
  changed : ChangedIn (h.blockAt older) s.pool.mem done.1.pool.mem
  rest : done.1 = { s.release h older with pool := done.1.pool }

-- what a resolution should do: keep the newest of two copies, and refuse a missing one
structure ConflictResolved (blkId1 blkId2 : Nat) : Prop where
  first : Conflict h s.pool.mem blkId1 blkId2 →
    KeepsNewest h s blkId1 blkId2 (pmbResolveConflict h s blkId1 blkId2)
  second : Conflict h s.pool.mem blkId2 blkId1 →
    KeepsNewest h s blkId2 blkId1 (pmbResolveConflict h s blkId1 blkId2)
  missing : NoObject h s.pool.mem blkId1 ∨ NoObject h s.pool.mem blkId2 →
    (pmbResolveConflict h s blkId1 blkId2).1 = s ∧
      ¬(1 ≤ (pmbResolveConflict h s blkId1 blkId2).2 ∧
        (pmbResolveConflict h s blkId1 blkId2).2 < h.totalObjsCount + h.metaObjsCount)

end Conflicts

section Resolution

variable {h : Handle} {s : Store}

theorem setZero_missing (freeList : Option Caslist) {id obj : Nat}
    (direct : backendDirect h.backend id = some obj) (positive : id ≠ 0) :
    pmbGet h { s.setZero (some obj) with freeList := freeList }.pool.mem id = .error .enoent := by
  refine (pmbGet_missing_iff positive).mpr ?_
  rintro ⟨addr, known, nonzero⟩
  rw [direct] at known
  cases known
  refine nonzero (word_zeros _ _ _ _ _ (le_refl _) ?_)
  have : sizeofDataHdr = 32 := rfl
  omega

theorem pmbResolveConflict_deletes {blkId1 blkId2 newer older : Nat}
    (named : newer = blkId1 ∧ older = blkId2 ∨ newer = blkId2 ∧ older = blkId1)
    (conflict : Conflict h s.pool.mem newer older) :
    (pmbResolveConflict h s blkId1 blkId2).2 = older ∧
      pmbGet h (pmbResolveConflict h s blkId1 blkId2).1.pool.mem newer = .error .enoent ∧
      (pmbResolveConflict h s blkId1 blkId2).1.freeList = caslistPush s.freeList newer := by
  obtain ⟨-, -, newObj, oldObj, newFound, oldFound, higher⟩ := conflict
  obtain ⟨positive, direct, -⟩ := backendGet_ok.mp newFound
  rcases named with ⟨rfl, rfl⟩ | ⟨rfl, rfl⟩
  · simp only [pmbResolveConflict, newFound, oldFound, if_pos higher]
    exact ⟨trivial, setZero_missing _ direct positive, rfl⟩
  · have lower : ¬version s.pool.mem oldObj > version s.pool.mem newObj := by omega
    simp only [pmbResolveConflict, newFound, oldFound, if_neg lower]
    exact ⟨trivial, setZero_missing _ direct positive, rfl⟩

theorem Conflict.not_kept {blkId1 blkId2 newer older : Nat}
    (named : newer = blkId1 ∧ older = blkId2 ∨ newer = blkId2 ∧ older = blkId1)
    (conflict : Conflict h s.pool.mem newer older) :
    ¬KeepsNewest h s newer older (pmbResolveConflict h s blkId1 blkId2) := by
  intro keeps
  have deleted := (pmbResolveConflict_deletes named conflict).1
  rw [keeps.returned] at deleted
  exact conflict.1 deleted

theorem pmbResolveConflict_missing {blkId1 blkId2 : Nat}
    (missing : NoObject h s.pool.mem blkId1 ∨ NoObject h s.pool.mem blkId2) :
    pmbResolveConflict h s blkId1 blkId2 = (s, Status.err.code) := by
  unfold pmbResolveConflict
  cases first : backendGet h s.pool.mem blkId1 with
  | error error => rfl
  | ok obj =>
    cases second : backendGet h s.pool.mem blkId2 with
    | error error => rfl
    | ok obj' => simp [NoObject, first, second] at missing

end Resolution

-- a resolution is right only where there is nothing to resolve: of two copies it deletes the newer one, and the error
-- it returns for a missing object is the id of the first block
theorem resolve_conflict_iff (h : Handle) (s : Store) (blkId1 blkId2 : Nat) :
    (ConflictResolved h s blkId1 blkId2 ↔
      (¬Conflict h s.pool.mem blkId1 blkId2 ∧ ¬Conflict h s.pool.mem blkId2 blkId1) ∧
        (NoObject h s.pool.mem blkId1 ∨ NoObject h s.pool.mem blkId2 →
          h.totalObjsCount + h.metaObjsCount ≤ 1)) ∧
    (NoObject h s.pool.mem blkId1 ∨ NoObject h s.pool.mem blkId2 →
      pmbResolveConflict h s blkId1 blkId2 = (s, 1)) ∧
    ∀ newer older, newer = blkId1 ∧ older = blkId2 ∨ newer = blkId2 ∧ older = blkId1 →
      Conflict h s.pool.mem newer older →
        (pmbResolveConflict h s blkId1 blkId2).2 = older ∧
        pmbGet h (pmbResolveConflict h s blkId1 blkId2).1.pool.mem newer = .error .enoent ∧
        (pmbResolveConflict h s blkId1 blkId2).1.freeList = caslistPush s.freeList newer := by
  refine ⟨⟨fun resolved => ⟨⟨fun conflict => ?_, fun conflict => ?_⟩, fun missing => ?_⟩, ?_⟩,
    pmbResolveConflict_missing, fun newer older named conflict => pmbResolveConflict_deletes named conflict⟩
  · exact conflict.not_kept (Or.inl ⟨rfl, rfl⟩) (resolved.first conflict)
  · exact conflict.not_kept (Or.inr ⟨rfl, rfl⟩) (resolved.second conflict)
  · have refused := (resolved.missing missing).2
    rw [pmbResolveConflict_missing missing] at refused
    simp only [Status.code] at refused
    omega
  · rintro ⟨⟨first, second⟩, few⟩
    refine ⟨fun conflict => absurd conflict first, fun conflict => absurd conflict second, fun missing => ?_⟩
    rw [pmbResolveConflict_missing missing]
    have bound := few missing
    refine ⟨rfl, ?_⟩
    simp only [Status.code]
    omega

-- two objects, the first of them updated in place
def versionsCalls : List Call :=
  [.txBegin, .tput 1 (onePair 0), .tput 1 (onePair 0), .txCommit 1, .txExecute 1,
    .txBegin, .tput 1 (onePair 1), .txCommit 1, .txExecute 1]

-- block 1 has the version 2 and block 2 the version 1: the resolution deletes block 1. For the free block 3 of a pool
-- without objects the value returned is the id of block 1
theorem newest_copy_deleted :
    (∃ s rets, runCalls flatHandle flatStore versionsCalls = some (s, rets) ∧
      (∀ ret ∈ rets, ret.status = .ok) ∧ Conflict flatHandle s.pool.mem 1 2 ∧
      (pmbResolveConflict flatHandle s 1 2).2 = 2 ∧
      pmbGet flatHandle (pmbResolveConflict flatHandle s 1 2).1.pool.mem 1 = .error .enoent ∧
      ¬ConflictResolved flatHandle s 1 2) ∧
    (pmbResolveConflict flatHandle flatStore 1 2).2 = 1 ∧ ¬ConflictResolved flatHandle flatStore 1 2 := by
  have direct : backendDirect flatHandle.backend 1 = some blockOne := by decide +kernel
  have direct' : backendDirect flatHandle.backend 2 = some (blockOne + 4096) := by decide +kernel
  have run : (runCalls flatHandle flatStore versionsCalls).map
      (fun done => (done.2.map Return.status, flch64 done.1.pool.mem blockOne != 0,
        flch64 done.1.pool.mem (blockOne + 4096) != 0, version done.1.pool.mem blockOne,
        version done.1.pool.mem (blockOne + 4096))) =
      some (List.replicate 9 .ok, true, true, 2, 1) := by decide +kernel
  rw [Option.map_eq_some_iff] at run
  obtain ⟨⟨s, rets⟩, run, results⟩ := run
  simp only [Prod.mk.injEq, bne_iff_ne, ne_eq] at results
  obtain ⟨statuses, live, live', newer, older⟩ := results
  have found : backendGet flatHandle s.pool.mem 1 = .ok blockOne :=
    backendGet_ok.mpr ⟨by decide, direct, live⟩
  have found' : backendGet flatHandle s.pool.mem 2 = .ok (blockOne + 4096) :=
    backendGet_ok.mpr ⟨by decide, direct', live'⟩
  have conflict : Conflict flatHandle s.pool.mem 1 2 := by
    refine ⟨by decide, by decide, _, _, found, found', ?_⟩
    rw [newer, older]
    decide
  obtain ⟨returned, missing, -⟩ := pmbResolveConflict_deletes (Or.inl ⟨rfl, rfl⟩) conflict
  refine ⟨⟨s, rets, run, fun ret member => ?_, conflict, returned, missing, fun resolved => ?_⟩, ?_, ?_⟩
  · have status : ret.status ∈ rets.map Return.status := List.mem_map_of_mem member
    rw [statuses] at status
    exact List.eq_of_mem_replicate status
  · exact conflict.not_kept (Or.inl ⟨rfl, rfl⟩) (resolved.first conflict)
  · decide +kernel
  · intro resolved
    have refused := (resolved.missing (Or.inl ⟨.enoent, by decide +kernel⟩)).2
    revert refused
    decide +kernel

end PmBackend
