import PmBackend.LocalExecution
import PmBackend.RecoveryBounds

set_option autoImplicit false

namespace PmBackend

open ByteMemory

-- the blocks an entry names: those it writes, replaces, updates or removes
def TxEntry.names (entry : TxEntry) : List Nat :=
  if entry.type = TxOp.update.code then [entry.blkId1, entry.blkId2]
  else if entry.type = TxOp.write.code ∨ entry.type = TxOp.remove.code ∨ entry.type = TxOp.updinplace.code then
    [entry.blkId1]
  else []

def loggedIds (h : Handle) (s : Store) (i : Nat) : Set Nat :=
  {id | ∃ r ∈ slotLog s.pool.mem (h.slotAddr i), id ∈ r.2.names}

structure IndependentLogs (h : Handle) (s : Store) (i j : Nat) : Prop where
  committed : h.status s i = TxStatus.commited.code
  committed' : h.status s j = TxStatus.commited.code
  valid : ∀ id ∈ loggedIds h s i ∪ loggedIds h s j, id ≠ 0 ∧ id < h.totalObjsCount + h.metaObjsCount
  disjoint : Disjoint (loggedIds h s i) (loggedIds h s j)
  apart : ∀ a ∈ loggedIds h s i ∪ loggedIds h s j, ∀ b ∈ loggedIds h s i ∪ loggedIds h s j, a ≠ b →
    h.backend.Apart a b

section Logs

variable {h : Handle} {s s' : Store} {i : Nat} {m m' : Mem}

end Logs

structure OwnBlocks (h : Handle) (s : Store) (i : Nat) : Prop where
  committed : h.status s i = TxStatus.commited.code
  valid : ∀ id ∈ loggedIds h s i, id ≠ 0 ∧ id < h.totalObjsCount + h.metaObjsCount
  apart : ∀ a ∈ loggedIds h s i, ∀ b ∈ loggedIds h s i, a ≠ b → h.backend.Apart a b

section Executions

variable {h : Handle} {s t : Store} {i j : Nat}

theorem IndependentLogs.symm (independent : IndependentLogs h s i j) : IndependentLogs h s j i where
  committed := independent.committed'
  committed' := independent.committed
  valid := by
    rw [Set.union_comm]
    exact independent.valid
  disjoint := independent.disjoint.symm
  apart := by
    rw [Set.union_comm]
    exact independent.apart

theorem IndependentLogs.own (independent : IndependentLogs h s i j) : OwnBlocks h s i where
  committed := independent.committed
  valid id named := independent.valid id (Or.inl named)
  apart a left b right := independent.apart a (Or.inl left) b (Or.inl right)

theorem Confined.frees {area : Set Nat} {released released' : List Nat} {u t' u' : Store}
    (free : BuiltList s.freeList) (metaFree : BuiltList s.metaFreeList)
    (small : ∀ id ∈ released, id < 2 ^ 64) (small' : ∀ id ∈ released', id < 2 ^ 64) {area' : Set Nat}
    (left : Confined h area i released s t) (left' : Confined h area' j released' t t')
    (right : Confined h area' j released' s u) (right' : Confined h area i released u u') :
    u'.freeList = t'.freeList ∧ u'.metaFreeList = t'.metaFreeList := by
  have filtered {p : Nat → Bool} {ids : List Nat} (all : ∀ id ∈ ids, id < 2 ^ 64) :
      ∀ id ∈ ids.filter p, id < 2 ^ 64 := fun id member => all id (List.mem_filter.mp member).1
  constructor
  · rw [left'.free, left.free, right'.free, right.free]
    exact free.pushable.foldl_comm _ _ (filtered small') (filtered small)
  · rw [left'.metaFree, left.metaFree, right'.metaFree, right.metaFree]
    exact metaFree.pushable.foldl_comm _ _ (filtered small') (filtered small)

theorem loggedIds_single {r : Nat × TxEntry} {ids : List Nat}
    (log : slotLog s.pool.mem (h.slotAddr i) = [r]) (names : r.2.names = ids) :
    loggedIds h s i = {id | id ∈ ids} := by
  ext id
  simp only [loggedIds, log, List.mem_singleton, exists_eq_left, names]

theorem apart_of_eq {a b addr addr' : Nat} (direct : backendDirect h.backend a = some addr)
    (direct' : backendDirect h.backend b = some addr') (below : addr + h.backend.blockSize a ≤ addr') :
    h.backend.Apart a b ∧ h.backend.Apart b a := by
  constructor
  · rintro x y left right
    rw [direct] at left
    rw [direct'] at right
    cases left
    cases right
    exact span_disjoint (Or.inl below)
  · rintro x y left right
    rw [direct'] at left
    rw [direct] at right
    cases left
    cases right
    exact span_disjoint (Or.inr below)

theorem IndependentLogs.single {r r' : Nat × TxEntry} {a b addr addr' : Nat}
    (committed : h.status s i = TxStatus.commited.code) (committed' : h.status s j = TxStatus.commited.code)
    (log : slotLog s.pool.mem (h.slotAddr i) = [r]) (log' : slotLog s.pool.mem (h.slotAddr j) = [r'])
    (names : r.2.names = [a]) (names' : r'.2.names = [b])
    (valid : (a ≠ 0 ∧ a < h.totalObjsCount + h.metaObjsCount) ∧ b ≠ 0 ∧ b < h.totalObjsCount + h.metaObjsCount)
    (different : a ≠ b) (direct : backendDirect h.backend a = some addr)
    (direct' : backendDirect h.backend b = some addr') (below : addr + h.backend.blockSize a ≤ addr') :
    IndependentLogs h s i j := by
  obtain ⟨apart, apart'⟩ := apart_of_eq direct direct' below
  have first := loggedIds_single log names
  have second := loggedIds_single log' names'
  simp only [List.mem_singleton] at first second
  refine ⟨committed, committed', ?_, ?_, ?_⟩
  · rw [first, second]
    rintro id (rfl | rfl)
    · exact valid.1
    · exact valid.2
  · rw [first, second]
    exact Set.disjoint_left.mpr fun id left right => different (left.symm.trans right)
  · rw [first, second]
    rintro x (rfl | rfl) y (rfl | rfl) other
    · exact absurd rfl other
    · exact apart
    · exact apart'
    · exact absurd rfl other

end Executions

end PmBackend
