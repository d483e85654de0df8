import Mathlib.Tactic.IntervalCases
import Mathlib.Tactic.Push
import PmBackend.CaslistRefinement
import PmBackend.Geometry
import PmBackend.Model.Recovery

set_option autoImplicit false

namespace PmBackend

open ByteMemory Interleaving

def Store.recovered (s : Store) : RecoveryList → Option Caslist
  | .objs => s.objsList
  | .free => s.freeList
  | .metaObjs => s.metaObjsList
  | .metaFree => s.metaFreeList

theorem recovered_push (s : Store) (push : RecoveryList × Nat) (kind : RecoveryList) :
    (s.recoveryPush push).recovered kind =
      if push.1 = kind then caslistPush (s.recovered kind) push.2 else s.recovered kind := by
  obtain ⟨target, id⟩ := push
  cases target <;> cases kind <;> rfl

def pushedIds (pushes : List (RecoveryList × Nat)) (kind : RecoveryList) : Finset Nat :=
  ((pushes.filter fun push => push.1 = kind).map Prod.snd).toFinset.erase 0

theorem mem_pushedIds (pushes : List (RecoveryList × Nat)) (kind : RecoveryList) (id : Nat) :
    id ∈ pushedIds pushes kind ↔ id ≠ 0 ∧ (kind, id) ∈ pushes := by
  simp only [pushedIds, Finset.mem_erase, List.mem_toFinset, List.mem_map, List.mem_filter,
    decide_eq_true_eq, Prod.exists, exists_eq_right]

theorem recovered_pushes (pushes : List (RecoveryList × Nat)) (s : Store) (kind : RecoveryList)
    (ids : Finset Nat) (lists : ListOf (s.recovered kind) ids) (small : ∀ push ∈ pushes, push.2 < 2 ^ 64) :
    ListOf ((pushes.foldl Store.recoveryPush s).recovered kind) (ids ∪ pushedIds pushes kind) := by
  induction pushes generalizing s ids with
  | nil => simpa [pushedIds] using lists
  | cons push rest ih =>
    have small_rest := fun p member => small p (List.mem_cons_of_mem push member)
    have same : insert push.2 ids ∪ pushedIds rest push.1 = ids ∪ pushedIds (push :: rest) push.1 ∨
        push.2 = 0 := by
      by_cases zero : push.2 = 0
      · exact Or.inr zero
      · left
        ext id
        simp only [Finset.mem_union, Finset.mem_insert, mem_pushedIds, List.mem_cons, Prod.ext_iff]
        grind
    by_cases target : push.1 = kind
    · have next : ListOf ((s.recoveryPush push).recovered kind)
          (if push.2 = 0 then ids else insert push.2 ids) := by
        rw [recovered_push, if_pos target]
        exact lists.push (small push (by simp))
      have whole := ih _ _ next small_rest
      subst target
      by_cases zero : push.2 = 0
      · have unchanged : pushedIds (push :: rest) push.1 = pushedIds rest push.1 := by
          ext id
          simp only [mem_pushedIds, List.mem_cons, Prod.ext_iff, zero]
          grind
        rw [if_pos zero] at whole
        rwa [List.foldl_cons, unchanged]
      · rw [if_neg zero, same.resolve_right zero] at whole
        rwa [List.foldl_cons]
    · have next : ListOf ((s.recoveryPush push).recovered kind) ids := by
        rwa [recovered_push, if_neg target]
      have unchanged : pushedIds (push :: rest) kind = pushedIds rest kind := by
        simp [pushedIds, target]
      rw [List.foldl_cons, unchanged]
      exact ih _ _ next small_rest

theorem foldl_recoveryPush_pool (pushes : List (RecoveryList × Nat)) (s : Store) :
    (pushes.foldl Store.recoveryPush s).pool = s.pool := by
  induction pushes generalizing s with
  | nil => rfl
  | cons push rest ih =>
    rw [List.foldl_cons, ih]
    obtain ⟨target, id⟩ := push
    cases target <;> rfl

theorem foldl_recoveryPush_txSlotsList (pushes : List (RecoveryList × Nat)) (s : Store) :
    (pushes.foldl Store.recoveryPush s).txSlotsList = s.txSlotsList := by
  induction pushes generalizing s with
  | nil => rfl
  | cons push rest ih =>
    rw [List.foldl_cons, ih]
    obtain ⟨target, id⟩ := push
    cases target <;> rfl

theorem foldl_recoveryPush_lists (pushes : List (RecoveryList × Nat)) (s : Store) :
    (pushes.foldl Store.recoveryPush s).updIdList = s.updIdList := by
  induction pushes generalizing s with
  | nil => rfl
  | cons push rest ih =>
    rw [List.foldl_cons, ih]
    obtain ⟨target, id⟩ := push
    cases target <;> rfl

theorem Handle.Ids.border {h : Handle} (ids : h.Ids) : pmbNtotal h .data = h.totalObjsCount - 1 := by
  have := ids.fit
  exact sub64_of_le ids.null_block (by omega)

theorem mem_recoveryThread (h : Handle) (m : Mem) (args : RcArgs) (kind : RecoveryList) (id : Nat) :
    (kind, id) ∈ recoveryThread h m args ↔
      args.recoveryStart ≤ id ∧ id < args.recoveryStop ∧ kind = recoveryList h m id := by
  simp only [recoveryThread, List.mem_map, List.mem_range'_1, Prod.mk.injEq]
  constructor
  · rintro ⟨pos, range, rfl, rfl⟩
    exact ⟨range.1, by omega, rfl⟩
  · rintro ⟨start, stop, rfl⟩
    exact ⟨id, ⟨start, by omega⟩, rfl, rfl⟩

theorem parts_cover {h : Handle} (ids : h.Ids) (id : Nat) (positive : id ≠ 0) :
    (∃ i < threadsNum, (rcArgs h i).recoveryStart ≤ id ∧ id < (rcArgs h i).recoveryStop) ↔
      id < h.totalObjsCount + h.metaObjsCount := by
  have nonempty := ids.null_block
  have total : u64 (pmbNtotal h .data + pmbNtotal h .metadata) =
      h.totalObjsCount + h.metaObjsCount - 1 := by
    have := ids.fit
    rw [ids.border, pmbNtotal, u64_of_lt (by omega)]
    omega
  have stop := u64_of_lt ids.fit
  simp only [rcArgs, total, stop, threadsNum]
  generalize h.totalObjsCount + h.metaObjsCount = count at *
  constructor
  · rintro ⟨i, bound, start, stop⟩
    interval_cases i <;> simp at start stop <;> omega
  · intro below
    by_contra uncovered
    push Not at uncovered
    have parts := fun i (bound : i < 8) => uncovered i bound
    have h0 := parts 0 (by omega)
    have h1 := parts 1 (by omega)
    have h2 := parts 2 (by omega)
    have h3 := parts 3 (by omega)
    have h4 := parts 4 (by omega)
    have h5 := parts 5 (by omega)
    have h6 := parts 6 (by omega)
    have h7 := parts 7 (by omega)
    simp at h0 h1 h2 h3 h4 h5 h6 h7
    omega

theorem mem_pushes {h : Handle} (ids : h.Ids) {m : Mem} {pushes : List (RecoveryList × Nat)}
    (run : Interleaves (recoveryThreads h m) pushes) (kind : RecoveryList) (id : Nat)
    (positive : id ≠ 0) :
    (kind, id) ∈ pushes ↔ id < h.totalObjsCount + h.metaObjsCount ∧ kind = recoveryList h m id := by
  rw [run.mem_iff, ← parts_cover ids id positive]
  simp only [recoveryThreads, List.mem_map, List.mem_range, exists_exists_and_eq_and,
    mem_recoveryThread]
  tauto

-- the header has a checksum, and it verifies over the object length of the region of the id
def Handle.ValidObject (h : Handle) (m : Mem) (id : Nat) : Prop :=
  ∃ obj, backendDirect h.backend id = some obj ∧ flch64 m obj ≠ 0 ∧
    utilChecksumVerify h m obj
      (if id < h.totalObjsCount then sizeofDataHdr + h.maxKeyLen + valLen m obj
      else sizeofDataHdr + keyLen m obj + valLen m obj) = true

theorem recoveryList_eq {h : Handle} (ids : h.Ids) (m : Mem) {id : Nat} (positive : id ≠ 0)
    (known : id < h.totalObjsCount + h.metaObjsCount) (kind : RecoveryList) :
    kind = recoveryList h m id ↔
      match kind with
      | .objs => id < h.totalObjsCount ∧ h.ValidObject m id
      | .free => id < h.totalObjsCount ∧ ¬h.ValidObject m id
      | .metaObjs => h.totalObjsCount ≤ id ∧ h.ValidObject m id
      | .metaFree => h.totalObjsCount ≤ id ∧ ¬h.ValidObject m id := by
  obtain ⟨obj, direct⟩ := (backendDirect_known ids.fit id).mpr known
  have border : id > h.totalObjsCount - 1 ↔ ¬id < h.totalObjsCount := by
    have := ids.null_block
    omega
  have valid : h.ValidObject m id ↔ flch64 m obj ≠ 0 ∧
      utilChecksumVerify h m obj (objectSize h m id obj) = true := by
    simp only [Handle.ValidObject, direct, Option.some.injEq, exists_eq_left', objectSize,
      ids.border, border]
    by_cases data : id < h.totalObjsCount <;> simp [data]
  rw [valid]
  unfold recoveryList backendGet
  simp only [if_neg positive, direct, ids.border, border]
  by_cases data : id < h.totalObjsCount <;> by_cases dead : flch64 m obj = 0 <;>
    by_cases verified : utilChecksumVerify h m obj (objectSize h m id obj) = true <;>
    cases kind <;> simp [data, dead, verified] <;> omega

theorem recovery_lists {h : Handle} (ids : h.Ids) {s s' : Store} (recovered : Recovery h s.emptyLists s')
    (kind : RecoveryList) :
    ∃ members, ListOf (s'.recovered kind) members ∧ ∀ id, id ∈ members ↔
      id ≠ 0 ∧ id < h.totalObjsCount + h.metaObjsCount ∧ kind = recoveryList h s.pool.mem id := by
  -- the classification of a recovery, whatever the order of the pushes of its workers
  obtain ⟨pushes, run, rfl⟩ := recovered
  have small : ∀ push ∈ pushes, push.2 < 2 ^ 64 := by
    rintro ⟨target, id⟩ member
    by_cases zero : id = 0
    · simp [zero]
    · have := ((mem_pushes ids run target id zero).mp member).1
      have := ids.fit
      simp only
      omega
  have fresh : ListOf (s.emptyLists.recovered kind) ∅ := by
    cases kind <;> exact caslistNew_empty
  refine ⟨_, recovered_pushes pushes _ kind ∅ fresh small, fun id => ?_⟩
  rw [Finset.empty_union, mem_pushedIds]
  constructor
  · rintro ⟨positive, member⟩
    exact ⟨positive, (mem_pushes ids run kind id positive).mp member⟩
  · rintro ⟨positive, member⟩
    exact ⟨positive, (mem_pushes ids run kind id positive).mpr member⟩

@[simp] theorem regionObjs_setRegionObjs (s : Store) (region : Region) (list : Option Caslist) :
    (s.setRegionObjs region list).regionObjs region = list := by
  cases region <;> rfl

@[simp] theorem setRegionObjs_pool (s : Store) (region : Region) (list : Option Caslist) :
    (s.setRegionObjs region list).pool = s.pool := by
  cases region <;> rfl

theorem iterLoop_visits (h : Handle) (ids : Finset Nat) (s : Store) (region : Region) (pos : Nat)
    (lists : ListOf (s.regionObjs region) ids) (room : ∀ id ∈ ids, id + 1 < 2 ^ 64) (valid : pos ≠ 0)
    (above : ∀ id ∈ ids, pos < id) :
    ∃ visited : List Nat, visited.Pairwise (· < ·) ∧ (∀ id, id ∈ visited ↔ id = pos ∨ id ∈ ids) ∧
      ∀ rounds, ids.card + 1 < rounds → iterLoop h rounds s (some ⟨region, pos⟩) =
        some (visited.map fun id => (id, pmbGet h s.pool.mem id)) := by
  induction size : ids.card generalizing ids s pos with
  | zero =>
    have empty := Finset.card_eq_zero.mp size
    subst empty
    refine ⟨[pos], List.pairwise_singleton _ _, by simp, fun rounds enough => ?_⟩
    obtain ⟨more, rfl⟩ : ∃ more, rounds = more + 2 := ⟨rounds - 2, by omega⟩
    simp [iterLoop, pmbIterValid, pmbIterNext, pmbIterPos, pmbIterGet, valid, lists.pop_empty]
  | succ size' ih =>
    have nonempty : ids.Nonempty := Finset.card_pos.mp (by omega)
    obtain ⟨least, member, lower, ret, val, rest⟩ := lists.pop nonempty room pos
    have later : ∀ id ∈ ids.erase least, least < id := by
      intro id remains
      obtain ⟨other, inside⟩ := Finset.mem_erase.mp remains
      have := lower id inside
      omega
    have next : ListOf ((s.setRegionObjs region (caslistPop (s.regionObjs region) pos).list).regionObjs
        region) (ids.erase least) := by
      rwa [regionObjs_setRegionObjs]
    obtain ⟨visited, sorted, members, loop⟩ := ih (ids.erase least) _ least next
      (fun id remains => room id (Finset.mem_of_mem_erase remains)) (by have := above _ member; omega)
      later (by rw [Finset.card_erase_of_mem member]; omega)
    refine ⟨pos :: visited, List.Pairwise.cons ?_ sorted, ?_, fun rounds enough => ?_⟩
    · intro id seen
      rcases (members id).mp seen with rfl | inside
      · exact above _ member
      · exact above id (Finset.mem_of_mem_erase inside)
    · intro id
      rw [List.mem_cons, members, Finset.mem_erase]
      by_cases same : id = least <;> simp [same, member]
    · obtain ⟨more, rfl⟩ : ∃ more, rounds = more + 1 := ⟨rounds - 1, by omega⟩
      have round := loop more (by omega)
      simp only [setRegionObjs_pool] at round
      simp [iterLoop, pmbIterValid, pmbIterNext, pmbIterPos, pmbIterGet, valid, val, round]

def Listed (list : Option Caslist) (id : Nat) : Prop :=
  ∃ l, list = some l ∧ id ∈ RangeList.elements l.ranges

theorem ListOf.listed {list : Option Caslist} {ids : Finset Nat} (lists : ListOf list ids) (id : Nat) :
    Listed list id ↔ id ∈ ids := by
  obtain ⟨l, rfl, represents⟩ := lists
  simp [Listed, represents.elements_eq]

theorem regionObjs_eq (s : Store) (region : Region) :
    s.regionObjs region = s.recovered (match region with | .data => .objs | .metadata => .metaObjs) := by
  cases region <;> rfl

theorem pmbGet_valid {h : Handle} {m : Mem} {id : Nat} (positive : id ≠ 0) (valid : h.ValidObject m id) :
    ∃ object, pmbGet h m id = .ok object := by
  obtain ⟨obj, direct, live, -⟩ := valid
  have found : backendGet h m id = .ok obj := by simp [backendGet, positive, direct, live]
  simp [pmbGet, found]

theorem recovered_listed {h : Handle} (ids : h.Ids) {s s' : Store} (recovered : Recovery h s.emptyLists s')
    (kind : RecoveryList) (id : Nat) :
    Listed (s'.recovered kind) id ↔
      id ≠ 0 ∧ id < h.totalObjsCount + h.metaObjsCount ∧ kind = recoveryList h s.pool.mem id := by
  obtain ⟨members, lists, iff⟩ := recovery_lists ids recovered kind
  rw [lists.listed, iff]

-- every block is classified once, and the loop over an iterator visits the objects in order
theorem recovery_classifies (h : Handle) (ids : h.Ids) (s s' : Store)
    (recovered : Recovery h s.emptyLists s') :
    (∀ id, Listed s'.objsList id ↔
      (1 ≤ id ∧ id < h.totalObjsCount) ∧ h.ValidObject s.pool.mem id) ∧
    (∀ id, Listed s'.freeList id ↔
      (1 ≤ id ∧ id < h.totalObjsCount) ∧ ¬h.ValidObject s.pool.mem id) ∧
    (∀ id, Listed s'.metaObjsList id ↔
      (h.totalObjsCount ≤ id ∧ id < h.totalObjsCount + h.metaObjsCount) ∧ h.ValidObject s.pool.mem id) ∧
    (∀ id, Listed s'.metaFreeList id ↔
      (h.totalObjsCount ≤ id ∧ id < h.totalObjsCount + h.metaObjsCount) ∧ ¬h.ValidObject s.pool.mem id) ∧
    (∀ id, 1 ≤ id → id < h.totalObjsCount + h.metaObjsCount → ∃! kind, Listed (s'.recovered kind) id) ∧
    ∀ region, ∃ visits : List (Nat × Except Status PmbObject),
      (∃ enough, ∀ rounds, enough < rounds →
        iterLoop h rounds (pmbIterOpen s' region).1 (pmbIterOpen s' region).2 = some visits) ∧
      (visits.map Prod.fst).Pairwise (· < ·) ∧
      (∀ id, id ∈ visits.map Prod.fst ↔ Listed (s'.regionObjs region) id) ∧
      ∀ visit ∈ visits, visit.2 = pmbGet h s'.pool.mem visit.1 ∧ ∃ object, visit.2 = .ok object := by
  have nonempty := ids.null_block
  have listed := recovered_listed ids recovered
  have decided (kind : RecoveryList) (id : Nat) (positive : id ≠ 0)
      (known : id < h.totalObjsCount + h.metaObjsCount) := recoveryList_eq ids s.pool.mem positive known kind
  have pool : s'.pool = s.pool := by
    obtain ⟨pushes, -, rfl⟩ := recovered
    exact foldl_recoveryPush_pool pushes _
  refine ⟨fun id => ?_, fun id => ?_, fun id => ?_, fun id => ?_, fun id positive known => ?_, fun region => ?_⟩
  · have iff := listed .objs id
    have objs := decided .objs id
    grind [Store.recovered]
  · have iff := listed .free id
    have free := decided .free id
    grind [Store.recovered]
  · have iff := listed .metaObjs id
    have metaObjs := decided .metaObjs id
    grind [Store.recovered]
  · have iff := listed .metaFree id
    have metaFree := decided .metaFree id
    grind [Store.recovered]
  · refine ⟨recoveryList h s.pool.mem id, (listed _ id).mpr ⟨by omega, known, rfl⟩, fun kind member => ?_⟩
    exact ((listed kind id).mp member).2.2
  · obtain ⟨members, lists, iff⟩ :=
      recovery_lists ids recovered (match region with | .data => .objs | .metadata => .metaObjs)
    rw [← regionObjs_eq] at lists
    have room : ∀ id ∈ members, id + 1 < 2 ^ 64 := by
      intro id member
      have := ((iff id).mp member).2.1
      have := ids.fit
      omega
    have valid : ∀ id ∈ members, id ≠ 0 ∧ h.ValidObject s.pool.mem id := by
      intro id member
      obtain ⟨positive, known, kind⟩ := (iff id).mp member
      refine ⟨positive, ?_⟩
      cases region with
      | data => exact ((decided .objs id positive known).mp kind).2
      | metadata => exact ((decided .metaObjs id positive known).mp kind).2
    by_cases empty : members = ∅
    · subst empty
      have opened : pmbIterOpen s' region = (s'.setRegionObjs region (s'.regionObjs region), none) := by
        obtain ⟨l, same, represents⟩ := lists
        simp [pmbIterOpen, same, caslistPop_empty represents]
      refine ⟨[], ⟨0, fun rounds positive => ?_⟩, List.Pairwise.nil, fun id => ?_, by simp⟩
      · obtain ⟨more, rfl⟩ : ∃ more, rounds = more + 1 := ⟨rounds - 1, by omega⟩
        simp [opened, iterLoop, pmbIterValid]
      · rw [lists.listed]
        simp
    · obtain ⟨least, member, lower, ret, val, rest⟩ :=
        lists.pop (Finset.nonempty_iff_ne_empty.mpr empty) room 0
      have opened : pmbIterOpen s' region =
          (s'.setRegionObjs region (caslistPop (s'.regionObjs region) 0).list, some ⟨region, least⟩) := by
        obtain ⟨l, same, represents⟩ := lists
        rw [same] at ret val
        simp [pmbIterOpen, same, ret, val]
      obtain ⟨visited, sorted, seen, loop⟩ := iterLoop_visits h (members.erase least)
        (s'.setRegionObjs region (caslistPop (s'.regionObjs region) 0).list) region least
        (by rwa [regionObjs_setRegionObjs]) (fun id remains => room id (Finset.mem_of_mem_erase remains))
        (valid _ member).1 (fun id remains => by
          obtain ⟨other, inside⟩ := Finset.mem_erase.mp remains
          have := lower id inside
          omega)
      have all : ∀ id, id ∈ visited ↔ id ∈ members := by
        intro id
        rw [seen, Finset.mem_erase]
        by_cases same : id = least <;> simp [same, member]
      refine ⟨_, ⟨_, fun rounds enough => by rw [opened]; exact loop rounds enough⟩, ?_, fun id => ?_, ?_⟩
      · simpa [List.map_map, Function.comp_def] using sorted
      · rw [lists.listed]
        simpa [List.map_map, Function.comp_def] using all id
      · intro visit inside
        obtain ⟨id, visitedId, rfl⟩ := List.mem_map.mp inside
        obtain ⟨positive, object⟩ := valid id ((all id).mp visitedId)
        rw [setRegionObjs_pool, pool]
        exact ⟨rfl, pmbGet_valid positive object⟩

-- the pool of a file that has just been made, before its lists
def zeroStore : Store where
  pool := ⟨fun _ => 0, []⟩
  objsList := none
  freeList := none
  metaObjsList := none
  metaFreeList := none
  txSlotsList := none
  updIdList := fun _ => ⟨0, fun _ => ⟨0, 0, 0⟩⟩

def onePair (blkId : Nat) : PmbPair where
  blkId := blkId
  id := 7
  offset := 0
  key := some fun _ => 107
  keyLen := 1
  val := some fun _ => 118
  valLen := 1

-- a recovery whose workers run one after the other
def recoverInOrder (h : Handle) (s : Store) : Store :=
  (recoveryThreads h s.pool.mem).flatten.foldl Store.recoveryPush s.emptyLists

theorem recoverInOrder_recovery (h : Handle) (s : Store) : Recovery h s.emptyLists (recoverInOrder h s) :=
  ⟨_, interleaves_flatten _, rfl⟩

theorem sampleHandle_ids : sampleHandle.Ids := ⟨by decide, by decide⟩

-- objects in block 1 and in meta block 4, and a checksum in block 2 that is not that of its bytes
def mixedStore : Store :=
  { zeroStore with
    pool := (tputMetaBlock sampleHandle (tputBlock sampleHandle zeroStore.pool 139638110957568 none (onePair 0))
      139638110965760 none (onePair 0)).setFlch64 139638110961664 2 }

theorem recovery_classifies_sample :
    ∃ s', Recovery sampleHandle mixedStore.emptyLists s' ∧ Listed s'.objsList 1 ∧ Listed s'.freeList 2 ∧
      Listed s'.metaObjsList 4 ∧ ∃ rounds visits,
        iterLoop sampleHandle rounds (pmbIterOpen s' .data).1 (pmbIterOpen s' .data).2 = some visits ∧
          (1, pmbGet sampleHandle s'.pool.mem 1) ∈ visits := by
  have recovered := recoverInOrder_recovery sampleHandle mixedStore
  obtain ⟨objs, free, metaObjs, -, -, loops⟩ := recovery_classifies sampleHandle sampleHandle_ids mixedStore _ recovered
  have first : Listed (recoverInOrder sampleHandle mixedStore).objsList 1 := (objs 1).mpr ⟨by decide,
    139638110957568, by decide +kernel, by decide +kernel, by decide +kernel⟩
  have second : ¬sampleHandle.ValidObject mixedStore.pool.mem 2 := by
    rintro ⟨obj, direct, -, valid⟩
    have block : backendDirect sampleHandle.backend 2 = some 139638110961664 := by decide +kernel
    cases block.symm.trans direct
    exact absurd valid (by decide +kernel)
  obtain ⟨visits, ⟨enough, loop⟩, -, seen, shown⟩ := loops .data
  obtain ⟨⟨id, got⟩, member, same⟩ := List.mem_map.mp ((seen 1).mpr first)
  obtain rfl : id = 1 := same
  refine ⟨_, recovered, first, (free 2).mpr ⟨by decide, second⟩, (metaObjs 4).mpr ⟨by decide, 139638110965760,
    by decide +kernel, by decide +kernel, by decide +kernel⟩, enough + 1, visits, loop _ (Nat.lt_succ_self _), ?_⟩
  rwa [← (shown _ member).1]

theorem populateLoop_succ {h : Handle} (nonempty : 1 ≤ h.totalObjsCount)
    (total : h.totalObjsCount < 2 ^ 64) (pos : Nat) (s : Store) :
    populateLoop h (pos + 1) s =
      if pos + 1 < h.totalObjsCount then
        populateLoop h pos { s with freeList := caslistPush s.freeList (pos + 1) }
      else populateLoop h pos { s with metaFreeList := caslistPush s.metaFreeList (pos + 1) } := by
  have border := sub64_of_le nonempty total
  have data : pos + 1 ≤ h.totalObjsCount - 1 ↔ pos + 1 < h.totalObjsCount := by omega
  simp only [populateLoop, border, data, apply_ite (populateLoop h pos)]

theorem populateLoop_lists {h : Handle} (nonempty : 1 ≤ h.totalObjsCount)
    (total : h.totalObjsCount < 2 ^ 64) (pos : Nat) (small : pos < 2 ^ 64) (s : Store)
    (free metaFree : Finset Nat) (lists : ListOf s.freeList free)
    (metaLists : ListOf s.metaFreeList metaFree) :
    ListOf (populateLoop h pos s).freeList (free ∪ Finset.Icc 1 (min pos (h.totalObjsCount - 1))) ∧
      ListOf (populateLoop h pos s).metaFreeList (metaFree ∪ Finset.Icc h.totalObjsCount pos) := by
  induction pos generalizing s free metaFree with
  | zero =>
    have none : Finset.Icc h.totalObjsCount 0 = ∅ := Finset.Icc_eq_empty (by omega)
    simpa [populateLoop, none] using And.intro lists metaLists
  | succ pos ih =>
    rw [populateLoop_succ nonempty total]
    by_cases data : pos + 1 < h.totalObjsCount
    · rw [if_pos data]
      have grown : free ∪ Finset.Icc 1 (min (pos + 1) (h.totalObjsCount - 1)) =
          insert (pos + 1) free ∪ Finset.Icc 1 (min pos (h.totalObjsCount - 1)) := by
        ext id
        simp only [Finset.mem_union, Finset.mem_insert, Finset.mem_Icc]
        grind
      have same : Finset.Icc h.totalObjsCount (pos + 1) = Finset.Icc h.totalObjsCount pos := by
        ext id
        simp only [Finset.mem_Icc]
        omega
      rw [grown, same]
      exact ih (by omega) _ _ _ (lists.push_pos (by omega) small) metaLists
    · rw [if_neg data]
      have same : Finset.Icc 1 (min (pos + 1) (h.totalObjsCount - 1)) =
          Finset.Icc 1 (min pos (h.totalObjsCount - 1)) := by
        ext id
        simp only [Finset.mem_Icc]
        omega
      have grown : metaFree ∪ Finset.Icc h.totalObjsCount (pos + 1) =
          insert (pos + 1) metaFree ∪ Finset.Icc h.totalObjsCount pos := by
        ext id
        simp only [Finset.mem_union, Finset.mem_insert, Finset.mem_Icc]
        grind
      rw [same, grown]
      exact ih (by omega) _ _ _ lists (metaLists.push_pos (by omega) small)

theorem openEmpty_lists {h : Handle} (ids : h.Ids) (some_meta : 1 ≤ h.metaObjsCount) (s : Store) :
    ListOf (openEmpty h s).freeList (Finset.Icc 1 h.totalObjsCount) ∧
      ListOf (openEmpty h s).metaFreeList (Finset.Icc 1 h.metaObjsCount ∪
        Finset.Icc h.totalObjsCount (h.totalObjsCount + h.metaObjsCount - 1)) := by
  have nonempty := ids.null_block
  have fit := ids.fit
  have bound : sub64 (u64 (h.totalObjsCount + h.metaObjsCount)) 1 =
      h.totalObjsCount + h.metaObjsCount - 1 := by
    rw [u64_of_lt fit, sub64_of_le (by omega) fit]
  have data : ListOf (caslistNew 1 h.totalObjsCount) (Finset.Icc 1 h.totalObjsCount) :=
    caslistNew_spec (le_refl 1) nonempty (by omega)
  have metadata : ListOf (caslistNew 1 h.metaObjsCount) (Finset.Icc 1 h.metaObjsCount) :=
    caslistNew_spec (le_refl 1) some_meta (by omega)
  unfold openEmpty populateFreeList
  rw [bound]
  have lists := populateLoop_lists nonempty (by omega) (h.totalObjsCount + h.metaObjsCount - 1)
    (by omega)
    { s with
      freeList := caslistNew 1 h.totalObjsCount
      metaFreeList := caslistNew 1 h.metaObjsCount
      objsList := none
      metaObjsList := none } _ _ data metadata
  refine ⟨?_, lists.2⟩
  have covered : Finset.Icc 1 (min (h.totalObjsCount + h.metaObjsCount - 1) (h.totalObjsCount - 1)) ⊆
      Finset.Icc 1 h.totalObjsCount := Finset.Icc_subset_Icc_right (by omega)
  rw [← Finset.union_eq_left.mpr covered]
  exact lists.1

-- the lists that a new pool should have
structure NewStoreExact (h : Handle) (s : Store) : Prop where
  free : ListOf s.freeList (Finset.Icc 1 (h.totalObjsCount - 1))
  metaFree : ListOf s.metaFreeList
    (Finset.Icc h.totalObjsCount (h.totalObjsCount + h.metaObjsCount - 1))
  disjoint : ∀ id, ¬(Listed s.freeList id ∧ Listed s.metaFreeList id)
  counts : ∀ region, pmbNfree s region = pmbNtotal h region
  reopened : ∀ s', Recovery h s.emptyLists s' →
    s'.freeList = s.freeList ∧ s'.metaFreeList = s.metaFreeList

theorem ssize_ne_pred {n : Nat} (positive : 1 ≤ n) (small : n < 2 ^ 64) : ssize n ≠ ((n - 1 : Nat) : Int) := by
  unfold ssize
  rw [Int.bmod_def]
  split <;> omega

-- the free list of a new pool has the first meta id in it, so none of the five facts about the data region holds for
-- any pool
theorem new_store_never_exact (h : Handle) (ids : h.Ids) (some_meta : 1 ≤ h.metaObjsCount) (s : Store) :
    ¬ListOf (openEmpty h s).freeList (Finset.Icc 1 (h.totalObjsCount - 1)) ∧
      Listed (openEmpty h s).freeList h.totalObjsCount ∧
      Listed (openEmpty h s).metaFreeList h.totalObjsCount ∧
      pmbNfree (openEmpty h s) .data ≠ pmbNtotal h .data ∧
      (∀ s', Recovery h (openEmpty h s).emptyLists s' → s'.freeList ≠ (openEmpty h s).freeList) ∧
      ¬NewStoreExact h (openEmpty h s) := by
  have nonempty := ids.null_block
  have fit := ids.fit
  obtain ⟨free, metaFree⟩ := openEmpty_lists ids some_meta s
  have inexact : ¬ListOf (openEmpty h s).freeList (Finset.Icc 1 (h.totalObjsCount - 1)) := by
    intro exact
    have same := free.same_ids exact
    have member : h.totalObjsCount ∈ Finset.Icc 1 h.totalObjsCount := by simp; omega
    rw [same, Finset.mem_Icc] at member
    omega
  have border : Listed (openEmpty h s).freeList h.totalObjsCount := by
    rw [free.listed, Finset.mem_Icc]
    omega
  refine ⟨inexact, border, ?_, ?_, ?_, fun exact => inexact exact.free⟩
  · rw [metaFree.listed]
    simp only [Finset.mem_union, Finset.mem_Icc]
    omega
  · rw [ids.border, pmbNfree, free.size, Nat.card_Icc, Nat.add_sub_cancel]
    exact ssize_ne_pred nonempty (by omega)
  · intro s' recovered same
    have listed := (recovered_listed ids recovered .free h.totalObjsCount).mp (by rwa [← same] at border)
    have data := (recoveryList_eq ids _ listed.1 listed.2.1 .free).mp listed.2.2
    exact lt_irrefl _ data.1

theorem new_store_never_exact_sample :
    pmbNfree (openEmpty sampleHandle zeroStore) .data ≠ pmbNtotal sampleHandle .data :=
  (new_store_never_exact sampleHandle sampleHandle_ids (by decide) zeroStore).2.2.2.1

-- three data blocks and two meta blocks: id 3 is free in both regions, and ids 1 and 2 as well
theorem new_store_counterexample :
    sampleHandle.totalObjsCount = 3 ∧ sampleHandle.metaObjsCount = 2 ∧
      (openEmpty sampleHandle zeroStore).freeList = some ⟨3, 1, 3, []⟩ ∧
      (openEmpty sampleHandle zeroStore).metaFreeList = some ⟨4, 1, 4, []⟩ ∧
      ¬NewStoreExact sampleHandle (openEmpty sampleHandle zeroStore) := by
  have free : (openEmpty sampleHandle zeroStore).freeList = some ⟨3, 1, 3, []⟩ := by decide +kernel
  have metaFree : (openEmpty sampleHandle zeroStore).metaFreeList = some ⟨4, 1, 4, []⟩ := by decide +kernel
  refine ⟨rfl, rfl, free, metaFree, fun exact => ?_⟩
  refine exact.disjoint 3 ⟨⟨_, free, ?_⟩, _, metaFree, ?_⟩ <;> decide

end PmBackend
