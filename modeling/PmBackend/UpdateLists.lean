import Mathlib.Logic.Relation
import PmBackend.BlockReuse
import PmBackend.Replays
import PmBackend.SlotOwnership
import PmBackend.Stores

set_option autoImplicit false

namespace PmBackend

open ByteMemory

-- the list names the blocks updated so far, in their order, and ends with an element of id 0
structure ListHolds (metalist : TxMetalist) (updated : List Nat) : Prop where
  ids : (List.range metalist.count).map (fun k => (metalist.list k).id) = updated
  distinct : updated.Nodup
  nonzero : 0 ∉ updated
  bound : metalist.count ≤ 128
  ends : metalist.count < 128 → (metalist.list metalist.count).id = 0

def addUpdated (updated : List Nat) (blkId : Nat) : List Nat :=
  if blkId ∈ updated then updated else updated ++ [blkId]

-- a block that is not in the list yet needs an element, and the one behind it is the next end mark
def AddSafe (metalist : TxMetalist) (updated : List Nat) (blkId : Nat) : Prop :=
  blkId ≠ 0 ∧ (blkId ∉ updated → metalist.count < 128 ∧
    (metalist.count + 1 < 128 → (metalist.list (metalist.count + 1)).id = 0))

-- the version, the length of the value and the checksum of a block were stored
def HeaderRewritten (h : Handle) (p q : Pool) (blkId : Nat) : Prop :=
  ∃ obj version valLen sum, backendDirect h.backend blkId = some obj ∧
    Stored p q (obj + 16) (encode 4 version) ∧ Stored p q (obj + 24) (encode 4 valLen) ∧
    Stored p q obj (encode 8 sum)

section Lists

variable {h : Handle} {s s' : Store} {metalist : TxMetalist} {updated : List Nat} {blkId : Nat}

theorem ListHolds.length (holds : ListHolds metalist updated) : updated.length = metalist.count := by
  rw [← holds.ids, List.length_map, List.length_range]

theorem listHolds_nil (empty : metalist.count = 0) (end_mark : (metalist.list 0).id = 0) :
    ListHolds metalist [] := by
  refine ⟨?_, List.nodup_nil, List.not_mem_nil, ?_, fun _ => ?_⟩
  · rw [empty]
    rfl
  · rw [empty]
    exact Nat.zero_le _
  · rw [empty]
    exact end_mark

theorem ListHolds.mem_iff (holds : ListHolds metalist updated) :
    blkId ∈ updated ↔ ∃ k < metalist.count, (metalist.list k).id = blkId := by
  rw [← holds.ids]
  simp [List.mem_map, List.mem_range]

theorem ListHolds.id_ne (holds : ListHolds metalist updated) {k : Nat} (below : k < metalist.count) :
    (metalist.list k).id ≠ 0 := by
  intro zero
  exact holds.nonzero (holds.mem_iff.mpr ⟨k, below, zero⟩)

theorem ListHolds.find (holds : ListHolds metalist updated) (blkId : Nat) :
    let i := metaFind metalist.list blkId metalist.count 0
    (blkId ∈ updated ∧ i < metalist.count ∧ (metalist.list i).id = blkId) ∨
      (blkId ∉ updated ∧ i = metalist.count) := by
  obtain ⟨-, upper, found, missed⟩ := metaFind_spec metalist.list blkId metalist.count 0
  intro i
  by_cases below : i < metalist.count
  · left
    have hit := (found (by omega)).resolve_right (holds.id_ne below)
    exact ⟨holds.mem_iff.mpr ⟨i, below, hit⟩, below, hit⟩
  · right
    have last : i = metalist.count := by omega
    refine ⟨fun member => ?_, last⟩
    obtain ⟨k, before, same⟩ := holds.mem_iff.mp member
    exact (missed k (Nat.zero_le k) (by omega)).1 same

theorem ListHolds.touches (holds : ListHolds metalist updated) (safe : AddSafe metalist updated blkId) :
    metaFind metalist.list blkId metalist.count 0 < 128 := by
  have bound := holds.bound
  rcases holds.find blkId with ⟨-, below, -⟩ | ⟨fresh, last⟩
  · omega
  · have := (safe.2 fresh).1
    omega

theorem txSlotMetaUpdAdd_element {txId size : Nat} (added : txSlotMetaUpdAdd h s txId blkId size = some s') :
    ∃ entry count,
      s'.updIdList = Function.update s.updIdList txId ⟨count, Function.update (s.updIdList txId).list
        (metaFind (s.updIdList txId).list blkId (s.updIdList txId).count 0) entry⟩ ∧
      (((s.updIdList txId).list (metaFind (s.updIdList txId).list blkId (s.updIdList txId).count 0)).id = 0 →
        entry.id = blkId ∧ count = (s.updIdList txId).count + 1) ∧
      (((s.updIdList txId).list (metaFind (s.updIdList txId).list blkId (s.updIdList txId).count 0)).id ≠ 0 →
        entry.id = ((s.updIdList txId).list
          (metaFind (s.updIdList txId).list blkId (s.updIdList txId).count 0)).id ∧
        count = (s.updIdList txId).count) := by
  -- the search decides which element is written; a new one has the id of the block
  unfold txSlotMetaUpdAdd at added
  simp only at added
  generalize metaFind (s.updIdList txId).list blkId (s.updIdList txId).count 0 = i at added ⊢
  obtain ⟨⟨entry, count⟩, joined, rfl⟩ := Option.map_eq_some_iff.mp added
  refine ⟨_, count, rfl, fun zero => ?_, fun used => ?_⟩
  · rw [if_pos zero] at joined
    obtain ⟨obj, -, same⟩ := Option.map_eq_some_iff.mp joined
    cases same
    refine ⟨?_, rfl⟩
    split <;> rfl
  · rw [if_neg used] at joined
    cases joined
    refine ⟨?_, rfl⟩
    split <;> rfl

theorem ListHolds.add {txId size : Nat} (holds : ListHolds (s.updIdList txId) updated)
    (safe : AddSafe (s.updIdList txId) updated blkId)
    (added : txSlotMetaUpdAdd h s txId blkId size = some s') :
    ListHolds (s'.updIdList txId) (addUpdated updated blkId) ∧ ∀ j ≠ txId, s'.updIdList j = s.updIdList j := by
  obtain ⟨nonzero, room⟩ := safe
  have found := holds.find blkId
  obtain ⟨entry, count, lists, fresh_element, used_element⟩ := txSlotMetaUpdAdd_element added
  simp only at found
  generalize metaFind (s.updIdList txId).list blkId (s.updIdList txId).count 0 = i at *
  rw [lists]
  refine ⟨?_, fun j other => Function.update_of_ne other _ _⟩
  rw [Function.update_self]
  rcases found with ⟨member, below, hit⟩ | ⟨fresh, last⟩
  · -- the element of the block keeps its id
    obtain ⟨same_id, rfl⟩ := used_element (holds.id_ne below)
    have ids : ∀ k, (Function.update (s.updIdList txId).list i entry k).id = ((s.updIdList txId).list k).id := by
      intro k
      by_cases here : k = i
      · rw [here, Function.update_self, same_id]
      · rw [Function.update_of_ne here]
    rw [addUpdated, if_pos member]
    refine ⟨?_, holds.distinct, holds.nonzero, holds.bound, fun more => (ids _).trans (holds.ends more)⟩
    rw [← holds.ids]
    exact List.map_congr_left fun k _ => ids k
  · -- the block takes the end mark, and the element behind it becomes the next one
    obtain ⟨space, next⟩ := room fresh
    subst last
    obtain ⟨new_id, rfl⟩ := fresh_element (holds.ends space)
    rw [addUpdated, if_neg fresh]
    refine ⟨?_, ?_, ?_, space, fun more => ?_⟩
    · have before : (List.range (s.updIdList txId).count).map (fun k =>
          (Function.update (s.updIdList txId).list (s.updIdList txId).count entry k).id) = updated := by
        rw [← holds.ids]
        refine List.map_congr_left fun k member => ?_
        rw [Function.update_of_ne (Nat.ne_of_lt (List.mem_range.mp member))]
      simp only [List.range_succ, List.map_append, List.map_cons, List.map_nil, before, Function.update_self, new_id]
    · rw [List.nodup_append]
      refine ⟨holds.distinct, List.nodup_singleton _, fun a member b last same => ?_⟩
      rw [List.mem_singleton] at last
      rw [same, last] at member
      exact fresh member
    · simp only [List.mem_append, List.mem_singleton, not_or]
      exact ⟨holds.nonzero, Ne.symm nonzero⟩
    · have other : (s.updIdList txId).count + 1 ≠ (s.updIdList txId).count := by omega
      exact (congrArg TxMeta.id (Function.update_of_ne other _ _)).trans (next more)

theorem metaProcess_rewrites {list : Nat → TxMeta} {count i : Nat} {p q : Pool}
    (done : metaProcess h list count i p = some q) :
    p.Follows q ∧ ∀ k, i ≤ k → k < i + count → HeaderRewritten h p q (list k).id := by
  induction count generalizing i p with
  | zero =>
    cases done
    exact ⟨Pool.Follows.refl _, fun k lower upper => by omega⟩
  | succ count ih =>
    unfold metaProcess at done
    split at done
    · cases done
    · next obj direct =>
      obtain ⟨later, rewritten⟩ := ih done
      have first := (Pool.Follows.refl p).store (obj + 16) (encode 4 (list i).version)
      have second := first.store (obj + 24) (encode 4 (list i).valLen)
      have sum := second.store obj (encode 8 (checksumOf h ((p.setVersion obj (list i).version).setValLen obj
        (list i).valLen).mem obj (sizeofDataHdr + h.maxKeyLen +
          valLen ((p.setVersion obj (list i).version).setValLen obj (list i).valLen).mem obj)))
      refine ⟨sum.trans later, fun k lower upper => ?_⟩
      by_cases here : k = i
      · subst here
        refine ⟨obj, (list k).version, (list k).valLen, _, direct, ?_, ?_, (stored_store second _ _).mono later⟩
        · exact ((stored_store (Pool.Follows.refl p) _ _).mono ((Pool.Follows.refl _).store _ _)).mono
            (((Pool.Follows.refl _).store _ _).trans later)
        · exact (stored_store first _ _).mono (((Pool.Follows.refl _).store _ _).trans later)
      · obtain ⟨addr, version, valLen, value, known, stores⟩ := rewritten k (by omega) (by omega)
        exact ⟨addr, version, valLen, value, known, stores.1.after sum, stores.2.1.after sum,
          stores.2.2.after sum⟩

theorem ListHolds.process {txId : Nat} (holds : ListHolds (s.updIdList txId) updated)
    (done : txSlotMetaUpdProcess h s txId = some s') :
    ListHolds (s'.updIdList txId) [] ∧ (∀ j ≠ txId, s'.updIdList j = s.updIdList j) ∧
      (s'.updIdList txId).count = 0 ∧ ∀ blkId ∈ updated, HeaderRewritten h s.pool s'.pool blkId := by
  unfold txSlotMetaUpdProcess at done
  obtain ⟨pool, processed, rfl⟩ := Option.map_eq_some_iff.mp done
  obtain ⟨-, rewritten⟩ := metaProcess_rewrites processed
  simp only [Function.update_self]
  refine ⟨⟨rfl, List.nodup_nil, List.not_mem_nil, Nat.zero_le _, fun _ => ?_⟩,
    fun j other => Function.update_of_ne other _ _, trivial, fun blkId member => ?_⟩
  · simp only
    split
    · rfl
    · next unused =>
      have empty : (s.updIdList txId).count = 0 := by omega
      have ends := holds.ends (by omega)
      rwa [empty] at ends
  · obtain ⟨k, below, same⟩ := holds.mem_iff.mp member
    rw [← same]
    exact rewritten k (Nat.zero_le k) (by omega)

theorem txUpdateBlock_adds {txId offset : Nat} {payload : List UInt8}
    (updated : txUpdateBlock h s txId blkId payload offset = some s') :
    ∃ t size, t.updIdList = s.updIdList ∧ txSlotMetaUpdAdd h t txId blkId size = some s' := by
  unfold txUpdateBlock at updated
  split at updated
  · split at updated
    · exact ⟨s, _, rfl, updated⟩
    · cases updated
  · next obj direct =>
    exact ⟨{ s with pool := backendMemcpy h s.pool (obj + sizeofDataHdr + h.maxKeyLen + offset) payload }, _,
      rfl, updated⟩

end Lists

-- a system, with the blocks updated for each slot since its list was last processed
structure Tracked where
  sys : System
  updated : Nat → List Nat

-- the block that the next entry of an execution updates in place
def updatesBlock (sys : System) (i : Nat) : Option Nat :=
  match sys.phase i with
  | .executing pos stop =>
    if pos < stop ∧ (readEntry sys.store.pool.mem pos).type = TxOp.updinplace.code then
      some (readEntry sys.store.pool.mem pos).blkId1
    else none
  | _ => none

def Tracked.next (t : Tracked) : Action → Nat → List Nat
  | .entry i =>
    match updatesBlock t.sys i with
    | some blkId => Function.update t.updated i (addUpdated (t.updated i) blkId)
    | none => t.updated
  | .clear i =>
    match t.sys.phase i with
    | .executing _ _ => Function.update t.updated i []
    | _ => t.updated
  | _ => t.updated

-- what keeps the list of a slot right: room for each block that is new in it
def ListSafe (t : Tracked) : Action → Prop
  | .entry i => ∀ blkId, updatesBlock t.sys i = some blkId →
    AddSafe (t.sys.store.updIdList i) (t.updated i) blkId
  | _ => True

def TrackedStep (h : Handle) (t t' : Tracked) : Prop :=
  ∃ action, ListSafe t action ∧ microStep h t.sys action = some t'.sys ∧ t'.updated = t.next action

section Steps

variable {h : Handle} {s s' : Store} {i : Nat}

theorem txSlotAppend_lists (txSlotId : Nat) (fill : Pool → Nat → Pool) (len : Nat) :
    (txSlotAppend h s txSlotId fill len).1.updIdList = s.updIdList := by
  unfold txSlotAppend
  split
  · rfl
  · simp only
    split <;> rfl

theorem putStep_lists (metadata : Bool) (kv : PmbPair) (old : Option Nat) (blkId : Nat) :
    (putStep h s i metadata kv old blkId).updIdList = s.updIdList := by
  obtain ⟨fill, -, logged⟩ := logNewBlock_append h s (i + 1) kv.blkId blkId
  have lists : (logNewBlock h s (i + 1) kv.blkId blkId).1.updIdList = s.updIdList := by
    rw [logged]
    exact txSlotAppend_lists _ _ _
  unfold putStep
  split
  · rfl
  · simp only
    split
    · split <;> exact lists
    · exact lists

theorem entryStep_lists {phase phase' : Phase} (done : entryStep h s i phase = some (s', phase')) :
    (∃ pos stop, phase = .executing pos stop ∧
        (pos < stop ∧ (readEntry s.pool.mem pos).type = TxOp.updinplace.code) ∧
        ∃ payload offset, txUpdateBlock h s i (readEntry s.pool.mem pos).blkId1 payload offset = some s') ∨
      ((∀ pos stop, phase = .executing pos stop →
        ¬(pos < stop ∧ (readEntry s.pool.mem pos).type = TxOp.updinplace.code)) ∧
        s'.updIdList = s.updIdList) := by
  unfold entryStep at done
  split at done
  · next pos stop =>
    split at done
    · next more =>
      simp only at done
      split at done
      · next zeroes =>
        right
        refine ⟨fun pos' stop' same both => ?_, ?_⟩
        · cases same
          exact zeroes_not_updinplace zeroes both.2
        · split at done <;> cases done <;> rfl
      · next other =>
        obtain ⟨next, executed, same⟩ := Option.map_eq_some_iff.mp done
        cases same
        unfold executeEntry at executed
        rw [if_neg other] at executed
        split at executed
        · next updinplace => exact Or.inl ⟨pos, stop, rfl, ⟨more, updinplace⟩, _, _, executed⟩
        · next plain =>
          cases executed
          exact Or.inr ⟨fun pos' stop' same both => plain (by cases same; exact both.2), rfl⟩
    · cases done
  · next pos stop =>
    right
    refine ⟨fun pos' stop' same _ => ?_, ?_⟩
    · cases same
    split at done
    · simp only at done
      split at done
      · cases done
        rfl
      · split at done <;> cases done <;> rfl
    · cases done
  · cases done

theorem startStep_lists (slot : Nat) (abort : Bool) : (startStep h s i slot abort).1.updIdList = s.updIdList := by
  unfold startStep
  simp only
  split <;> split <;> rfl

theorem microStep_calm {sys sys' : System} {action : Action}
    (calm : ∀ i, action ≠ .entry i ∧ action ≠ .clear i) (done : microStep h sys action = some sys') :
    sys'.store.updIdList = sys.store.updIdList := by
  cases action with
  | begin =>
    simp only [microStep] at done
    split at done
    · cases done
      simp only [pmbTxBegin, txSlotInit]
      split
      · rfl
      · split
        · rfl
        · split <;> rfl
    · cases done
  | take i metadata kv =>
    simp only [microStep] at done
    split at done
    · split at done
      · obtain ⟨⟨store, phase⟩, taken, rfl⟩ := Option.map_eq_some_iff.mp done
        obtain ⟨old, taken⟩ := takeStep_some taken
        obtain ⟨-, rfl, -⟩ := takeBlock_some taken
        cases metadata <;> rfl
      · cases done
    · cases done
  | put i =>
    simp only [microStep] at done
    split at done
    · cases done
      exact putStep_lists _ _ _ _
    · cases done
  | smallUpdate i kv =>
    simp only [microStep] at done
    split at done
    · split at done
      · cases done
        exact txSlotAppend_lists _ _ _
      · cases done
    · cases done
  | tdel i blkId =>
    simp only [microStep] at done
    split at done
    · cases done
      simp only [pmbTdel]
      split
      · rfl
      · exact txSlotAppend_lists _ _ _
    · cases done
  | commit i =>
    simp only [microStep] at done
    split at done
    · cases done
      simp only [pmbTxCommit, txSlotCommit]
      split
      · rfl
      · split
        · rfl
        · split <;> rfl
    · cases done
  | execute i =>
    simp only [microStep] at done
    split at done
    · cases done
      exact startStep_lists _ _
    · cases done
  | abort i =>
    simp only [microStep] at done
    split at done
    · cases done
      exact startStep_lists _ _
    · cases done
  | entry i => exact absurd rfl (calm i).1
  | push i =>
    obtain ⟨⟨store, phase⟩, pushed, rfl⟩ := Option.map_eq_some_iff.mp done
    unfold pushStep at pushed
    split at pushed
    · cases pushed
      exact (release_frame h sys.store _).2.1
    · cases pushed
      exact (release_frame h sys.store _).2.1
    · cases pushed
  | clear i => exact absurd rfl (calm i).2
  | free i =>
    simp only [microStep] at done
    split at done
    · cases done
      rfl
    · cases done

theorem updatesBlock_some {sys : System} {blkId pos stop : Nat} (running : sys.phase i = .executing pos stop) :
    updatesBlock sys i = some blkId ↔
      (pos < stop ∧ (readEntry sys.store.pool.mem pos).type = TxOp.updinplace.code) ∧
        (readEntry sys.store.pool.mem pos).blkId1 = blkId := by
  unfold updatesBlock
  rw [running]
  simp only
  split
  · next both => simp [both]
  · next neither => simp [neither]

-- what the update list of every slot holds
def AllHold (h : Handle) (t : Tracked) : Prop :=
  ∀ i < h.txSlotsCount, ListHolds (t.sys.store.updIdList i) (t.updated i)

theorem AllHold.entry {t : Tracked} (all : AllHold h t) {sys' : System}
    (safe : ListSafe t (.entry i)) (done : microStep h t.sys (.entry i) = some sys') :
    AllHold h ⟨sys', t.next (.entry i)⟩ := by
  obtain ⟨⟨store, phase⟩, met, rfl⟩ := Option.map_eq_some_iff.mp done
  intro j known
  change ListHolds (store.updIdList j) (t.next (.entry i) j)
  rcases entryStep_lists met with ⟨pos, stop, running, updinplace, payload, offset, updated⟩ | ⟨calm, lists⟩
  · have block := (updatesBlock_some running).mpr ⟨updinplace, rfl⟩
    obtain ⟨before, size, lists, added⟩ := txUpdateBlock_adds updated
    have next : t.next (.entry i) = Function.update t.updated i (addUpdated (t.updated i)
        (readEntry t.sys.store.pool.mem pos).blkId1) := by simp only [Tracked.next, block]
    rw [next]
    by_cases here : j = i
    · subst here
      rw [Function.update_self]
      have holds := all j known
      rw [← lists] at holds
      exact (holds.add (by rw [lists]; exact safe _ block) added).1
    · rw [Function.update_of_ne here]
      obtain ⟨entry, count, lists', -, -⟩ := txSlotMetaUpdAdd_element added
      rw [lists', Function.update_of_ne here, lists]
      exact all j known
  · have none_updated : updatesBlock t.sys i = none := by
      unfold updatesBlock
      split
      · next pos stop running => rw [if_neg (calm pos stop running)]
      · rfl
    have next : t.next (.entry i) = t.updated := by simp only [Tracked.next, none_updated]
    rw [next, lists]
    exact all j known

theorem clear_lists {sys sys' : System} (done : microStep h sys (.clear i) = some sys') :
    (∃ pos stop processed, sys.phase i = .executing pos stop ∧
        txSlotMetaUpdProcess h sys.store i = some processed ∧ sys'.store.updIdList = processed.updIdList ∧
        processed.pool.Follows sys'.store.pool) ∨
      ((∀ pos stop, sys.phase i ≠ .executing pos stop) ∧ sys'.store.updIdList = sys.store.updIdList) := by
  simp only [microStep] at done
  split at done
  · next slot direct =>
    obtain ⟨⟨store, phase⟩, cleared, rfl⟩ := Option.map_eq_some_iff.mp done
    unfold clearStep at cleared
    split at cleared
    · next pos stop running =>
      split at cleared
      · cases cleared
      · obtain ⟨processed, process, same⟩ := Option.map_eq_some_iff.mp cleared
        cases same
        exact Or.inl ⟨pos, stop, processed, running, process, rfl, (Pool.Follows.refl _).txSetZero h slot⟩
    · next pos stop aborting =>
      split at cleared
      · cases cleared
      · cases cleared
        refine Or.inr ⟨fun pos' stop' running => ?_, rfl⟩
        rw [aborting] at running
        cases running
    · cases cleared
  · cases done

theorem AllHold.clear {t : Tracked} (all : AllHold h t) {sys' : System}
    (done : microStep h t.sys (.clear i) = some sys') : AllHold h ⟨sys', t.next (.clear i)⟩ := by
  intro j known
  change ListHolds (sys'.store.updIdList j) (t.next (.clear i) j)
  rcases clear_lists done with ⟨pos, stop, processed, running, process, lists, -⟩ | ⟨other, lists⟩
  · have next : t.next (.clear i) = Function.update t.updated i [] := by simp only [Tracked.next, running]
    rw [next, lists]
    by_cases here : j = i
    · subst here
      rw [Function.update_self]
      exact ((all j known).process process).1
    · rw [Function.update_of_ne here]
      obtain ⟨pool, -, rfl⟩ := Option.map_eq_some_iff.mp process
      simp only [Function.update_of_ne here]
      exact all j known
  · have next : t.next (.clear i) = t.updated := by
      cases phase : t.sys.phase i with
      | executing pos stop => exact absurd phase (other pos stop)
      | _ => simp only [Tracked.next, phase]
    rw [next, lists]
    exact all j known

theorem AllHold.step {t t' : Tracked} (all : AllHold h t) (step : TrackedStep h t t') : AllHold h t' := by
  obtain ⟨action, safe, done, updated⟩ := step
  obtain ⟨sys', next⟩ := t'
  change next = t.next action at updated
  subst updated
  by_cases calm : ∀ i, action ≠ .entry i ∧ action ≠ .clear i
  · have lists := microStep_calm calm done
    have same : t.next action = t.updated := by
      cases action with
      | entry i => exact absurd rfl (calm i).1
      | clear i => exact absurd rfl (calm i).2
      | _ => rfl
    intro j known
    change ListHolds (sys'.store.updIdList j) (t.next action j)
    rw [same, lists]
    exact all j known
  · obtain ⟨i, entry | clear⟩ : ∃ i, action = .entry i ∨ action = .clear i := by
      by_contra neither
      simp only [not_exists, not_or] at neither
      exact calm neither
    · subst entry
      exact all.entry safe done
    · subst clear
      exact all.clear done

end Steps

-- no slot that replay may take for a committed one has an in-place update
def NoUpdatesReplayed (h : Handle) (m : Mem) : Prop :=
  ∀ i, 1 ≤ i → i < h.txSlotsCount → slotStatus m (h.slotAddr i) = TxStatus.commited.code →
    ∀ r ∈ slotStrides m (h.slotAddr i), r.1 + 24 ≤ h.logEnd ∧ r.2.type ≠ TxOp.updinplace.code

inductive ListsOpened (h : Handle) (heap : Nat → Nat → TxMeta) : Store → Prop where
  | created (s initial : Store) (init : txLogInit h s heap = some initial) :
      ListsOpened h heap (openEmpty h initial)
  | existed (s initial recovered : Store) (init : txLogInit h s heap = some initial)
      (no_updates : NoUpdatesReplayed h initial.pool.mem) (reopened : OpenExisting h initial recovered) :
      ListsOpened h heap recovered

section Opening

variable {h : Handle} {s s' : Store}

theorem checkSlot_lists (layout : h.LogLayout) {i : Nat} (m : Mem) (no_updates : NoUpdatesReplayed h m)
    (positive : 1 ≤ i) (same : ∀ x, h.slotAddr i ≤ x → x < h.logEnd → s.pool.mem x = m x)
    (checked : checkSlot h s i = some s') : s'.updIdList = s.updIdList := by
  by_cases known : i < h.txSlotsCount
  · have room := layout.slot_room
    have below := Handle.slot_below known
    have status : h.status s i = slotStatus m (h.slotAddr i) :=
      word_congr _ _ _ _ fun x lower upper => same x (by omega) (by omega)
    by_cases commited : h.status s i = TxStatus.commited.code
    · have strides := no_updates i positive known (status ▸ commited)
      have used : h.status s i ≠ TxStatus.empty.code := by rw [commited]; decide
      rw [checkSlot_replays layout known m same used fun r member => (strides r member).1] at checked
      obtain ⟨replayed, walked, rfl⟩ := Option.map_eq_some_iff.mp checked
      refine foldlM_induct (fun t => t.updIdList = s.updIdList) _ _ (fun r member t t' before entry => ?_) s
        replayed rfl walked
      have stride := (List.takeWhile_sublist _).subset member
      exact (checkEntry_lists (fun _ => (strides r stride).2) entry).trans before
    · unfold checkSlot at checked
      rw [layout.slot_eq known] at checked
      simp only at checked
      split at checked
      · cases checked
        rfl
      · obtain ⟨replayed, walked, rfl⟩ := Option.map_eq_some_iff.mp checked
        have refused : (utilChecksumVerify h s.pool.mem (h.slotAddr i)
            (u64 (sizeofTxSlot + slotSize s.pool.mem (h.slotAddr i))) &&
          slotStatus s.pool.mem (h.slotAddr i) == TxStatus.commited.code) = false := by
          have other : slotStatus s.pool.mem (h.slotAddr i) ≠ TxStatus.commited.code := commited
          simp [other]
        rw [refused] at walked
        exact checkWalk_induct (fun t => t.updIdList = s.updIdList) i (h.slotAddr i) false
          (fun t entries entry t' before entry' =>
            (checkEntry_lists (fun impossible => by cases impossible) entry').trans before) _ _ s replayed rfl walked
  · unfold checkSlot at checked
    rw [layout.slot_none (by omega)] at checked
    cases checked
    rfl

theorem checkSlots_lists (layout : h.LogLayout) (m : Mem) (no_updates : NoUpdatesReplayed h m) (rounds i : Nat)
    (positive : 1 ≤ i) (bound : i ≤ h.txSlotsCount + 1) (s : Store)
    (same : ∀ x, h.slotAddr i ≤ x → x < h.logEnd → s.pool.mem x = m x)
    (checked : checkSlots h rounds i s = some s') : s'.updIdList = s.updIdList := by
  -- a slot is replayed before anything behind it in the log is stored to
  have few := layout.few_slots
  induction rounds generalizing i s with
  | zero => cases checked
  | succ rounds ih =>
    unfold checkSlots at checked
    split at checked
    · next round =>
      obtain ⟨next, slot, rest⟩ := Option.bind_eq_some_iff.mp checked
      rw [Nat.mod_eq_of_lt (show i + 1 < 2 ^ 8 by omega)] at rest
      have lists := checkSlot_lists layout m no_updates positive same slot
      refine (ih (i + 1) (by omega) (by omega) next (fun x lower upper => ?_) rest).trans lists
      have step := Handle.slot_step (h := h) (show i < i + 1 by omega)
      rw [← same x (by omega) upper]
      by_cases known : i < h.txSlotsCount
      · apply (checkSlot_spec layout known slot).1
        simp only [Handle.slotArea, Handle.blockArea, Set.mem_union, mem_span, Set.mem_ofPred_eq]
        omega
      · unfold checkSlot at slot
        rw [layout.slot_none (by omega)] at slot
        cases slot
        rfl
    · cases checked
      rfl

theorem ListsOpened.lists (layout : h.LogLayout) {heap : Nat → Nat → TxMeta} (opened : ListsOpened h heap s) :
    s.updIdList = fun i => ⟨0, heap i⟩ := by
  have populate : ∀ pos (t : Store), (populateLoop h pos t).updIdList = t.updIdList := by
    intro pos
    induction pos with
    | zero => exact fun t => rfl
    | succ pos ih =>
      intro t
      unfold populateLoop
      rw [ih]
      split <;> rfl
  cases opened with
  | created before initial init =>
    obtain ⟨list, -, rfl⟩ := Option.map_eq_some_iff.mp init
    exact populate _ _
  | existed before initial recovered init no_updates reopened =>
    obtain ⟨list, -, rfl⟩ := Option.map_eq_some_iff.mp init
    obtain ⟨checked, check, pushes, -, rfl⟩ := reopened
    have lists := checkSlots_lists layout _ no_updates _ 1 (le_refl 1) (by omega) _ (fun _ _ _ => rfl) check
    rw [foldl_recoveryPush_lists]
    exact lists

theorem ListsOpened.allHold (layout : h.LogLayout) {heap : Nat → Nat → TxMeta}
    (end_marks : ∀ i < h.txSlotsCount, (heap i 0).id = 0) (opened : ListsOpened h heap s) :
    AllHold h ⟨⟨s, fun _ => .idle⟩, fun _ => []⟩ := by
  intro i known
  have lists := congrFun (opened.lists layout) i
  simp only
  rw [lists]
  exact listHolds_nil rfl (end_marks i known)

end Opening

-- in a run that starts with an end mark in each list and whose updates find room in them, the update lists name the
-- blocks updated so far, no index reaches 128, and every block named gets its header
theorem update_lists_run {h : Handle} (layout : h.LogLayout) {heap : Nat → Nat → TxMeta}
    (end_marks : ∀ i < h.txSlotsCount, (heap i 0).id = 0) {s : Store} (opened : ListsOpened h heap s)
    {t : Tracked} (run : Relation.ReflTransGen (TrackedStep h) ⟨⟨s, fun _ => .idle⟩, fun _ => []⟩ t) :
    (∀ i < h.txSlotsCount, ListHolds (t.sys.store.updIdList i) (t.updated i)) ∧
      (∀ i < h.txSlotsCount, ListSafe t (.entry i) → ∀ blkId, updatesBlock t.sys i = some blkId →
        metaFind (t.sys.store.updIdList i).list blkId (t.sys.store.updIdList i).count 0 < 128) ∧
      ∀ i < h.txSlotsCount, ∀ pos stop sys', t.sys.phase i = .executing pos stop →
        microStep h t.sys (.clear i) = some sys' → (sys'.store.updIdList i).count = 0 ∧
          ∀ blkId ∈ t.updated i, HeaderRewritten h t.sys.store.pool sys'.store.pool blkId := by
  have all : AllHold h t := by
    induction run with
    | refl => exact opened.allHold layout end_marks
    | tail _ step ih => exact ih.step step
  refine ⟨all, fun i known safe blkId updates => (all i known).touches (safe blkId updates),
    fun i known pos stop sys' running cleared => ?_⟩
  rcases clear_lists cleared with ⟨pos', stop', processed, -, process, lists, follows⟩ | ⟨other, -⟩
  · obtain ⟨-, -, count, rewritten⟩ := (all i known).process process
    rw [lists]
    refine ⟨count, fun blkId member => ?_⟩
    obtain ⟨obj, version, valLen, sum, direct, stores⟩ := rewritten blkId member
    exact ⟨obj, version, valLen, sum, direct, stores.1.mono follows, stores.2.1.mono follows,
      stores.2.2.mono follows⟩
  · exact absurd running (other pos stop)

-- the flat pool just after it was made, with update lists in memory that holds `id` everywhere
def heapStore (id : Nat) : Store :=
  openEmpty flatHandle
    { zeroStore with txSlotsList := some ⟨1, 1, 1, []⟩, updIdList := fun _ => ⟨0, fun _ => ⟨id, 0, 0⟩⟩ }

theorem heapStore_opened (id : Nat) : ListsOpened flatHandle (fun _ _ => ⟨id, 0, 0⟩) (heapStore id) := by
  refine ListsOpened.created zeroStore _ ?_
  have loop : slotIdsLoop flatHandle (2 ^ 8) 1 (caslistNew 1 flatHandle.txSlotsCount) =
      some (some ⟨1, 1, 1, []⟩) := by decide +kernel
  simp only [txLogInit, loop, Option.map_some]

def Tracked.after (h : Handle) (t : Tracked) (action : Action) : Tracked := ⟨t.sys.after h action, t.next action⟩

theorem TrackedStep.after {h : Handle} {t : Tracked} {action : Action} (ran : (microStep h t.sys action).isSome)
    (safe : ListSafe t action) : TrackedStep h t (t.after h action) := by
  obtain ⟨sys', done⟩ := Option.isSome_iff_exists.mp ran
  refine ⟨action, safe, ?_, rfl⟩
  rw [Tracked.after, System.after, done]
  rfl

theorem TrackedStep.calls {h : Handle} {t : Tracked} (actions : List Action) (ran : (microRun h t.sys actions).isSome)
    (plain : ∀ i, Action.entry i ∉ actions) :
    Relation.ReflTransGen (TrackedStep h) t (actions.foldl (Tracked.after h) t) := by
  induction actions generalizing t with
  | nil => exact .refl
  | cons action rest ih =>
    obtain ⟨sys', done⟩ := Option.isSome_iff_exists.mp ran
    obtain ⟨next, step, rest_ran⟩ := Option.bind_eq_some_iff.mp done
    have same : (t.after h action).sys = next := by
      rw [Tracked.after, System.after, step]
      rfl
    have first : TrackedStep h t (t.after h action) := by
      refine .after (by rw [step]; rfl) ?_
      cases action with
      | entry i => exact absurd List.mem_cons_self (plain i)
      | _ => trivial
    refine .head first (ih ?_ fun i member => plain i (List.mem_cons_of_mem _ member))
    rw [same, rest_ran]
    rfl

-- one object is put in each of the two blocks, up to the execution
def bothPutTracked : Tracked :=
  [Action.begin, .take 0 false (onePair 0), .put 0, .take 0 false (onePair 0), .put 0, .commit 0, .execute 0].foldl
    (Tracked.after flatHandle) ⟨⟨heapStore 0, fun _ => .idle⟩, fun _ => []⟩

-- both objects are updated in place, up to the execution
def bothUpdating : Tracked :=
  [Action.clear 0, .free 0, .begin, .smallUpdate 0 (onePair 1), .smallUpdate 0 (onePair 2), .commit 0, .execute 0].foldl
    (Tracked.after flatHandle) ((bothPutTracked.after flatHandle (.entry 0)).after flatHandle (.entry 0))

def bothUpdated : Tracked := (bothUpdating.after flatHandle (.entry 0)).after flatHandle (.entry 0)

theorem bothUpdated_run : Relation.ReflTransGen (TrackedStep flatHandle) ⟨⟨heapStore 0, fun _ => .idle⟩, fun _ => []⟩
    bothUpdated := by
  have puts : Relation.ReflTransGen (TrackedStep flatHandle) ⟨⟨heapStore 0, fun _ => .idle⟩, fun _ => []⟩ bothPutTracked :=
    TrackedStep.calls _ (by decide +kernel) fun i => by simp
  have plain : ∀ t : Tracked, updatesBlock t.sys 0 = none → ListSafe t (.entry 0) := fun t none_updated blkId updates => by
    rw [none_updated] at updates
    cases updates
  have first : TrackedStep flatHandle bothPutTracked (bothPutTracked.after flatHandle (.entry 0)) :=
    .after (by decide +kernel) (plain _ (by decide +kernel))
  have second : TrackedStep flatHandle (bothPutTracked.after flatHandle (.entry 0))
      ((bothPutTracked.after flatHandle (.entry 0)).after flatHandle (.entry 0)) :=
    .after (by decide +kernel) (plain _ (by decide +kernel))
  have updates : Relation.ReflTransGen (TrackedStep flatHandle) ((bothPutTracked.after flatHandle (.entry 0)).after
      flatHandle (.entry 0)) bothUpdating := TrackedStep.calls _ (by decide +kernel) fun i => by simp
  have third : TrackedStep flatHandle bothUpdating (bothUpdating.after flatHandle (.entry 0)) := by
    refine .after (by decide +kernel) fun blkId named => ?_
    have block : updatesBlock bothUpdating.sys 0 = some 1 := by decide +kernel
    cases block.symm.trans named
    exact ⟨by decide, fun _ => ⟨by decide +kernel, fun _ => by decide +kernel⟩⟩
  have last : TrackedStep flatHandle (bothUpdating.after flatHandle (.entry 0)) bothUpdated := by
    refine .after (by decide +kernel) fun blkId named => ?_
    have block : updatesBlock (bothUpdating.after flatHandle (.entry 0)).sys 0 = some 2 := by decide +kernel
    cases block.symm.trans named
    exact ⟨by decide, fun _ => ⟨by decide +kernel, fun _ => by decide +kernel⟩⟩
  exact ((((puts.tail first).tail second).trans updates).tail third).tail last

theorem update_lists_run_sample : ListHolds (bothUpdated.sys.store.updIdList 0) [1, 2] ∧
    ∃ sys', microStep flatHandle bothUpdated.sys (.clear 0) = some sys' ∧
      HeaderRewritten flatHandle bothUpdated.sys.store.pool sys'.store.pool 1 ∧
        HeaderRewritten flatHandle bothUpdated.sys.store.pool sys'.store.pool 2 := by
  obtain ⟨holds, -, headers⟩ := update_lists_run flatHandle_layout.toLogLayout (fun _ _ => rfl) (heapStore_opened 0)
    bothUpdated_run
  have named : bothUpdated.updated 0 = [1, 2] := by decide +kernel
  have counts : (bothUpdated.sys.store.updIdList 0).count = 2 ∧ (microStep flatHandle bothUpdated.sys (.clear 0)).map
      (fun sys' => (sys'.store.updIdList 0).count) = some 0 := by decide +kernel
  obtain ⟨sys', cleared, none_left⟩ := Option.map_eq_some_iff.mp counts.2
  obtain ⟨pos, stop, -, running, -⟩ | ⟨-, same⟩ := clear_lists cleared
  · have written := (headers 0 (by decide) pos stop sys' running cleared).2
    rw [named] at written
    exact ⟨named ▸ holds 0 (by decide), sys', cleared, written 1 (by simp), written 2 (by simp)⟩
  · rw [same, counts.1] at none_left
    cases none_left

-- a transaction that updates block 1 in place, up to its execution
def updateCalls : List Action := [.begin, .smallUpdate 0 (onePair 1), .commit 0, .execute 0]

-- the address of block 1 of the flat pool
def blockOne : Nat := flatBackend.dataArea + 4096

-- the list of a heap that holds 5 everywhere takes no block: the value of block 1 is updated, and its header is not
-- written
theorem garbage_hides_update :
    ListsOpened flatHandle (fun _ _ => ⟨5, 0, 0⟩) (heapStore 5) ∧
      ∃ sys updated cleared, microRun flatHandle ⟨heapStore 5, fun _ => .idle⟩ updateCalls = some sys ∧
        updatesBlock sys 0 = some 1 ∧ microStep flatHandle sys (.entry 0) = some updated ∧
        ¬ListHolds (updated.store.updIdList 0) [1] ∧
        microStep flatHandle updated (.clear 0) = some cleared ∧
        backendDirect flatHandle.backend 1 = some blockOne ∧
        cleared.store.pool.mem (blockOne + 32 + flatHandle.maxKeyLen) = 118 ∧
        version cleared.store.pool.mem blockOne = 0 := by
  refine ⟨heapStore_opened 5, ?_⟩
  have ran : (microRun flatHandle ⟨heapStore 5, fun _ => .idle⟩ updateCalls).bind (fun sys =>
      (microStep flatHandle sys (.entry 0)).bind fun updated =>
        (microStep flatHandle updated (.clear 0)).map fun cleared =>
          (updatesBlock sys 0, (updated.store.updIdList 0).count,
            cleared.store.pool.mem (blockOne + 32 + flatHandle.maxKeyLen),
            version cleared.store.pool.mem blockOne)) = some (some 1, 0, 118, 0) := by decide +kernel
  obtain ⟨sys, calls, entry⟩ := Option.bind_eq_some_iff.mp ran
  obtain ⟨updated, step, clear⟩ := Option.bind_eq_some_iff.mp entry
  obtain ⟨cleared, last, values⟩ := Option.map_eq_some_iff.mp clear
  simp only [Prod.mk.injEq] at values
  refine ⟨sys, updated, cleared, calls, values.1, step, fun holds => ?_, last, by decide +kernel, values.2.2.1,
    values.2.2.2⟩
  have named := holds.length
  rw [values.2.1] at named
  cases named

end PmBackend
