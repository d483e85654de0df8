import PmBackend.Blocks
import PmBackend.PutCases

set_option autoImplicit false

namespace PmBackend

structure NoEffect (put : Store → Store × Status × PmbPair) (s : Store) (kv : PmbPair) : Prop where
  free : ∀ id, Listed (put s).1.freeList id ↔ Listed s.freeList id
  metaFree : ∀ id, Listed (put s).1.metaFreeList id ↔ Listed s.metaFreeList id
  -- no store to the mapped file at all, so no block and no slot
  pool : (put s).1.pool = s.pool
  pair : (put s).2.2 = kv
  repeated : ∀ n region, pmbNfree ((fun t => (put t).1)^[n] s) region = pmbNfree s region

-- `pmb_tput` gets as far as the pop, and there is a block to pop
def TakesBlock (h : Handle) (s : Store) (txSlot : Nat) (kv : PmbPair) : Prop :=
  TputArgs h txSlot kv ∧ ¬SmallUpdate h kv ∧ (∃ old, OldBlock h s.pool.mem kv.blkId old) ∧
    ∃ id, Listed s.freeList id

-- `pmb_tput_meta` pops the id of no block
def TakesStray (h : Handle) (s : Store) (txSlot : Nat) (kv : PmbPair) : Prop :=
  TputMetaArgs h txSlot kv ∧ (∃ old, OldBlock h s.pool.mem kv.blkId old) ∧
    ∃ id, Listed s.metaFreeList id ∧ (∀ other, Listed s.metaFreeList other → id ≤ other) ∧
      backendDirect h.backend id = none

-- two lists of ids, as `caslist_new`, pushes and pops leave them
structure ValidLists (s : Store) : Prop where
  free : ∃ ids, ListOf s.freeList ids ∧ ∀ id ∈ ids, id + 1 < 2 ^ 64
  metaFree : ∃ ids, ListOf s.metaFreeList ids ∧ ∀ id ∈ ids, id + 1 < 2 ^ 64

section Pops

variable {list : Option Caslist} {ids : Finset Nat}

theorem ListOf.pop_lost (lists : ListOf list ids) (small : ∀ id ∈ ids, id + 1 < 2 ^ 64) {id : Nat}
    (listed : Listed list id) :
    (caslistPop list 0).ret = 0 ∧ Listed list (caslistPop list 0).val ∧
      (∀ other, Listed list other → (caslistPop list 0).val ≤ other) ∧
      ¬Listed (caslistPop list 0).list (caslistPop list 0).val := by
  have member := (lists.listed id).mp listed
  obtain ⟨least, inside, below, ret, val, rest⟩ := lists.pop ⟨id, member⟩ small 0
  rw [val]
  refine ⟨ret, (lists.listed least).mpr inside, fun other listed' => below other ((lists.listed other).mp listed'), ?_⟩
  rw [rest.listed]
  simp

theorem ListOf.pop_none (lists : ListOf list ids) (none_listed : ∀ id, ¬Listed list id) :
    caslistPop list 0 = ⟨1, 0, list⟩ := by
  have empty : ids = ∅ := by
    by_contra some_member
    obtain ⟨id, member⟩ := Finset.nonempty_iff_ne_empty.mpr some_member
    exact none_listed id ((lists.listed id).mpr member)
  subst empty
  exact lists.pop_empty 0

theorem ListOf.pop_push (lists : ListOf list ids) (small : ∀ id ∈ ids, id + 1 < 2 ^ 64) {id : Nat}
    (listed : Listed list id) : caslistPush (caslistPop list 0).list (caslistPop list 0).val = list := by
  have member := (lists.listed id).mp listed
  obtain ⟨least, inside, -, -, val, rest⟩ := lists.pop ⟨id, member⟩ small 0
  have positive := lists.positive inside
  have bound := small least inside
  rw [val]
  have pushed := rest.push_pos (by omega : least ≠ 0) (by omega)
  rw [Finset.insert_erase inside] at pushed
  exact pushed.unique lists

end Pops

section Puts

variable {h : Handle} {s : Store} {txSlot : Nat} {kv : PmbPair}

theorem NoEffect.of_same {put : Store → Store × Status × PmbPair} (same : (put s).1 = s)
    (pair : (put s).2.2 = kv) : NoEffect put s kv := by
  refine ⟨by simp [same], by simp [same], by rw [same], pair, fun n region => ?_⟩
  induction n with
  | zero => rfl
  | succ n ih =>
    rw [Function.iterate_succ_apply, same]
    exact ih

theorem txSlotAppend_refused {fill : Pool → Nat → Pool} {len : Nat}
    (failed : (txSlotAppend h s txSlot fill len).2 ≠ .ok) : (txSlotAppend h s txSlot fill len).1 = s := by
  unfold txSlotAppend at failed ⊢
  split
  · rfl
  · next slot direct =>
    rw [direct] at failed
    simp only at failed ⊢
    split
    · rfl
    · next processing =>
      rw [if_neg processing] at failed
      exact absurd rfl failed

theorem logNewBlock_refused {old new : Nat} (failed : (logNewBlock h s txSlot old new).2 ≠ .ok) :
    (logNewBlock h s txSlot old new).1 = s := by
  obtain ⟨fill, -, append⟩ := logNewBlock_append h s txSlot old new
  rw [append] at failed ⊢
  exact txSlotAppend_refused failed

theorem pmbTput_failed (failed : (pmbTput h s txSlot kv).2.1 ≠ .ok) :
    ((pmbTput h s txSlot kv).1 = s ∧ (pmbTput h s txSlot kv).2.2 = kv ∧
        (¬TputArgs h txSlot kv ∨ SmallUpdate h kv ∨ ∀ old, ¬OldBlock h s.pool.mem kv.blkId old)) ∨
      (TputArgs h txSlot kv ∧ ¬SmallUpdate h kv ∧ ∃ old, OldBlock h s.pool.mem kv.blkId old ∧
        pmbTput h s txSlot kv = tputNewBlock h s txSlot kv old) := by
  -- a put fails in a check, in the log of a small update, or after it has asked for a block
  unfold pmbTput at failed ⊢
  split
  · next invalid => exact Or.inl ⟨rfl, rfl, Or.inl fun args => args.accepted invalid⟩
  · next valid =>
    rw [if_neg valid] at failed
    simp only [not_or, not_and, Option.isNone_iff_eq_none, ne_eq, not_not] at valid
    obtain ⟨positive, known, key_fits, key_positive, key, val, offset⟩ := valid
    split
    · next size => exact Or.inl ⟨rfl, rfl, Or.inl fun args => absurd args.value_fits (by omega)⟩
    · next size =>
      rw [if_neg size] at failed
      have args : TputArgs h txSlot kv := by
        refine ⟨positive, by omega, by omega, key_positive, Option.ne_none_iff_exists'.mp key, ?_, offset,
          by omega⟩
        by_cases empty : kv.val = none
        · exact Or.inl (val empty)
        · exact Or.inr (Option.ne_none_iff_exists'.mp empty)
      split
      · next small =>
        rw [if_pos small] at failed
        exact Or.inl ⟨txSlotAppend_refused failed, rfl, Or.inr (Or.inl small)⟩
      · next large =>
        rw [if_neg large] at failed
        split
        · next update =>
          split
          · next missing =>
            refine Or.inl ⟨rfl, rfl, Or.inr (Or.inr fun old found => ?_)⟩
            rcases found with ⟨zero, -⟩ | ⟨-, obj, found, -⟩
            · exact update zero
            · rw [missing] at found
              cases found
          · next obj found => exact Or.inr ⟨args, large, some obj, Or.inr ⟨update, obj, found, rfl⟩, rfl⟩
        · next write => exact Or.inr ⟨args, large, none, Or.inl ⟨not_not.mp write, rfl⟩, rfl⟩

theorem tputNewBlock_failed {old : Option Nat} (failed : (tputNewBlock h s txSlot kv old).2.1 ≠ .ok) :
    (tputNewBlock h s txSlot kv old).1 = { s with freeList := (caslistPop s.freeList 0).list } ∧
      (tputNewBlock h s txSlot kv old).2.2 = kv := by
  unfold tputNewBlock at failed ⊢
  simp only at failed ⊢
  split
  · exact ⟨rfl, rfl⟩
  · next popped =>
    rw [if_neg popped] at failed
    split
    · exact ⟨rfl, rfl⟩
    · next obj direct =>
      rw [direct] at failed
      simp only at failed ⊢
      split
      · next refused => exact ⟨logNewBlock_refused refused, rfl⟩
      · next logged =>
        rw [if_neg logged] at failed
        exact absurd rfl failed

theorem failed_tput_iff (lists : ValidLists s) (failed : (pmbTput h s txSlot kv).2.1 ≠ .ok) :
    NoEffect (fun t => pmbTput h t txSlot kv) s kv ↔ ¬TakesBlock h s txSlot kv := by
  obtain ⟨ids, free, small⟩ := lists.free
  rcases pmbTput_failed failed with ⟨same, pair, stopped⟩ | ⟨args, large, old, found, new⟩
  · refine ⟨fun _ taken => ?_, fun _ => NoEffect.of_same same pair⟩
    obtain ⟨args, large, ⟨old, found⟩, -⟩ := taken
    rcases stopped with bad | update | missing
    · exact bad args
    · exact large update
    · exact missing old found
  · rw [new] at failed
    obtain ⟨popped, pair⟩ := tputNewBlock_failed failed
    rw [← new] at popped pair
    constructor
    · rintro clean ⟨-, -, -, id, listed⟩
      -- the popped id is gone from the list
      obtain ⟨-, was, -, gone⟩ := free.pop_lost small listed
      have still := (clean.free _).mpr was
      rw [popped] at still
      exact gone still
    · intro not_taken
      have none_listed : ∀ id, ¬Listed s.freeList id :=
        fun id listed => not_taken ⟨args, large, ⟨old, found⟩, id, listed⟩
      refine NoEffect.of_same ?_ pair
      rw [popped, free.pop_none none_listed]

theorem pmbTputMeta_paths :
    ((pmbTputMeta h s txSlot kv).1 = s ∧ (pmbTputMeta h s txSlot kv).2.2 = kv ∧
        (¬TputMetaArgs h txSlot kv ∨ ∀ old, ¬OldBlock h s.pool.mem kv.blkId old)) ∨
      (TputMetaArgs h txSlot kv ∧ ∃ old, OldBlock h s.pool.mem kv.blkId old ∧
        pmbTputMeta h s txSlot kv = tputMetaNewBlock h s txSlot kv old) := by
  unfold pmbTputMeta
  split
  · next invalid =>
    refine Or.inl ⟨rfl, rfl, Or.inl fun args => ?_⟩
    obtain ⟨bytes, key⟩ := args.key
    obtain ⟨val, given⟩ := args.val
    rcases invalid with zero | high | no_key | null | null | empty
    · exact args.slot_positive zero
    · exact absurd args.slot_known (by omega)
    · exact args.key_positive no_key
    · rw [key] at null
      cases null
    · rw [given] at null
      cases null
    · exact args.val_positive empty
  · next valid =>
    simp only [not_or, Option.isNone_iff_eq_none] at valid
    obtain ⟨positive, known, key_positive, key, val, val_positive⟩ := valid
    split
    · next size => exact Or.inl ⟨rfl, rfl, Or.inl fun args => absurd args.fits (by omega)⟩
    · next size =>
      split
      · next region =>
        refine Or.inl ⟨rfl, rfl, Or.inl fun args => ?_⟩
        rcases args.region with zero | beyond
        · omega
        · omega
      · next region =>
        have args : TputMetaArgs h txSlot kv :=
          ⟨positive, by omega, key_positive, Option.ne_none_iff_exists'.mp key,
            Option.ne_none_iff_exists'.mp val, val_positive, by omega, by omega⟩
        split
        · next update =>
          split
          · next missing =>
            refine Or.inl ⟨rfl, rfl, Or.inr fun old found => ?_⟩
            rcases found with ⟨zero, -⟩ | ⟨-, obj, found, -⟩
            · exact update zero
            · rw [missing] at found
              cases found
          · next obj found => exact Or.inr ⟨args, some obj, Or.inr ⟨update, obj, found, rfl⟩, rfl⟩
        · next write => exact Or.inr ⟨args, none, Or.inl ⟨not_not.mp write, rfl⟩, rfl⟩

theorem tputMetaNewBlock_failed {old : Option Nat} (failed : (tputMetaNewBlock h s txSlot kv old).2.1 ≠ .ok) :
    (tputMetaNewBlock h s txSlot kv old).2.2 = kv ∧
      (((caslistPop s.metaFreeList 0).ret = 0 ∧
          (backendDirect h.backend (caslistPop s.metaFreeList 0).val).isSome ∧
          (tputMetaNewBlock h s txSlot kv old).1 =
            { s with
              metaFreeList := caslistPush (caslistPop s.metaFreeList 0).list (caslistPop s.metaFreeList 0).val }) ∨
        (((caslistPop s.metaFreeList 0).ret ≠ 0 ∨
            backendDirect h.backend (caslistPop s.metaFreeList 0).val = none) ∧
          (tputMetaNewBlock h s txSlot kv old).1 =
            { s with metaFreeList := (caslistPop s.metaFreeList 0).list })) := by
  unfold tputMetaNewBlock at failed ⊢
  simp only at failed ⊢
  split
  · next popped => exact ⟨rfl, Or.inr ⟨Or.inl popped, rfl⟩⟩
  · next popped =>
    rw [if_neg popped] at failed
    split
    · next stray => exact ⟨rfl, Or.inr ⟨Or.inr stray, rfl⟩⟩
    · next obj direct =>
      rw [direct] at failed
      simp only at failed ⊢
      split
      · next refused =>
        refine ⟨rfl, Or.inl ⟨not_not.mp popped, by rw [direct]; rfl, ?_⟩⟩
        rw [logNewBlock_refused refused]
      · next logged =>
        rw [if_neg logged] at failed
        exact absurd rfl failed

theorem failed_tputMeta_iff (lists : ValidLists s) (failed : (pmbTputMeta h s txSlot kv).2.1 ≠ .ok) :
    NoEffect (fun t => pmbTputMeta h t txSlot kv) s kv ↔ ¬TakesStray h s txSlot kv := by
  obtain ⟨ids, free, small⟩ := lists.metaFree
  rcases pmbTputMeta_paths with ⟨same, pair, stopped⟩ | ⟨args, old, found, new⟩
  · refine ⟨fun _ taken => ?_, fun _ => NoEffect.of_same same pair⟩
    obtain ⟨args, ⟨old, found⟩, -⟩ := taken
    rcases stopped with bad | missing
    · exact bad args
    · exact missing old found
  · rw [new] at failed
    obtain ⟨pair, outcome⟩ := tputMetaNewBlock_failed failed
    rw [← new] at pair outcome
    by_cases some_listed : ∃ id, Listed s.metaFreeList id
    · obtain ⟨id, listed⟩ := some_listed
      obtain ⟨ret, was, least, gone⟩ := free.pop_lost small listed
      rcases outcome with ⟨-, block, after⟩ | ⟨why, after⟩
      · refine ⟨fun _ taken => ?_, fun _ => NoEffect.of_same ?_ pair⟩
        · obtain ⟨-, -, low, low_listed, below, stray⟩ := taken
          -- the least id is the popped one, and that has a block
          have same : low = (caslistPop s.metaFreeList 0).val :=
            le_antisymm (below _ was) (least _ low_listed)
          rw [← same, stray] at block
          cases block
        · rw [after, free.pop_push small listed]
      · have stray := why.resolve_left (not_not.mpr ret)
        refine ⟨fun clean => ?_, fun not_taken => absurd ⟨args, ⟨old, found⟩, _, was, least, stray⟩ not_taken⟩
        have still := (clean.metaFree _).mpr was
        rw [after] at still
        exact absurd still gone
    · have none_listed := not_exists.mp some_listed
      have empty := free.pop_none none_listed
      refine ⟨fun _ taken => ?_, fun _ => NoEffect.of_same ?_ pair⟩
      · obtain ⟨-, -, low, low_listed, -⟩ := taken
        exact none_listed low low_listed
      · rw [empty] at outcome
        rcases outcome with ⟨impossible, -⟩ | ⟨-, after⟩
        · cases impossible
        · exact after

-- a failed put has no effect unless `pmb_tput` has taken a block, or `pmb_tput_meta` a stray id
theorem failed_put_iff (lists : ValidLists s) (txSlot : Nat) (kv : PmbPair) :
    ((pmbTput h s txSlot kv).2.1 ≠ .ok →
        (NoEffect (fun t => pmbTput h t txSlot kv) s kv ↔ ¬TakesBlock h s txSlot kv)) ∧
      ((pmbTputMeta h s txSlot kv).2.1 ≠ .ok →
        (NoEffect (fun t => pmbTputMeta h t txSlot kv) s kv ↔ ¬TakesStray h s txSlot kv)) :=
  ⟨failed_tput_iff lists, failed_tputMeta_iff lists⟩

end Puts

theorem flatStore_lists : ValidLists flatStore := by
  refine ⟨⟨_, flatStore_free, fun id member => ?_⟩, ⟨∅, flatStore_metaFree, fun id member => by cases member⟩⟩
  have range := Finset.mem_Icc.mp member
  omega

theorem failed_put_iff_sample :
    (pmbTput flatHandle flatStore 2 (onePair 0)).2.1 = .eargs ∧
      NoEffect (fun t => pmbTput flatHandle t 2 (onePair 0)) flatStore (onePair 0) := by
  have failed : (pmbTput flatHandle flatStore 2 (onePair 0)).2.1 = .eargs := by decide +kernel
  refine ⟨failed, ((failed_put_iff flatStore_lists 2 (onePair 0)).1 ?_).mpr fun taken => ?_⟩
  · rw [failed]
    decide
  · exact absurd taken.1.slot_known (by decide)

-- the slot was not started: the put fails, and block 1 is in no list any more
theorem failed_put_leaks :
    ValidLists flatStore ∧ (pmbTput flatHandle flatStore 1 (onePair 0)).2.1 = .err ∧
      ¬NoEffect (fun t => pmbTput flatHandle t 1 (onePair 0)) flatStore (onePair 0) := by
  have done : ((pmbTput flatHandle flatStore 1 (onePair 0)).2.1,
      (pmbTput flatHandle flatStore 1 (onePair 0)).1.freeList) = (.err, some ⟨1, 2, 2, []⟩) := by decide +kernel
  simp only [Prod.mk.injEq] at done
  refine ⟨flatStore_lists, done.1, fun clean => ?_⟩
  obtain ⟨l, is, member⟩ := (clean.free 1).mpr ⟨_, rfl, by decide⟩
  rw [done.2] at is
  cases is
  exact absurd member (by decide)

end PmBackend
